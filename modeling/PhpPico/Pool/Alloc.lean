import PhpPico.Lib.ByteMemory
import PhpPico.Lib.Chain

/-!
# The pool allocator

`alloc.c` carves a pool into blocks. A block begins with a header of two 32-bit words, its size with the used flag and
the size of the block before it; a free block keeps two links behind it, in a doubly linked list for its class of
sizes. The functions work on bytes; 0 is the null pointer.
-/

namespace PhpPico
open ByteMemory Chain

/-- The widths of `size_t` and of pointers the firmware is built for. -/
inductive Arch where
  | bits32 | bits64
  deriving DecidableEq

/-- `sizeof(void *)`. -/
def Arch.pointer : Arch → Nat
  | .bits32 => 4
  | .bits64 => 8

/-- The number of values of `size_t`. -/
def Arch.sizes : Arch → Nat
  | .bits32 => 4294967296
  | .bits64 => 18446744073709551616

/-- `pool_control` and the memory. -/
structure Pool where
  mem : Mem
  /-- `begin` -/
  start : Nat
  /-- `end` -/
  finish : Nat
  total : Nat
  bins : Nat → Nat → Nat
  initialized : Bool

namespace Pool
variable (t : Arch)

/-- `align_up`; the addition wraps around. -/
def alignUp (value : Nat) : Nat := (value + 7) % t.sizes - (value + 7) % t.sizes % 8

/-- `align_down`. -/
def alignDown (value : Nat) : Nat := value - value % 8

/-! ## Headers and links -/

def sizeFlags (m : Mem) (block : Nat) : Nat := load 4 m block

def prevSize (m : Mem) (block : Nat) : Nat := load 4 m (block + 4)

/-- `block_size`. -/
def blockSize (m : Mem) (block : Nat) : Nat := sizeFlags m block - sizeFlags m block % 8

/-- `block_is_used`. -/
def blockIsUsed (m : Mem) (block : Nat) : Bool := sizeFlags m block % 2 == 1

/-- `block_set`; the size is cut to 32 bits. -/
def blockSet (m : Mem) (block size : Nat) (used : Bool) : Mem :=
  store 4 m block (size % 4294967296 ||| (if used then 1 else 0))

def setPrevSize (m : Mem) (block size : Nat) : Mem := store 4 m (block + 4) size

/-- `links_of(block)->next`. -/
def nextLink (m : Mem) (block : Nat) : Nat := load t.pointer m (block + 8)

/-- `links_of(block)->prev`. -/
def prevLink (m : Mem) (block : Nat) : Nat := load t.pointer m (block + 8 + t.pointer)

def setNextLink (m : Mem) (block target : Nat) : Mem := store t.pointer m (block + 8) target

def setPrevLink (m : Mem) (block target : Nat) : Mem :=
  store t.pointer m (block + 8 + t.pointer) target

/-- `next_block`. -/
def nextBlock (m : Mem) (block : Nat) : Nat := block + blockSize m block

/-! ## Free lists -/

/-- The loop of `floor_log2`. -/
def floorLog2 : Nat → Nat → Nat
  | 0, _ => 0
  | rounds + 1, value => if 1 < value then floorLog2 rounds (value / 2) + 1 else 0

/-- `mapping`: the class of a size. -/
def mapping (size : Nat) : Nat × Nat :=
  let log := floorLog2 64 size
  let first := if 24 ≤ log then 23 else log
  let base := 2 ^ first
  let step := if base / 4 = 0 then 1 else base / 4
  let second := (if base < size then size - base else 0) / step
  (first, if 4 ≤ second then 3 else second)

/-- Set the head of a list. -/
def setBin (bins : Nat → Nat → Nat) (c : Nat × Nat) (block : Nat) : Nat → Nat → Nat :=
  fun i j => if (i, j) = c then block else bins i j

/-- `remove_free`. -/
def removeFree (p : Pool) (block : Nat) : Pool :=
  let c := mapping (blockSize p.mem block)
  let p :=
    if prevLink t p.mem block ≠ 0 then
      { p with mem := setNextLink t p.mem (prevLink t p.mem block) (nextLink t p.mem block) }
    else { p with bins := setBin p.bins c (nextLink t p.mem block) }
  let p :=
    if nextLink t p.mem block ≠ 0 then
      { p with mem := setPrevLink t p.mem (nextLink t p.mem block) (prevLink t p.mem block) }
    else p
  { p with mem := setPrevLink t (setNextLink t p.mem block 0) block 0 }

/-- `insert_free`. -/
def insertFree (p : Pool) (block : Nat) : Pool :=
  let c := mapping (blockSize p.mem block)
  let m := setNextLink t (setPrevLink t p.mem block 0) block (p.bins c.1 c.2)
  let m := if nextLink t m block ≠ 0 then setPrevLink t m (nextLink t m block) block else m
  { p with mem := m, bins := setBin p.bins c block }

/-- The classes `find_free` tries, in order. -/
def classesFrom (c : Nat × Nat) : List (Nat × Nat) :=
  (List.range (24 - c.1)).flatMap fun d =>
    let first := if d = 0 then c.2 else 0
    (List.range (4 - first)).map fun e => (c.1 + d, first + e)

/-- The loop of `find_free` over the lists of some classes: the first block that is large enough.
A walk that passes more blocks than the pool has bytes never ends. -/
def findIn (p : Pool) (needed : Nat) : List (Nat × Nat) → Option (Option Nat)
  | [] => some none
  | c :: rest =>
    match seek (nextLink t p.mem) 0 (fun b => decide (needed ≤ blockSize p.mem b))
        (p.finish - p.start + 1) .head (p.bins c.1 c.2) with
    | none => none
    | some (some (block, _)) => some (some block)
    | some none => findIn p needed rest

/-- `find_free`. -/
def findFree (p : Pool) (needed : Nat) : Option (Option Nat) :=
  findIn t p needed (classesFrom (mapping needed))

/-- `minimum_block_size`. -/
def minimumBlockSize : Nat := alignUp t (8 + 2 * t.pointer)

/-! ## The operations -/

/-- The pool before `pphp_pool_init`, over some memory. -/
def uninitialized (m : Mem) : Pool := ⟨m, 0, 0, 0, fun _ _ => 0, false⟩

/-- `pphp_pool_init` with a buffer of `size` bytes at `buffer`. -/
def poolInit (m : Mem) (buffer size : Nat) : Pool :=
  let aligned := alignUp t buffer
  let skipped := aligned - buffer
  if buffer = 0 ∨ size ≤ skipped + minimumBlockSize t + 8 then uninitialized m
  else
    let available := alignDown (size - skipped)
    let m := setPrevSize (blockSet m aligned (available - 8) false) aligned 0
    let sentinel := nextBlock m aligned
    let m := blockSet m sentinel 0 true
    let m := setPrevSize m sentinel (blockSize m aligned)
    insertFree t
      { mem := m
        start := aligned
        finish := sentinel + 8
        total := (blockSize m aligned + t.sizes - 8) % t.sizes
        bins := fun _ _ => 0
        initialized := true } aligned

/-- The size of the block that holds a payload. -/
def neededSize (size : Nat) : Nat :=
  let needed := alignUp t (size + 8)
  if needed < minimumBlockSize t then minimumBlockSize t else needed

/-- The part of `pphp_alloc` after a block has been found. -/
def takeBlock (p : Pool) (block needed : Nat) : Nat × Pool :=
  let p := removeFree t p block
  let remainder := blockSize p.mem block - needed
  if minimumBlockSize t ≤ remainder then
    let rest := block + needed
    let m := setPrevSize (blockSet p.mem rest remainder false) rest needed
    let m := blockSet m block needed true
    let m := setPrevSize m (nextBlock m rest) remainder
    (block + 8, insertFree t { p with mem := m } rest)
  else
    let m := blockSet p.mem block (blockSize p.mem block) true
    (block + 8, { p with mem := setPrevSize m (nextBlock m block) (blockSize m block) })

/-- `pphp_alloc`: the payload and the pool, or nothing when the call never returns. -/
def alloc (p : Pool) (size : Nat) : Option (Nat × Pool) :=
  if p.initialized = false ∨ size = 0 ∨ 4294967287 < size then some (0, p)
  else
    match findFree t p (neededSize t size) with
    | none => none
    | some none => some (0, p)
    | some (some block) => some (takeBlock t p block (neededSize t size))

/-- The merge of `pphp_free` with the block behind. -/
def mergeFollowing (p : Pool) (block : Nat) : Pool :=
  let following := nextBlock p.mem block
  if blockSize p.mem following ≠ 0 ∧ blockIsUsed p.mem following = false then
    let p := removeFree t p following
    let merged := blockSize p.mem block + blockSize p.mem following
    let m := blockSet p.mem block merged false
    { p with mem := setPrevSize m (nextBlock m block) merged }
  else p

/-- The merge of `pphp_free` with the block in front: the pool and the block to be listed. -/
def mergePrevious (p : Pool) (block : Nat) : Pool × Nat :=
  if prevSize p.mem block ≠ 0 then
    let previous := block - prevSize p.mem block
    if blockIsUsed p.mem previous = false then
      let p := removeFree t p previous
      let merged := blockSize p.mem previous + blockSize p.mem block
      let m := blockSet p.mem previous merged false
      ({ p with mem := setPrevSize m (nextBlock m previous) merged }, previous)
    else (p, block)
  else (p, block)

/-- `pphp_free`. -/
def free (p : Pool) (ptr : Nat) : Pool :=
  if ptr = 0 ∨ p.initialized = false then p
  else
    let block := ptr - 8
    if block < p.start ∨ p.finish ≤ block ∨ blockIsUsed p.mem block = false then p
    else
      let p : Pool := { p with mem := blockSet p.mem block (blockSize p.mem block) false }
      let merged := mergePrevious t (mergeFollowing t p block) block
      insertFree t merged.1 merged.2

/-- `pphp_realloc`. -/
def realloc (p : Pool) (ptr size : Nat) : Option (Nat × Pool) :=
  if ptr = 0 then alloc t p size
  else if size = 0 then some (0, free t p ptr)
  else
    let oldSize := blockSize p.mem (ptr - 8) - 8
    if size ≤ oldSize then some (ptr, p)
    else
      match alloc t p size with
      | none => none
      | some (replacement, p) =>
        if replacement = 0 then some (0, p)
        else some (replacement, free t { p with mem := copy p.mem replacement ptr oldSize } ptr)

/-! ## Statistics and the check -/

/-- `pphp_pool_stats`. -/
structure Stats where
  total : Nat
  used : Nat
  free : Nat
  largestFree : Nat
  fragments : Nat
  deriving DecidableEq

/-- One block of the walk of `pphp_pool_get_stats`. -/
def Stats.count (s : Stats) (m : Mem) (block : Nat) : Stats :=
  let payload := blockSize m block - 8
  if blockIsUsed m block then { s with used := s.used + payload }
  else
    { s with
      free := s.free + payload
      fragments := s.fragments + 1
      largestFree := if s.largestFree < payload then payload else s.largestFree }

/-- The walk of `pphp_pool_get_stats`; nothing when it never ends. -/
def statsFrom (m : Mem) : Nat → Nat → Stats → Option Stats
  | 0, _, _ => none
  | fuel + 1, block, s =>
    if blockSize m block = 0 then some s else statsFrom m fuel (nextBlock m block) (s.count m block)

/-- `pphp_pool_get_stats`. -/
def getStats (p : Pool) : Option Stats :=
  if p.initialized then statsFrom p.mem (p.finish - p.start + 1) p.start ⟨p.total, 0, 0, 0, 0⟩
  else some ⟨0, 0, 0, 0, 0⟩

/-- The walk of `pphp_pool_check`. -/
def checkFrom (p : Pool) : Nat → Nat → Nat → Bool
  | 0, _, _ => false
  | fuel + 1, block, previousSize =>
    if p.finish ≤ block then false
    else if prevSize p.mem block ≠ previousSize then false
    else if blockSize p.mem block = 0 then blockIsUsed p.mem block
    else if blockSize p.mem block % 8 ≠ 0 ∨ blockSize p.mem block < minimumBlockSize t then false
    else checkFrom p fuel (nextBlock p.mem block) (blockSize p.mem block)

/-- `pphp_pool_check`; each round goes eight bytes further at least, so that the walk ends. -/
def poolCheck (p : Pool) : Bool :=
  if p.initialized then checkFrom t p (p.finish - p.start + 1) p.start 0 else false

end Pool
end PhpPico
