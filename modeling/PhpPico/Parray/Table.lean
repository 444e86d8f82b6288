import PhpPico.Lib.Chain
import PhpPico.Lib.OrderedMap
import PhpPico.Parray.Key

/-!
# Arrays

An array keeps its entries in the order they were added. While the keys are 0, 1, 2, ... it is packed; any other key
promotes it to a hash table, whose chains run through the entries by their `next` fields. A removed entry stays behind
as a tombstone. Reference counts are left out, and a value is anything.
-/

namespace PhpPico
open Chain OrderedMap

/-- `EMPTY_BUCKET`: the end of a chain. -/
def emptyBucket : Nat := 65535

/-- `integer_hash`. -/
def integerHash (value : Int) : UInt32 :=
  let h := UInt32.ofInt value
  let h := (h ^^^ (h >>> 16)) * 0x7feb352d
  let h := (h ^^^ (h >>> 15)) * 0x846ca68b
  h ^^^ (h >>> 16)

/-- `ps_hash_bytes`. -/
def psHashBytes (bytes : List UInt8) : UInt32 :=
  let hash := bytes.foldl (fun (h : UInt32) b => (h ^^^ b.toUInt32) * 16777619) 2166136261
  if hash = 0 then 1 else hash

/-- `key_hash`. -/
def keyHash : Key → UInt32
  | .int i => integerHash i
  | .string s => psHashBytes s.bytes

/-- The bucket of a key, `key_hash(key) & (bucket_count - 1)`. -/
def bucketOf (bucketCount : Nat) (key : Key) : Nat := (keyHash key).toNat &&& (bucketCount - 1)

section Arrays
variable {V : Type}

/-- `pentry`. The cell of a removed entry is empty; its key is then of type `PT_NULL`. -/
structure PEntry (V : Type) where
  cell : Option (Key × V)
  next : Nat
  deriving DecidableEq

/-- `parray`. `entries` are the first `used` of them and `buckets` has length `bucket_count`. -/
structure PArray (V : Type) where
  packed : Bool
  size : Nat
  capacity : Nat
  nextIndex : Int
  entries : List (PEntry V)
  buckets : List Nat
  deriving DecidableEq

/-- The allocations an operation on an array can make; none is reached twice in one call. -/
inductive AllocSite where
  | header | emptyKey | promotion | buckets | entries
  deriving DecidableEq

/-- Which allocations succeed during a call. -/
abbrev Memory := AllocSite → Bool

namespace PArray

def used (a : PArray V) : Nat := a.entries.length

def cells (a : PArray V) : List (Option (Key × V)) := a.entries.map PEntry.cell

/-- The `next` field of an entry. -/
def next (entries : List (PEntry V)) (i : Nat) : Nat := (entries[i]?.map PEntry.next).getD emptyBucket

/-- The memory of a fresh array, `memset` to zero and flagged as packed. -/
def blank : PArray V := ⟨true, 0, 0, 0, [], []⟩

/-- The capacity `ensure_entries` asks for: twice the old one, and at least the minimum. -/
def grownCapacity (capacity minimum : Nat) : Nat :=
  let doubled := if capacity = 0 then 8 else capacity * 2
  if doubled < minimum then minimum else doubled

/-- `ensure_entries`. -/
def ensureEntries (a : PArray V) (minimum : Nat) (granted : Bool) : Option (PArray V) :=
  if minimum ≤ a.capacity then some a
  else if 65535 < grownCapacity a.capacity minimum then none
  else if granted then some { a with capacity := grownCapacity a.capacity minimum }
  else none

/-- One round of the loop of `rehash`: put entry `i` in front of the chain of its bucket. -/
def rehashEntry (table : List (PEntry V) × List Nat) (i : Nat) : List (PEntry V) × List Nat :=
  match table.1[i]? with
  | some ⟨some (key, value), _⟩ =>
    let bucket := bucketOf table.2.length key
    (table.1.set i ⟨some (key, value), table.2.getD bucket emptyBucket⟩, table.2.set bucket i)
  | _ => table

/-- `rehash`. -/
def rehash (a : PArray V) (bucketCount : Nat) (granted : Bool) : Option (PArray V) :=
  let bucketCount := if bucketCount < 8 then 8 else bucketCount
  if 65535 < bucketCount then none
  else if granted then
    let table := (List.range a.used).foldl rehashEntry (a.entries, List.replicate bucketCount emptyBucket)
    some { a with entries := table.1, buckets := table.2, packed := false }
  else none

/-- The loop of `promote_hash`: double until there are two buckets for each element. -/
def promotedBuckets (size : Nat) : Nat → Nat → Nat
  | 0, buckets => buckets
  | rounds + 1, buckets => if buckets < size * 2 then promotedBuckets size rounds (buckets * 2) else buckets

/-- `promote_hash`. A size fits 16 bits, so that sixteen rounds are more than enough. -/
def promoteHash (a : PArray V) (granted : Bool) : Option (PArray V) :=
  rehash a (promotedBuckets a.size 16 8) granted

/-- `keys_equal` on the entry the cursor points at. -/
def keyAt (entries : List (PEntry V)) (key : Key) (i : Nat) : Bool :=
  match entries[i]? with
  | some ⟨some (k, _), _⟩ => k == key
  | _ => false

/-- `find_entry`: the index of the entry and the link that leads to it, for a packed array none. The outer `none` is a
walk that never ends: one of more steps than there are entries. -/
def findEntry (a : PArray V) (key : Key) : Option (Option (Nat × Option (Link Nat))) :=
  if a.packed then
    match key with
    | .int i => if 0 ≤ i ∧ i < a.used then some (some (i.toNat, none)) else some none
    | .string _ => some none
  else if a.buckets.length = 0 then some none
  else
    (seek (next a.entries) emptyBucket (keyAt a.entries key) (a.used + 1) .head
      (a.buckets.getD (bucketOf a.buckets.length key) emptyBucket)).map
        fun found => found.map fun (i, link) => (i, some link)

/-- `pa_new`. -/
def paNew (mem : Memory) (capacityHint : Nat) : Option (PArray V) :=
  if mem .header then
    if capacityHint ≠ 0 then ensureEntries blank capacityHint (mem .entries) else some blank
  else none

/-- `pa_clone`. -/
def paClone (mem : Memory) (a : PArray V) : Option (PArray V) :=
  match (paNew mem a.capacity : Option (PArray V)) with
  | none => none
  | some copy =>
    let copy : PArray V :=
      { copy with packed := a.packed, size := a.size, nextIndex := a.nextIndex, entries := a.entries }
    if a.packed then some copy else rehash copy a.buckets.length (mem .buckets)

variable {cfg : Config} (truncate : BitVec cfg.floatWidth → Option Int)

/-- `pa_get`. -/
def paGet (mem : Memory) (a : PArray V) (input : KeyValue cfg) : Option (Option V) :=
  match normalizeKey cfg truncate (mem .emptyKey) input with
  | none => some none
  | some key =>
    match findEntry a key with
    | none => none
    | some none => some none
    | some (some (index, _)) => some ((a.cells[index]?.join).map Prod.snd)

/-- The next index once `key` has been added. -/
def bumpIndex (cfg : Config) (nextIndex : Int) : Key → Int
  | .int i => if nextIndex ≤ i ∧ i < cfg.intMax then i + 1 else nextIndex
  | .string _ => nextIndex

/-- The end of `pa_set`: a new entry behind the others, and at the front of its chain. -/
def append (cfg : Config) (a : PArray V) (key : Key) (value : V) : PArray V :=
  let index := a.used
  let nextIndex := bumpIndex cfg a.nextIndex key
  if a.packed then
    { a with size := a.size + 1, nextIndex, entries := a.entries ++ [⟨some (key, value), emptyBucket⟩] }
  else
    let bucket := bucketOf a.buckets.length key
    { a with
      size := a.size + 1
      nextIndex
      entries := a.entries ++ [⟨some (key, value), a.buckets.getD bucket emptyBucket⟩]
      buckets := a.buckets.set bucket index }

/-- Write the value of an entry. -/
def setValue (a : PArray V) (index : Nat) (value : V) : PArray V :=
  { a with entries := a.entries.modify index fun e => { e with cell := e.cell.map fun c => (c.1, value) } }

/-- The end of `pa_set`, once the buckets are enough. -/
def addEntry (cfg : Config) (mem : Memory) (a : PArray V) (key : Key) (value : V) : Bool × PArray V :=
  match ensureEntries a (a.used + 1) (mem .entries) with
  | none => (false, a)
  | some grown => (true, grown.append cfg key value)

/-- The middle of `pa_set`: twice the buckets when three quarters of them would be in use. -/
def addHashed (cfg : Config) (mem : Memory) (a : PArray V) (key : Key) (value : V) : Bool × PArray V :=
  if a.packed = false ∧ a.buckets.length * 3 < (a.size + 1) * 4 then
    match rehash a (a.buckets.length * 2) (mem .buckets) with
    | none => (false, a)
    | some roomy => roomy.addEntry cfg mem key value
  else a.addEntry cfg mem key value

/-- The part of `pa_set` that adds a key the array does not have. After a promotion the key is
looked up again, for a link that is not used. -/
def addKey (cfg : Config) (mem : Memory) (a : PArray V) (key : Key) (value : V) : Option (Bool × PArray V) :=
  if a.packed = true ∧ key ≠ .int a.used then
    match promoteHash a (mem .promotion) with
    | none => some (false, a)
    | some promoted =>
      match findEntry promoted key with
      | none => none
      | some _ => some (promoted.addHashed cfg mem key value)
  else some (a.addHashed cfg mem key value)

/-- `pa_set`. -/
def paSet (mem : Memory) (a : PArray V) (input : KeyValue cfg) (value : V) : Option (Bool × PArray V) :=
  match normalizeKey cfg truncate (mem .emptyKey) input with
  | none => some (false, a)
  | some key =>
    match findEntry a key with
    | none => none
    | some (some (index, _)) => some (true, a.setValue index value)
    | some none => addKey cfg mem a key value

/-- `pa_push`. -/
def paPush (mem : Memory) (a : PArray V) (value : V) : Option (Bool × PArray V) :=
  paSet truncate mem a (.int a.nextIndex : KeyValue cfg) value

/-- Point the link `link` at `target`. -/
def setLink (a : PArray V) (key : Key) (link : Link Nat) (target : Nat) : PArray V :=
  match link with
  | .head => { a with buckets := a.buckets.set (bucketOf a.buckets.length key) target }
  | .after i => { a with entries := a.entries.modify i fun e => { e with next := target } }

/-- `pa_remove` on a hash table. -/
def removeHashed (a : PArray V) (key : Key) : Option (Bool × PArray V) :=
  match findEntry a key with
  | none => none
  | some none => some (false, a)
  | some (some (index, link)) =>
    let unlinked :=
      match link with
      | some link => a.setLink key link (next a.entries index)
      | none => a
    some (true, { unlinked with
      size := unlinked.size - 1
      entries := unlinked.entries.set index ⟨none, emptyBucket⟩ })

/-- `pa_remove`. -/
def paRemove (mem : Memory) (a : PArray V) (input : KeyValue cfg) : Option (Bool × PArray V) :=
  match normalizeKey cfg truncate (mem .emptyKey) input with
  | none => some (false, a)
  | some key =>
    match (if a.packed then promoteHash a (mem .promotion) else some a) with
    | none => some (false, a)
    | some hashed => hashed.removeHashed key

/-- `pa_count`. -/
def paCount (a : PArray V) : Nat := a.size

/-- The loop of `pa_entry_at` over the entries from `position` on. -/
def firstLive : List (PEntry V) → Nat → Option (Key × V × Nat)
  | [], _ => none
  | ⟨some (key, value), _⟩ :: _, position => some (key, value, position + 1)
  | ⟨none, _⟩ :: rest, position => firstLive rest (position + 1)

/-- `pa_entry_at`: the key, the value and the position to go on from. -/
def paEntryAt (a : PArray V) (position : Nat) : Option (Key × V × Nat) :=
  firstLive (a.entries.drop position) position

/-- An iteration: call `pa_entry_at` from `position` until it finds nothing. -/
def iterate (a : PArray V) : Nat → Nat → List (Key × V)
  | 0, _ => []
  | calls + 1, position =>
    match paEntryAt a position with
    | none => []
    | some (key, value, following) => (key, value) :: iterate a calls following

/-- The entries an iteration from the start shows. -/
def observe (a : PArray V) : List (Key × V) := a.iterate (a.used + 1) 0

end PArray
end Arrays

end PhpPico
