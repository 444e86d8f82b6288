import PhpPico.Pool.Client

/-!
# The search for a block

Classes are searched from that of the request on, and each list that may hold a large enough block is walked to its
end, so that a free block that fits is found.
-/

namespace PhpPico.Pool
open List ByteMemory Chain

/-! ## Classes -/

/-- The order in which classes are searched. -/
def NotBehind (c k : Nat × Nat) : Prop := c.1 < k.1 ∨ c.1 = k.1 ∧ c.2 ≤ k.2

theorem floorLog2_mono {rounds m n : Nat} (le : m ≤ n) : floorLog2 rounds m ≤ floorLog2 rounds n := by
  induction rounds generalizing m n with
  | zero => exact le_rfl
  | succ rounds ih =>
    unfold floorLog2
    by_cases large : 1 < m
    · rw [if_pos large, if_pos (by omega)]
      exact Nat.succ_le_succ (ih (Nat.div_le_div_right le))
    · rw [if_neg large]
      exact Nat.zero_le _

/-- The row of a size. -/
theorem mapping_fst (n : Nat) : (mapping n).1 = if 24 ≤ floorLog2 64 n then 23 else floorLog2 64 n := rfl

/-- The place of a size in the row that starts with `base`. -/
def quarter (base n : Nat) : Nat :=
  (if base < n then n - base else 0) / if base / 4 = 0 then 1 else base / 4

theorem mapping_snd (n : Nat) :
    (mapping n).2 = if 4 ≤ quarter (2 ^ (mapping n).1) n then 3 else quarter (2 ^ (mapping n).1) n := rfl

theorem quarter_mono (base : Nat) {m n : Nat} (le : m ≤ n) : quarter base m ≤ quarter base n := by
  have above : (if base < m then m - base else 0) ≤ if base < n then n - base else 0 := by
    split <;> split <;> omega
  exact Nat.div_le_div_right above

theorem mapping_lt_rows (n : Nat) : (mapping n).1 < 24 ∧ (mapping n).2 < 4 := by
  constructor
  · rw [mapping_fst]
    split <;> omega
  · rw [mapping_snd]
    split <;> omega

/-- **The mapping is monotone.** -/
theorem mapping_mono {m n : Nat} (le : m ≤ n) : NotBehind (mapping m) (mapping n) := by
  have rows : (mapping m).1 ≤ (mapping n).1 := by
    have logs : floorLog2 64 m ≤ floorLog2 64 n := floorLog2_mono le
    rw [mapping_fst, mapping_fst]
    split <;> split <;> omega
  rcases Nat.lt_or_eq_of_le rows with lower | same
  · exact .inl lower
  · refine .inr ⟨same, ?_⟩
    rw [mapping_snd, mapping_snd, same]
    have places := quarter_mono (2 ^ (mapping n).1) le
    split <;> split <;> omega

theorem mem_classesFrom {c k : Nat × Nat} (behind : NotBehind c k) (row : k.1 < 24) (place : k.2 < 4) :
    k ∈ classesFrom c := by
  simp only [classesFrom, mem_flatMap, mem_range, List.mem_map]
  rcases behind with lower | ⟨same, le⟩
  · refine ⟨k.1 - c.1, by omega, k.2, ?_, ?_⟩
    · rw [if_neg (by omega)]
      exact place
    · rw [if_neg (by omega)]
      exact Prod.ext (by simp only; omega) (by simp only; omega)
  · refine ⟨0, by omega, k.2 - c.2, ?_, ?_⟩
    · rw [if_pos rfl]
      omega
    · rw [if_pos rfl]
      exact Prod.ext (by simp only; omega) (by simp only; omega)

/-! ## The search -/

section Search
variable {t : Arch} {p : Pool} {l : List Block} {hidden : List Nat} {lists : Nat × Nat → List Nat} {b : Block}

/-- A search that finds nothing has passed no block that fits. -/
theorem Heap.findIn_none (h : Heap t p l hidden lists) {needed : Nat} {classes : List (Nat × Nat)}
    (none_found : Pool.findIn t p needed classes = some none) :
    ∀ k ∈ classes, ∀ x ∈ lists k, Pool.blockSize p.mem x < needed := by
  induction classes with
  | nil =>
    intro k listed
    cases listed
  | cons c rest ih =>
    obtain ⟨last, segment⟩ := h.linked c
    have walk := segment.linked.seek_eq (p := fun b => decide (needed ≤ Pool.blockSize p.mem b))
      (h.length_lists c) .head
    rw [Pool.findIn, walk] at none_found
    cases at_c : locate (fun b => decide (needed ≤ Pool.blockSize p.mem b)) .head (lists c) with
    | some found =>
      rw [at_c] at none_found
      cases none_found
    | none =>
      rw [at_c] at none_found
      intro k listed x at_x
      rcases mem_cons.mp listed with rfl | later
      · have small := locate_eq_none at_c x at_x
        exact not_le.mp (of_decide_eq_false small)
      · exact ih none_found k later x at_x

/-- **`find_free` misses no block**: when it finds none, all free blocks are too small. -/
theorem Heap.findFree_none (h : Heap t p l [] lists) {needed : Nat}
    (none_found : findFree t p needed = some none) (hb : b ∈ l) (is_free : b.used = false) : b.size < needed := by
  by_contra fits
  have listed : b.addr ∈ lists (mapping b.size) := (h.listed _ _).mpr ⟨not_mem_nil, b, hb, rfl, is_free, rfl⟩
  obtain ⟨row, place⟩ := mapping_lt_rows b.size
  have searched : mapping b.size ∈ classesFrom (mapping needed) :=
    mem_classesFrom (mapping_mono (not_lt.mp fits)) row place
  have small := h.findIn_none none_found _ searched _ listed
  rw [h.blockSize hb] at small
  exact fits small

end Search

/-! ## Free blocks -/

/-- The blocks a walk over the pool comes to: the first one, and the one behind each that is not the
sentinel. -/
inductive Walked (p : Pool) : Nat → Prop
  | first : Walked p p.start
  | next {x : Nat} (walked : Walked p x) (real : blockSize p.mem x ≠ 0) : Walked p (nextBlock p.mem x)

/-- A free block of the pool. -/
structure FreeBlock (p : Pool) (x : Nat) : Prop where
  initialized : p.initialized = true
  walked : Walked p x
  is_free : blockIsUsed p.mem x = false

/-- The size of the block a request of at least one byte takes, if sizes had no bounds. -/
def rounded (t : Arch) (request : Nat) : Nat := max ((request + 8 + 7) / 8 * 8) (minimumBlockSize t)

theorem neededSize_le_rounded (t : Arch) (request : Nat) : neededSize t request ≤ rounded t request := by
  have up : alignUp t (request + 8) ≤ (request + 8 + 7) / 8 * 8 := by
    have cut := Nat.mod_le (request + 8 + 7) t.sizes
    unfold alignUp
    omega
  unfold neededSize rounded
  simp only
  split <;> omega

section Walk
variable {t : Arch} {p : Pool} {l : List Block} {hidden : List Nat} {lists : Nat × Nat → List Nat}

theorem Heap.walked (h : Heap t p l hidden lists) {x : Nat} (walked : Walked p x) : ∃ b ∈ l, b.addr = x := by
  induction walked with
  | first =>
    have layout := h.layout
    cases l with
    | nil => exact absurd layout id
    | cons b rest => exact ⟨b, .head _, layout.head.1⟩
  | next walked real ih =>
    obtain ⟨b, hb, rfl⟩ := ih
    rw [nextBlock, h.blockSize hb]
    rw [h.blockSize hb] at real
    obtain ⟨pre, post, rfl⟩ := append_of_mem hb
    obtain ⟨c, rest, rfl, addr, -⟩ := h.layout.cons_of_size real
    exact ⟨c, mem_append_right _ (.tail _ (.head _)), addr⟩

/-- A valid pool serves a request unless all its free blocks are too small. -/
theorem Valid.alloc_none (h : Valid t p l) {request : Nat} (some_size : request ≠ 0) {p' : Pool}
    (failed : Pool.alloc t p request = some (0, p')) {x : Nat} (at_x : FreeBlock p x) :
    Pool.blockSize p.mem x < rounded t request := by
  obtain ⟨⟨lists, heap⟩, -⟩ := h
  obtain ⟨b, hb, rfl⟩ := heap.walked at_x.walked
  have is_free : b.used = false := by
    rw [← heap.blockIsUsed hb]
    exact at_x.is_free
  rw [heap.blockSize hb]
  by_cases refused : 4294967287 < request
  · have := heap.size_lt hb
    unfold rounded
    omega
  · unfold Pool.alloc at failed
    have accepted : ¬ (p.initialized = false ∨ request = 0 ∨ 4294967287 < request) := by
      rw [heap.initialized]
      rintro (no | no | no)
      · cases no
      · exact some_size no
      · exact refused no
    rw [if_neg accepted] at failed
    have needed := neededSize_le_rounded t request
    cases search : findFree t p (neededSize t request) with
    | none =>
      rw [search] at failed
      cases failed
    | some found =>
      rw [search] at failed
      cases found with
      | none => exact lt_of_lt_of_le (heap.findFree_none search hb is_free) needed
      | some block =>
        -- a block that is found is handed out
        have pointer : (takeBlock t p block (neededSize t request)).1 = block + 8 := by
          unfold takeBlock
          simp only
          split <;> rfl
        have zero := congrArg Prod.fst (Option.some.inj failed)
        rw [pointer] at zero
        exact absurd zero (Nat.succ_ne_zero _)

end Walk

/-! ## Pools that serve nothing -/

section Unfit
variable {t : Arch} {m : Mem} {buffer size : Nat}

theorem wide_of_unfit (memory : buffer + size ≤ t.sizes)
    (large : alignUp t buffer - buffer + minimumBlockSize t + 8 < size) (unfit : ¬ PoolFits t buffer size) :
    t = .bits64 := by
  cases t with
  | bits64 => rfl
  | bits32 =>
    have whole : alignDown (size - (alignUp .bits32 buffer - buffer)) - 8 < 4294967296 := by
      unfold alignDown
      simp only [Arch.sizes] at memory
      omega
    have value : minimumBlockSize .bits32 = 16 := by decide
    unfold PoolFits firstBlock at unfit
    rw [Nat.mod_eq_of_lt whole] at unfit
    unfold alignDown at unfit
    omega

theorem blockSize_links {m : Mem} {a x : Nat} (inside : a + 8 ≤ x ∧ x + 4 ≤ a + 24) :
    Pool.blockSize (setNextLink .bits64 (setPrevLink .bits64 m a 0) a 0) x = 0 := by
  have word : sizeFlags (setNextLink .bits64 (setPrevLink .bits64 m a 0) a 0) x = 0 := by
    apply load_zero
    intro z lo hi
    have width : Arch.bits64.pointer = 8 := rfl
    unfold setNextLink
    rw [width]
    by_cases next : z < a + 8 + 8
    · exact store_zero ⟨by omega, next⟩
    · rw [store_of_outside (.inr (by omega))]
      unfold setPrevLink
      rw [width]
      exact store_zero ⟨by omega, by omega⟩
  rw [Pool.blockSize, word]

theorem sizeFlags_links {m : Mem} {a : Nat} :
    sizeFlags (setNextLink .bits64 (setPrevLink .bits64 m a 0) a 0) a = sizeFlags m a := by
  have next : load 4 (setNextLink .bits64 (setPrevLink .bits64 m a 0) a 0) a =
      load 4 (setPrevLink .bits64 m a 0) a := by
    unfold setNextLink
    exact load_store_of_disjoint (.inr (by omega))
  have prev : load 4 (setPrevLink .bits64 m a 0) a = load 4 m a := by
    unfold setPrevLink
    exact load_store_of_disjoint (.inr (by omega))
  exact next.trans prev

theorem unfit_blocks (memory : buffer + size ≤ t.sizes) (accepted : (poolInit t m buffer size).initialized = true)
    (unfit : ¬ PoolFits t buffer size) {x : Nat} (walked : Walked (poolInit t m buffer size) x) :
    Pool.blockSize (poolInit t m buffer size).mem x < minimumBlockSize t := by
  obtain ⟨-, large, made⟩ := poolInit_eq m accepted
  obtain ⟨aligned, small, -⟩ := firstBlock_spec t buffer size
  cases wide_of_unfit memory large unfit
  have value : minimumBlockSize .bits64 = 24 := by decide
  unfold PoolFits at unfit
  rw [value] at unfit ⊢
  obtain ⟨-, -, of_first⟩ := blockSize_firstMem (m := m) (a := alignUp .bits64 buffer) aligned small
  generalize first_size : firstBlock .bits64 buffer size = first at *
  have unlinked : nextLink .bits64 (setNextLink .bits64 (setPrevLink .bits64
      (firstMem m (alignUp .bits64 buffer) first) (alignUp .bits64 buffer) 0) (alignUp .bits64 buffer) 0)
      (alignUp .bits64 buffer) = 0 := nextLink_setNextLink _ _ _ (by decide)
  have mem : (poolInit .bits64 m buffer size).mem = setNextLink .bits64 (setPrevLink .bits64
      (firstMem m (alignUp .bits64 buffer) first) (alignUp .bits64 buffer) 0) (alignUp .bits64 buffer) 0 := by
    rw [made]
    simp only [Pool.insertFree, unlinked, ne_eq, not_true_eq_false, if_false]
  have start : (poolInit .bits64 m buffer size).start = alignUp .bits64 buffer := by
    rw [made]
    rfl
  have at_first : Pool.blockSize (poolInit .bits64 m buffer size).mem (alignUp .bits64 buffer) = first := by
    rw [mem, Pool.blockSize, sizeFlags_links]
    exact of_first
  have places : x = alignUp .bits64 buffer ∨ x = alignUp .bits64 buffer + first ∧ first ≠ 0 := by
    induction walked with
    | first => exact .inl start
    | next walked real ih =>
      rcases ih with rfl | ⟨rfl, some_size⟩
      · rw [at_first] at real
        rw [nextBlock, at_first]
        exact .inr ⟨rfl, real⟩
      · rw [mem, blockSize_links (by omega)] at real
        exact absurd rfl real
  rcases places with rfl | ⟨rfl, some_size⟩
  · rw [at_first]
    omega
  · rw [mem, blockSize_links (by omega)]
    omega

/-- A pool that serves nothing stays as it was made. -/
theorem Reachable.unchanged {kind : Call → Prop} {c : Client} (reach : Reachable t kind m buffer size c)
    (barren : Barren t (poolInit t m buffer size)) : c = ⟨poolInit t m buffer size, []⟩ := by
  induction reach with
  | init => rfl
  | step reach allowed fits run ih =>
    subst ih
    have stays := (Barren.step barren rfl allowed).1
    rw [run] at stays
    cases stays
    rfl

end Unfit

section Runs
variable {t : Arch} {m : Mem} {buffer size : Nat} {c : Client}

/-- **The allocator finds a fit whenever there is one**: after every run of calls whose sizes do not wrap around, a
request is answered with the null pointer only if all free blocks are smaller than the request is rounded up to. The
classes grow with the sizes. -/
theorem alloc_finds_fit (memory : buffer + size ≤ t.sizes) (reach : Reachable t (Call.Fits t) m buffer size c)
    {request : Nat} (some_size : request ≠ 0) : (∃ ptr p, alloc t c.pool request = some (ptr, p) ∧
      (ptr = 0 → ∀ x, FreeBlock c.pool x → blockSize c.pool.mem x < rounded t request)) ∧
    ∀ n n', n ≤ n' → NotBehind (mapping n) (mapping n') := by
  refine ⟨?_, fun n n' le => mapping_mono le⟩
  by_cases fits : (poolInit t m buffer size).initialized = true ∧ PoolFits t buffer size
  · obtain ⟨⟨l₀, valid₀⟩, -, -⟩ := poolInit_valid m memory fits.1 fits.2
    obtain ⟨⟨l, backed⟩, -, -⟩ := reach.backed valid₀
    obtain ⟨⟨ptr, p⟩, run, -⟩ := backed.valid.alloc request
    refine ⟨ptr, p, run, ?_⟩
    rintro rfl x at_x
    exact backed.valid.alloc_none some_size run at_x
  · have barren := poolInit_barren m memory (not_and.mp fits)
    cases reach.unchanged barren
    refine ⟨0, _, barren.alloc request, fun _ x at_x => ?_⟩
    have small := unfit_blocks memory at_x.initialized (not_and.mp fits at_x.initialized) at_x.walked
    exact small.trans_le (Nat.le_max_right _ _)

theorem alloc_finds_fit_first : (∃ ptr p, alloc .bits64 (poolInit .bits64 (fun _ => 0) 8 128) 8 = some (ptr, p) ∧
      (ptr = 0 → ∀ x, FreeBlock (poolInit .bits64 (fun _ => 0) 8 128) x →
        blockSize (poolInit .bits64 (fun _ => 0) 8 128).mem x < rounded .bits64 8)) ∧
    ∀ n n', n ≤ n' → NotBehind (mapping n) (mapping n') :=
  alloc_finds_fit (by decide) .init (by decide)

instance (c : Client) (call : Call) : Decidable (call.Allowed c) :=
  match call with
  | .alloc _ => inferInstanceAs (Decidable True)
  | .free ptr => inferInstanceAs (Decidable (ptr = 0 ∨ ∃ a ∈ c.live, a.ptr = ptr))
  | .realloc ptr _ => inferInstanceAs (Decidable (ptr = 0 ∨ ∃ a ∈ c.live, a.ptr = ptr))
  | .write ptr offset _ => inferInstanceAs (Decidable (∃ a ∈ c.live, a.ptr = ptr ∧ offset < a.size))

/-- Calls one after another, while they are allowed. -/
def Client.runAll (t : Arch) (c : Client) : List Call → Option Client
  | [] => some c
  | call :: rest =>
    if call.Allowed c then
      match c.step t call with
      | none => none
      | some (_, c') => c'.runAll t rest
    else none

theorem Reachable.runAll {kind : Call → Prop} {c c' : Client} {calls : List Call}
    (reach : Reachable t kind m buffer size c) (kinds : ∀ call ∈ calls, kind call)
    (ran : c.runAll t calls = some c') : Reachable t kind m buffer size c' := by
  induction calls generalizing c with
  | nil =>
    cases ran
    exact reach
  | cons call rest ih =>
    unfold Client.runAll at ran
    split at ran
    · next allowed =>
      cases run : c.step t call with
      | none => simp only [run, reduceCtorEq] at ran
      | some result =>
        simp only [run] at ran
        have later : ∀ call ∈ rest, kind call := fun call listed => kinds call (.tail _ listed)
        exact ih (.step reach allowed (kinds call (.head _)) run) later ran
    · cases ran

/-- A payload of 16 bytes is reallocated to a size that wraps around, and is copied over the header of
a used block. -/
def wrappingCalls : List Call := [.alloc 16, .alloc 8, .alloc 24, .write 16 8 32, .free 40, .realloc 16 4294967281]

/-- A request of no bytes is refused, whatever is free; and once a reallocation has wrapped around, a
block may be free that no list holds. -/
theorem alloc_misses : (¬ ∀ (c : Client) (request : Nat), Reachable .bits64 (Call.Fits .bits64) (fun _ => 0) 8 128 c →
      ∀ p, alloc .bits64 c.pool request = some (0, p) →
        ∀ x, FreeBlock c.pool x → blockSize c.pool.mem x < rounded .bits64 request) ∧
    ¬ ∀ (c : Client) (request : Nat), Reachable .bits32 (Call.Representable .bits32) (fun _ => 0) 8 80 c →
      request ≠ 0 → ∀ p, alloc .bits32 c.pool request = some (0, p) →
        ∀ x, FreeBlock c.pool x → blockSize c.pool.mem x < rounded .bits32 request := by
  constructor
  · intro claimed
    have refused : alloc .bits64 (poolInit .bits64 (fun _ => 0) 8 128) 0 =
        some (0, poolInit .bits64 (fun _ => 0) 8 128) := if_pos (.inr (.inl rfl))
    have start : (poolInit .bits64 (fun _ => 0) 8 128).start = 8 := by decide
    have first : FreeBlock (poolInit .bits64 (fun _ => 0) 8 128) 8 := by
      refine ⟨by decide, ?_, by decide +kernel⟩
      have walked := Walked.first (p := poolInit .bits64 (fun _ => 0) 8 128)
      rwa [start] at walked
    have large : ¬ blockSize (poolInit .bits64 (fun _ => 0) 8 128).mem 8 < rounded .bits64 0 := by decide +kernel
    exact large (claimed _ 0 .init _ refused 8 first)
  · intro claimed
    have outcome : (Client.runAll .bits32 ⟨poolInit .bits32 (fun _ => 0) 8 80, []⟩ wrappingCalls).map (fun c =>
        ((alloc .bits32 c.pool 24).map Prod.fst, [c.pool.initialized, blockIsUsed c.pool.mem 48],
          [c.pool.start, blockSize c.pool.mem 8, blockSize c.pool.mem 32, blockSize c.pool.mem 48])) =
        some (some 0, [true, false], [8, 24, 16, 32]) := by decide +kernel
    obtain ⟨c, ran, outcome⟩ := Option.map_eq_some_iff.mp outcome
    simp only [Prod.mk.injEq, List.cons.injEq, and_true] at outcome
    obtain ⟨answer, ⟨initialized, is_free⟩, start, first, second, third⟩ := outcome
    obtain ⟨⟨ptr, p⟩, refused, null⟩ := Option.map_eq_some_iff.mp answer
    change ptr = 0 at null
    subst null
    have kinds : ∀ call ∈ wrappingCalls, call.Representable .bits32 := by
      simp only [wrappingCalls, mem_cons, not_mem_nil, or_false, forall_eq_or_imp, forall_eq,
        Call.Representable, Arch.sizes]
      decide
    have reach := Reachable.init.runAll kinds ran
    have at_8 : Walked c.pool 8 := start ▸ Walked.first
    have at_32 : Walked c.pool 32 := by
      have walked := at_8.next (by omega)
      rwa [nextBlock, first] at walked
    have at_48 : Walked c.pool 48 := by
      have walked := at_32.next (by omega)
      rwa [nextBlock, second] at walked
    have small := claimed c 24 reach (by decide) p refused 48 ⟨initialized, at_48, is_free⟩
    have large : rounded .bits32 24 = 32 := by decide
    omega

end Runs

end PhpPico.Pool
