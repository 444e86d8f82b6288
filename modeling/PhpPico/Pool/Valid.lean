import PhpPico.Pool.Operations
import Mathlib.Data.List.Chain
import Mathlib.Data.List.Perm.Subperm

/-!
# Valid pools

Between operations no two neighbouring blocks are free and every free block is listed. Each operation leads from valid
pools to valid pools.
-/

namespace PhpPico.Pool
open List ByteMemory Chain

/-- Of two neighbours one is used. -/
def Separate (l : List Block) : Prop := l.IsChain fun x y => x.used = true ∨ y.used = true

/-- A pool between operations. -/
structure Valid (t : Arch) (p : Pool) (l : List Block) : Prop where
  heap : ∃ free, Heap t p l [] free
  separate : Separate l

section Separate
variable {pre post : List Block} {a b c d : Block}

theorem separate_append {l l' : List Block} : Separate (l ++ l') ↔ Separate l ∧ Separate l' ∧
      ∀ x ∈ l.getLast?, ∀ y ∈ l'.head?, x.used = true ∨ y.used = true :=
  isChain_append

theorem separate_cons_cons : Separate (a :: b :: post) ↔ (a.used = true ∨ b.used = true) ∧ Separate (b :: post) :=
  isChain_cons_cons

/-- Only the flags matter. -/
theorem Separate.head_congr (h : Separate (c :: post)) (same : d.used = c.used) : Separate (d :: post) := by
  cases post with
  | nil => exact isChain_singleton d
  | cons e rest =>
    rw [separate_cons_cons] at h ⊢
    rw [same]
    exact h

theorem separate_around : Separate (pre ++ [b] ++ c :: post) ↔
    Separate pre ∧ Separate (c :: post) ∧ (∀ x ∈ pre.getLast?, x.used = true ∨ b.used = true) ∧
      (b.used = true ∨ c.used = true) := by
  rw [append_assoc, separate_append, singleton_append, separate_cons_cons]
  simp only [head?_cons, Option.mem_def, Option.some.injEq, forall_eq']
  tauto

theorem Separate.taken {mid : List Block} {needed last : Nat} (h : Separate (pre ++ [b] ++ c :: post))
    (free_b : b.used = false) (taken : Taken b needed mid) :
    Separate (pre ++ mid ++ { c with prev := last } :: post) := by
  obtain ⟨front, behind, -, next⟩ := separate_around.mp h
  have used_c : c.used = true := next.resolve_left (by rw [free_b]; exact Bool.false_ne_true)
  have behind' : Separate ({ c with prev := last } :: post) := behind.head_congr rfl
  cases taken with
  | whole fits => exact separate_around.mpr ⟨front, behind', fun _ _ => .inr rfl, .inl rfl⟩
  | split rest free_rest =>
    have shape : pre ++ [⟨b.addr, needed, b.prev, true⟩, rest] ++ { c with prev := last } :: post =
        pre ++ [⟨b.addr, needed, b.prev, true⟩] ++ rest :: { c with prev := last } :: post := by simp
    rw [shape]
    refine separate_around.mpr ⟨front, ?_, fun _ _ => .inr rfl, .inl rfl⟩
    exact separate_cons_cons.mpr ⟨.inr used_c, behind'⟩

end Separate

section Valid
variable {t : Arch} {p : Pool} {l : List Block} {hidden : List Nat} {lists : Nat × Nat → List Nat}
  {b : Block}

/-! ## Finding a block -/

/-- A list of free blocks is shorter than the pool. -/
theorem Heap.length_lists (h : Heap t p l hidden lists) (k : Nat × Nat) :
    (lists k).length < p.finish - p.start + 1 := by
  have sub : (lists k).map (fun x => x - p.start) ⊆ List.range (p.finish - p.start) := by
    intro y hy
    obtain ⟨x, hx, rfl⟩ := List.mem_map.mp hy
    obtain ⟨-, f, hf, e, -⟩ := h.listed_block hx
    have within := h.layout.within.2 f hf
    have := h.finish_gt
    exact mem_range.mpr (by omega)
  have nodup : ((lists k).map fun x => x - p.start).Nodup := by
    refine Nodup.map_on (fun x hx y hy e => ?_) (h.distinct k)
    obtain ⟨-, f, hf, ef, -⟩ := h.listed_block hx
    obtain ⟨-, g, hg, eg, -⟩ := h.listed_block hy
    have := (h.layout.within.2 f hf).1
    have := (h.layout.within.2 g hg).1
    omega
  have := (subperm_of_subset nodup sub).length_le
  rw [length_map, length_range] at this
  omega

/-- **The search ends**, and what it finds is a listed block that is large enough. -/
theorem Heap.findIn (h : Heap t p l hidden lists) (needed : Nat) (classes : List (Nat × Nat)) :
    ∃ found, findIn t p needed classes = some found ∧ ∀ x, found = some x →
      ∃ b ∈ l, b.addr = x ∧ b.used = false ∧ needed ≤ b.size := by
  induction classes with
  | nil => exact ⟨none, rfl, fun x e => by cases e⟩
  | cons k rest ih =>
    obtain ⟨last, segment⟩ := h.linked k
    have walk := segment.linked.seek_eq (p := fun b => decide (needed ≤ Pool.blockSize p.mem b))
      (h.length_lists k) .head
    rw [Pool.findIn, walk]
    cases at_k : locate (fun b => decide (needed ≤ Pool.blockSize p.mem b)) .head (lists k) with
    | none => exact ih
    | some found =>
      obtain ⟨x, link⟩ := found
      refine ⟨some x, rfl, fun y e => ?_⟩
      cases e
      obtain ⟨listed, large⟩ := locate_mem at_k
      obtain ⟨-, f, hf, e, free_f, -⟩ := h.listed_block listed
      have size := h.blockSize hf
      rw [e] at size
      exact ⟨f, hf, e, free_f, by rw [← size]; exact of_decide_eq_true large⟩

theorem neededSize_spec (t : Arch) (size : Nat) : 8 ∣ neededSize t size ∧ minimumBlockSize t ≤ neededSize t size := by
  have aligned : 8 ∣ alignUp t (size + 8) := Nat.dvd_sub_mod _
  obtain ⟨-, min, -⟩ := minimum_pos t
  unfold neededSize
  simp only
  split
  · exact ⟨min, le_rfl⟩
  · next le => exact ⟨aligned, not_lt.mp le⟩

/-- The size of a request does not wrap around when it is rounded up to a block, or it is refused
at once. -/
def RequestFits (t : Arch) (size : Nat) : Prop := size + 15 < t.sizes ∨ 4294967287 < size

theorem le_neededSize {size : Nat} (fits : RequestFits t size) (small : ¬ 4294967287 < size) :
    size + 8 ≤ neededSize t size := by
  have fits' := fits.resolve_right small
  have up : size + 8 ≤ alignUp t (size + 8) := by
    unfold alignUp
    rw [Nat.mod_eq_of_lt fits']
    omega
  unfold neededSize
  simp only
  split <;> omega

/-! ## Allocation -/

/-- **`pphp_alloc` returns**: it fails and changes nothing, or hands out the payload of a block that was free and
large enough, and the pool stays valid. -/
theorem Valid.alloc (h : Valid t p l) (size : Nat) : ∃ r, alloc t p size = some r ∧ (r = (0, p) ∨
      ¬ 4294967287 < size ∧ ∃ l', ∃ b ∈ l', b.used = true ∧ r.1 = b.addr + 8 ∧ neededSize t size ≤ b.size ∧
        Valid t r.2 l' ∧ Kept p r.2 l l' b.addr ∧ ∀ u ∈ l, u.used = true → u.addr ≠ b.addr) := by
  obtain ⟨⟨free, heap⟩, separate⟩ := h
  unfold Pool.alloc
  by_cases refused : p.initialized = false ∨ size = 0 ∨ 4294967287 < size
  · exact ⟨(0, p), if_pos refused, .inl rfl⟩
  · rw [if_neg refused]
    obtain ⟨found, search, is_free⟩ := heap.findIn (neededSize t size)
      (classesFrom (mapping (neededSize t size)))
    rw [findFree, search]
    cases found with
    | none => exact ⟨(0, p), rfl, .inl rfl⟩
    | some x =>
      obtain ⟨b, hb, rfl, free_b, fits⟩ := is_free x rfl
      obtain ⟨aligned, min⟩ := neededSize_spec t size
      obtain ⟨pre, rest, rfl⟩ := append_of_mem hb
      have pos := (minimum_pos t).1
      obtain ⟨c, post, rfl, -, -⟩ := heap.layout.cons_of_size (by omega)
      have shape : pre ++ b :: c :: post = pre ++ [b] ++ c :: post := by simp
      rw [shape] at heap separate ⊢
      obtain ⟨mid, last, free', taken, heap', ptr, kept⟩ := heap.takeBlock free_b aligned min fits
      refine ⟨_, rfl, .inr ⟨fun c => refused (.inr (.inr c)),
        pre ++ mid ++ { c with prev := last } :: post, ?_⟩⟩
      have taken_block : ∃ d ∈ mid, d.addr = b.addr ∧ d.used = true ∧ neededSize t size ≤ d.size := by
        cases taken with
        | whole fits => exact ⟨_, .head _, rfl, rfl, fits⟩
        | split rest _ => exact ⟨_, .head _, rfl, rfl, le_rfl⟩
      obtain ⟨d, hd, addr, used, large⟩ := taken_block
      refine ⟨d, mem_append_left _ (mem_append_right _ hd), used, by rw [addr]; exact ptr, large,
        ⟨⟨free', heap'⟩, separate.taken free_b taken⟩, by rw [addr]; exact kept, fun u hu used_u e => ?_⟩
      have hb' : b ∈ pre ++ [b] ++ c :: post := mem_append_left _ (mem_append_right _ (.head _))
      have same := heap.layout.eq_of_addr hu hb' (e.trans addr)
      rw [same, free_b] at used_u
      cases used_u

/-! ## Release -/

/-- **`pphp_free` of a used block** keeps the pool valid and all other used blocks as they are. -/
theorem Valid.free (h : Valid t p l) (hb : b ∈ l) (used : b.used = true) (real : b.size ≠ 0) :
    ∃ l', Valid t (free t p (b.addr + 8)) l' ∧ Kept p (Pool.free t p (b.addr + 8)) l l' b.addr := by
  obtain ⟨⟨free, heap⟩, separate⟩ := h
  have within := heap.layout.within.2 b hb
  have min : minimumBlockSize t ≤ b.size := (within.2.2.resolve_left fun c => real c.1).1
  have b_aligned := (heap.aligned hb).2
  have small := heap.size_lt hb
  have size := heap.blockSize hb
  have flag := heap.blockIsUsed hb
  obtain ⟨pre, rest, rfl⟩ := append_of_mem hb
  obtain ⟨c, post, rfl, at_c, c_prev⟩ := heap.layout.cons_of_size real
  have shape : pre ++ b :: c :: post = pre ++ [b] ++ c :: post := by simp
  rw [shape] at heap separate hb ⊢
  have was := tiles_singleton (t := t) (b := b) b_aligned min
  obtain ⟨front, behind, before, -⟩ := separate_around.mp separate
  -- the block is marked free and not listed yet
  obtain ⟨heap₁, same₁⟩ := heap.markBlock [b.addr] false min (.inl used) (.inr (.head _))
    (fun d hd => by
      have away := heap.around (cons_ne_nil _ _) was hd
      rw [mem_singleton]
      exact ⟨fun c => (by omega), fun c => (by cases c)⟩)
    (blockSet_stores _ b.addr b.size false)
    (fun y hy => .inl (mem_singleton.mp hy))
    (sizeFlags_blockSet _ _ _ b_aligned small)
    (by rw [prevSize_blockSet _ _ _ _ _ (.inr (le_refl _))]; exact (heap.headers b hb).2)
    ⟨sizeFlags_blockSet_of_apart _ _ _ _ _ (by omega), by
      have hc : c ∈ pre ++ [b] ++ c :: post := mem_append_right _ (.head _)
      rw [prevSize_blockSet _ _ _ _ _ (by omega), (heap.headers c hc).2, c_prev]⟩
  have kept₁ : Kept p { p with mem := blockSet p.mem b.addr b.size false } (pre ++ [b] ++ c :: post)
      (pre ++ [{ b with used := false }] ++ { c with prev := b.size } :: post) b.addr :=
    Kept.of_retile same₁ fun d hd _ => by rw [mem_singleton.mp hd]
  have same_c : { c with prev := b.size } = c := by rw [← c_prev]
  rw [same_c] at kept₁
  generalize hp₁ : ({ p with mem := blockSet p.mem b.addr b.size false } : Pool) = p₁ at heap₁ kept₁
  generalize hb₁ : ({ b with used := false } : Block) = b₁ at heap₁ kept₁
  have addr₁ : b₁.addr = b.addr := by rw [← hb₁]
  have free₁ : b₁.used = false := by rw [← hb₁]
  rw [← addr₁] at heap₁
  -- the block behind is merged if it is free
  obtain ⟨b₂, c₂, post₂, lists₂, heap₂, addr₂, free₂, used₂, behind₂, kept₂⟩ :
      ∃ (b₂ c₂ : Block) (post₂ : List Block) (lists₂ : Nat × Nat → List Nat),
        Heap t (Pool.mergeFollowing t p₁ b₁.addr) (pre ++ [b₂] ++ c₂ :: post₂) [b₂.addr] lists₂ ∧
        b₂.addr = b₁.addr ∧ b₂.used = false ∧ c₂.used = true ∧ Separate (c₂ :: post₂) ∧
        Kept p₁ (Pool.mergeFollowing t p₁ b₁.addr) (pre ++ [b₁] ++ c :: post)
          (pre ++ [b₂] ++ c₂ :: post₂) b₁.addr := by
    rcases heap₁.mergeFollowing free₁ with ⟨used_c, same⟩ | ⟨free_c, d, rest, lists₂, rfl, heap₂, kept₂⟩
    · rw [same]
      exact ⟨b₁, c, post, free, heap₁, rfl, free₁, used_c, behind, Kept.refl _ _ _⟩
    · obtain ⟨next, behind'⟩ := separate_cons_cons.mp behind
      have used_d : d.used = true := next.resolve_left (by rw [free_c]; exact Bool.false_ne_true)
      exact ⟨_, _, rest, lists₂, heap₂, rfl, free₁, used_d, behind'.head_congr rfl, kept₂⟩
  rw [addr₁] at heap₂ addr₂ kept₂
  -- and so is the block in front
  generalize hp₂ : Pool.mergeFollowing t p₁ b.addr = p₂ at heap₂ kept₂
  obtain ⟨pre₃, b₃, c₃, lists₃, heap₃, addr₃, free₃, used₃, behind₃, front₃, before₃, kept₃⟩ :
      ∃ (pre₃ : List Block) (b₃ c₃ : Block) (lists₃ : Nat × Nat → List Nat),
        Heap t (Pool.mergePrevious t p₂ b₂.addr).1 (pre₃ ++ [b₃] ++ c₃ :: post₂) [b₃.addr] lists₃ ∧
        (Pool.mergePrevious t p₂ b₂.addr).2 = b₃.addr ∧ b₃.used = false ∧ c₃.used = true ∧
        Separate (c₃ :: post₂) ∧ Separate pre₃ ∧ (∀ x : Block, x ∈ pre₃.getLast? → x.used = true) ∧
        Kept p₂ (Pool.mergePrevious t p₂ b₂.addr).1 (pre ++ [b₂] ++ c₂ :: post₂)
          (pre₃ ++ [b₃] ++ c₃ :: post₂) b₂.addr := by
    rcases heap₂.mergePrevious free₂ with ⟨used_a, same⟩ |
      ⟨front', a, lists₃, rfl, free_a, result, heap₃, kept₃⟩
    · rw [same]
      exact ⟨pre, b₂, c₂, lists₂, heap₂, rfl, free₂, used₂, behind₂, front, used_a, Kept.refl _ _ _⟩
    · obtain ⟨front'', -, last⟩ := separate_append.mp front
      refine ⟨front', _, _, lists₃, heap₃, result, free_a, used₂, behind₂.head_congr rfl, front'', ?_, kept₃⟩
      intro x hx
      exact (last x hx a rfl).resolve_right (by rw [free_a]; exact Bool.false_ne_true)
  rw [addr₂] at heap₃ addr₃ kept₃
  have hb₃ : b₃ ∈ pre₃ ++ [b₃] ++ c₃ :: post₂ := mem_append_left _ (mem_append_right _ (.head _))
  obtain ⟨⟨lists₄, heap₄⟩, extent⟩ := heap₃.insertFree hb₃ free₃ not_mem_nil
  have unfolded : Pool.free t p (b.addr + 8) =
      Pool.insertFree t (Pool.mergePrevious t p₂ b.addr).1 b₃.addr := by
    have null : ¬ (b.addr + 8 = 0 ∨ p.initialized = false) := by
      rw [heap.initialized]
      simp
    have inside : ¬ (b.addr < p.start ∨ p.finish ≤ b.addr ∨ Pool.blockIsUsed p.mem b.addr = false) := by
      rw [flag, used]
      simp only [Bool.true_eq_false, or_false]
      omega
    rw [← addr₃, ← hp₂, ← hp₁]
    simp only [Pool.free, if_neg null, Nat.add_sub_cancel, if_neg inside, size]
  rw [unfolded]
  refine ⟨_, ⟨⟨lists₄, heap₄⟩, ?_⟩, ?_⟩
  · exact separate_around.mpr ⟨front₃, behind₃, fun x hx => .inl (before₃ x hx), .inr used₃⟩
  · exact kept₁.trans (kept₂.trans (kept₃.trans (extent.kept b.addr)))

/-! ## Payloads -/

/-- Whatever happens inside the payload of a used block, the pool stays valid and the other
payloads stay as they are. -/
theorem Valid.payload (h : Valid t p l) (hb : b ∈ l) (used : b.used = true) {m : Mem}
    (inside : ∀ z, z < b.addr + 8 ∨ b.addr + b.size ≤ z → m z = p.mem z) :
    Valid t { p with mem := m } l ∧ ∀ u ∈ l, u.addr ≠ b.addr → Untouched p.mem m u := by
  obtain ⟨⟨lists, heap⟩, separate⟩ := h
  have room := (minimum_pos t).2.2.1
  have apart : ∀ u ∈ l, u.addr ≠ b.addr → ∀ z, u.addr ≤ z → (z < u.addr + u.size ∨ z < u.addr + 8) →
      m z = p.mem z := by
    intro u hu ne z lo hi
    apply inside
    rcases heap.layout.apart hu hb ne with ⟨le, -⟩ | ⟨le, -⟩ <;> omega
  have headers : ∀ u ∈ l, sizeFlags m u.addr = u.word ∧ prevSize m u.addr = u.prev := by
    intro u hu
    have same : ∀ z, u.addr ≤ z → z < u.addr + 8 → m z = p.mem z := by
      intro z lo hi
      by_cases own : u.addr = b.addr
      · exact inside z (by omega)
      · exact apart u hu own z lo (.inr hi)
    have first : sizeFlags m u.addr = sizeFlags p.mem u.addr := load_congr fun z lo hi => same z lo (by omega)
    have second : prevSize m u.addr = prevSize p.mem u.addr := load_congr fun z lo hi => same z (by omega) (by omega)
    exact ⟨first.trans (heap.headers u hu).1, second.trans (heap.headers u hu).2⟩
  have links : ∀ k y, y ∈ lists k →
      nextLink t m y = nextLink t p.mem y ∧ prevLink t m y = prevLink t p.mem y := by
    intro k y hy
    obtain ⟨-, f, hf, rfl, free_f, -⟩ := heap.listed_block hy
    have real := heap.real_of_free hf free_f
    have ne : f.addr ≠ b.addr := by
      intro e
      rw [heap.layout.eq_of_addr hf hb e, used] at free_f
      cases free_f
    have same : ∀ z, f.addr + 8 ≤ z → z < f.addr + minimumBlockSize t → m z = p.mem z :=
      fun z lo hi => apart f hf ne z (by omega) (.inl (by omega))
    exact ⟨load_congr fun z lo hi => same z lo (by omega), load_congr fun z lo hi => same z (by omega) (by omega)⟩
  refine ⟨⟨⟨lists, ?_⟩, separate⟩, fun u hu ne z lo hi => apart u hu ne z (by omega) (.inl hi)⟩
  exact
    { initialized := heap.initialized
      start_pos := heap.start_pos
      start_aligned := heap.start_aligned
      layout := heap.layout
      finish_gt := heap.finish_gt
      room := heap.room
      addresses := heap.addresses
      headers := headers
      linked := fun k => by
        obtain ⟨last, segment⟩ := heap.linked k
        exact ⟨last, segment.congr fun y hy => links k y hy⟩
      distinct := heap.distinct
      listed := heap.listed }

/-- **`pphp_realloc` of a used block** answers with the same block, fails and changes nothing, or answers with a
larger block of the old contents and releases the old one. -/
theorem Valid.realloc (h : Valid t p l) (hb : b ∈ l) (used : b.used = true) (real : b.size ≠ 0)
    {size : Nat} (some_size : size ≠ 0) (fits : RequestFits t size) : ∃ r, realloc t p (b.addr + 8) size = some r ∧
      (r = (b.addr + 8, p) ∧ size + 8 ≤ b.size ∨ r = (0, p) ∨
        ∃ l', ∃ d ∈ l', d.used = true ∧ r.1 = d.addr + 8 ∧ size + 8 ≤ d.size ∧ Valid t r.2 l' ∧
          Kept p r.2 l l' b.addr ∧ (∀ u ∈ l, u.used = true → u.addr ≠ d.addr) ∧
          ∀ i, i + 8 < b.size → r.2.mem (d.addr + 8 + i) = p.mem (b.addr + 8 + i)) := by
  obtain ⟨lists, heap⟩ := h.heap
  have not_null : b.addr + 8 ≠ 0 := by omega
  have old_size : Pool.blockSize p.mem (b.addr + 8 - 8) - 8 = b.size - 8 := by
    rw [Nat.add_sub_cancel, heap.blockSize hb]
  simp only [Pool.realloc, if_neg not_null, if_neg some_size, old_size]
  by_cases enough : size ≤ b.size - 8
  · rw [if_pos enough]
    exact ⟨_, rfl, .inl ⟨rfl, by omega⟩⟩
  · rw [if_neg enough]
    obtain ⟨r, run, outcome⟩ := h.alloc size
    rw [run]
    rcases outcome with rfl | ⟨small, l₁, d, hd, used_d, ptr, large, valid₁, kept₁, fresh⟩
    · exact ⟨(0, p), rfl, .inr (.inl rfl)⟩
    · obtain ⟨ptr', p₁⟩ := r
      simp only at ptr valid₁ kept₁
      subst ptr
      have request := le_neededSize fits small
      have differs : b.addr ≠ d.addr := fresh b hb used
      obtain ⟨same₁, b₁, hb₁, addr₁, size₁, used₁⟩ := kept₁.blocks b hb used differs
      -- the contents are copied into the payload of the new block
      obtain ⟨valid₂, same₂⟩ := valid₁.payload hd used_d (m := copy p₁.mem (d.addr + 8) (b.addr + 8) (b.size - 8))
        fun z away => copy_of_outside (by omega)
      obtain ⟨l₃, valid₃, kept₃⟩ := valid₂.free hb₁ used₁ (by rw [size₁]; exact real)
      rw [addr₁] at valid₃ kept₃
      have not_null' : d.addr + 8 ≠ 0 := by omega
      simp only [if_neg not_null']
      obtain ⟨same₃, d₃, hd₃, addr₃, size₃, used₃⟩ := kept₃.blocks d hd used_d fun e => differs e.symm
      refine ⟨_, rfl, .inr (.inr ⟨l₃, d₃, hd₃, used₃, by rw [addr₃], by omega, valid₃, ?_, ?_, ?_⟩)⟩
      · refine ⟨kept₃.start.trans kept₁.start, kept₃.finish.trans kept₁.finish, fun u hu used_u ne => ?_⟩
        obtain ⟨untouched, u₁, hu₁, ua, us, uu⟩ := kept₁.blocks u hu used_u (fresh u hu used_u)
        have from_copy := same₂ u₁ hu₁ (by rw [ua]; exact fresh u hu used_u)
        obtain ⟨untouched', u₃, hu₃, ua', us', uu'⟩ := kept₃.blocks u₁ hu₁ uu (by rw [ua]; exact ne)
        refine ⟨fun z lo hi => ?_, u₃, hu₃, ua'.trans ua, us'.trans us, uu'⟩
        rw [untouched' z (by omega) (by omega), ← untouched z lo hi]
        exact from_copy z (by omega) (by omega)
      · intro u hu used_u
        rw [addr₃]
        exact fresh u hu used_u
      · intro i hi
        rw [addr₃, same₃ _ (by omega) (by omega)]
        simp only
        rw [copy_inside (by omega)]
        exact same₁ _ (by omega) (by omega)

/-! ## Initialization -/

/-- The bytes the first block gets, and whether the header can hold their number. -/
def firstBlock (t : Arch) (buffer size : Nat) : Nat :=
  (alignDown (size - (alignUp t buffer - buffer)) - 8) % 4294967296

/-- The pool's first block is not cut below the smallest block when its size is stored in 32 bits. -/
def PoolFits (t : Arch) (buffer size : Nat) : Prop := minimumBlockSize t ≤ firstBlock t buffer size

theorem sizes_eq (t : Arch) : t.sizes = 256 ^ t.pointer := by cases t <;> norm_num [Arch.sizes, Arch.pointer]

theorem firstBlock_spec (t : Arch) (buffer size : Nat) :
    8 ∣ firstBlock t buffer size ∧ firstBlock t buffer size < 4294967296 ∧
      firstBlock t buffer size ≤ size - (alignUp t buffer - buffer) - 8 := by
  have aligned : 8 ∣ alignDown (size - (alignUp t buffer - buffer)) := Nat.dvd_sub_mod _
  unfold firstBlock
  refine ⟨(Nat.dvd_mod_iff (by decide)).mpr (Nat.dvd_sub aligned (Nat.dvd_refl 8)), Nat.mod_lt _ (by decide), ?_⟩
  calc (alignDown (size - (alignUp t buffer - buffer)) - 8) % 4294967296
      ≤ alignDown (size - (alignUp t buffer - buffer)) - 8 := Nat.mod_le _ _
    _ ≤ size - (alignUp t buffer - buffer) - 8 := Nat.sub_le_sub_right (Nat.sub_le _ _) 8

/-- The memory with a first block at `a` and a sentinel behind it. -/
def firstMem (m : Mem) (a first : Nat) : Mem :=
  setPrevSize (blockSet (setPrevSize (blockSet m a first false) a 0) (a + first) 0 true) (a + first) first

theorem blockSize_firstMem {m : Mem} {a first : Nat} (aligned : 8 ∣ first) (small : first < 4294967296) :
    Pool.blockSize (setPrevSize (blockSet m a first false) a 0) a = first ∧
      Pool.blockSize (blockSet (setPrevSize (blockSet m a first false) a 0) (a + first) 0 true) a = first ∧
      Pool.blockSize (firstMem m a first) a = first := by
  have word : sizeFlags (setPrevSize (blockSet m a first false) a 0) a = first + 0 := by
    rw [sizeFlags_setPrevSize _ _ _ _ (.inl (le_refl _))]
    exact sizeFlags_blockSet _ _ false aligned small
  have sentinel :
      Pool.blockSize (blockSet (setPrevSize (blockSet m a first false) a 0) (a + first) 0 true) a = first := by
    by_cases none : first = 0
    · subst none
      exact blockSize_of_word (b := ⟨a, 0, 0, true⟩) (sizeFlags_blockSet _ _ true aligned small) aligned
    · refine blockSize_of_word (b := ⟨a, first, 0, false⟩) ?_ aligned
      rw [sizeFlags_blockSet_of_apart _ _ _ _ _ (by omega)]
      exact word
  refine ⟨blockSize_of_word (b := ⟨a, first, 0, false⟩) word aligned, sentinel, ?_⟩
  rw [Pool.blockSize, firstMem, sizeFlags_setPrevSize _ _ _ _ (.inl (Nat.le_add_right _ _))]
  exact sentinel

theorem poolInit_eq (m : Mem) {buffer size : Nat}
    (accepted : (poolInit t m buffer size).initialized = true) :
    buffer ≠ 0 ∧ alignUp t buffer - buffer + minimumBlockSize t + 8 < size ∧
      poolInit t m buffer size = Pool.insertFree t
        { mem := firstMem m (alignUp t buffer) (firstBlock t buffer size)
          start := alignUp t buffer
          finish := alignUp t buffer + firstBlock t buffer size + 8
          total := (firstBlock t buffer size + t.sizes - 8) % t.sizes
          bins := fun _ _ => 0
          initialized := true } (alignUp t buffer) := by
  obtain ⟨aligned, small, -⟩ := firstBlock_spec t buffer size
  have cut : blockSet m (alignUp t buffer) (alignDown (size - (alignUp t buffer - buffer)) - 8) false =
      blockSet m (alignUp t buffer) (firstBlock t buffer size) false := by
    unfold blockSet firstBlock
    rw [Nat.mod_mod]
  unfold poolInit at accepted ⊢
  simp only at accepted ⊢
  by_cases refused : buffer = 0 ∨ size ≤ alignUp t buffer - buffer + minimumBlockSize t + 8
  · rw [if_pos refused] at accepted
    cases accepted
  · rw [if_neg refused, cut]
    obtain ⟨not_null, large⟩ := not_or.mp refused
    obtain ⟨first, sentinel, last⟩ := blockSize_firstMem (m := m) (a := alignUp t buffer) aligned small
    refine ⟨not_null, not_le.mp large, ?_⟩
    simp only [nextBlock, first, sentinel]
    rw [show setPrevSize _ _ _ = firstMem m (alignUp t buffer) (firstBlock t buffer size) from rfl, last]

/-- **`pphp_pool_init`** makes a valid pool of one free block, in a buffer that lies in the address
space. -/
theorem poolInit_valid (m : Mem) {buffer size : Nat} (memory : buffer + size ≤ t.sizes)
    (accepted : (poolInit t m buffer size).initialized = true) (fits : PoolFits t buffer size) :
    (∃ l, Valid t (poolInit t m buffer size) l) ∧ buffer ≤ (poolInit t m buffer size).start ∧
      (poolInit t m buffer size).finish ≤ buffer + size := by
  have pos := (minimum_pos t).1
  obtain ⟨not_null, large, made⟩ := poolInit_eq m accepted
  obtain ⟨aligned_f, first_lt, first_le⟩ := firstBlock_spec t buffer size
  unfold PoolFits at fits
  rw [made]
  have up : alignUp t buffer = buffer + 7 - (buffer + 7) % 8 := by
    unfold alignUp
    rw [Nat.mod_eq_of_lt (by omega)]
  generalize alignUp t buffer = a at *
  generalize firstBlock t buffer size = first at *
  have aligned_a : 8 ∣ a := by rw [up]; exact Nat.dvd_sub_mod _
  have word : sizeFlags (setPrevSize (blockSet m a first false) a 0) a = first + 0 := by
    rw [sizeFlags_setPrevSize _ _ _ _ (.inl (le_refl _))]
    exact sizeFlags_blockSet _ _ false aligned_f first_lt
  have heap : Heap t ⟨firstMem m a first, a, a + first + 8, (first + t.sizes - 8) % t.sizes, fun _ _ => 0,
      true⟩ [⟨a, first, 0, false⟩, ⟨a + first, 0, first, true⟩] [a] (fun _ => []) :=
    { initialized := rfl
      start_pos := by simp only; omega
      start_aligned := aligned_a
      layout := ⟨rfl, rfl, aligned_f, fits, rfl, rfl, rfl, rfl, Nat.add_sub_cancel _ _⟩
      finish_gt := by simp only; omega
      room := by simp only; omega
      addresses := by rw [← sizes_eq]; simp only; omega
      headers := by
        intro d hd
        rcases mem_cons.mp hd with rfl | hd
        · constructor
          · simp only
            rw [firstMem, sizeFlags_setPrevSize _ _ _ _ (by omega), sizeFlags_blockSet_of_apart _ _ _ _ _ (by omega)]
            exact word
          · simp only
            rw [firstMem, prevSize_setPrevSize_of_apart _ _ _ _ (by omega), prevSize_blockSet _ _ _ _ _ (by omega)]
            exact prevSize_setPrevSize _ _ (by decide)
        · rw [mem_singleton.mp hd]
          constructor
          · simp only
            rw [firstMem, sizeFlags_setPrevSize _ _ _ _ (.inl (le_refl _))]
            exact sizeFlags_blockSet _ _ true (Nat.dvd_zero 8) (by decide)
          · exact prevSize_setPrevSize _ _ first_lt
      linked := fun _ => ⟨0, rfl, rfl⟩
      distinct := fun _ => nodup_nil
      listed := by
        intro k x
        refine ⟨fun hx => (by cases hx), ?_⟩
        rintro ⟨shown, d, hd, rfl, free_d, -⟩
        rcases mem_cons.mp hd with rfl | hd
        · exact absurd (.head _) shown
        · rw [mem_singleton.mp hd] at free_d
          cases free_d }
  have in_l : (⟨a, first, 0, false⟩ : Block) ∈ [(⟨a, first, 0, false⟩ : Block), ⟨a + first, 0, first, true⟩] := .head _
  obtain ⟨⟨lists, heap'⟩, -⟩ := heap.insertFree in_l rfl not_mem_nil
  refine ⟨⟨_, ⟨lists, heap'⟩, separate_cons_cons.mpr ⟨.inr rfl, isChain_singleton _⟩⟩, ?_, ?_⟩
  · change buffer ≤ a
    omega
  · change a + first + 8 ≤ buffer + size
    omega

end Valid

end PhpPico.Pool
