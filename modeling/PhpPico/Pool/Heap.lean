import PhpPico.Pool.Blocks

/-!
# The heap invariant

What holds of a pool between operations, and inside them while some free blocks are not listed: the blocks lie behind
one another, their headers say so, and each class has a list of exactly its free blocks.
-/

namespace PhpPico.Pool
open List ByteMemory Chain

/-- The invariant of a pool with the blocks `l`, the sentinel the last of them. The free blocks at
the addresses `hidden` are in no list. -/
structure Heap (t : Arch) (p : Pool) (l : List Block) (hidden : List Nat)
    (free : Nat × Nat → List Nat) : Prop where
  initialized : p.initialized = true
  start_pos : 0 < p.start
  start_aligned : 8 ∣ p.start
  layout : Layout t p.start 0 l (p.finish - 8)
  finish_gt : p.start + 8 ≤ p.finish
  room : p.finish - 8 - p.start < 4294967296
  addresses : p.finish ≤ 256 ^ t.pointer
  headers : ∀ b ∈ l, sizeFlags p.mem b.addr = b.word ∧ prevSize p.mem b.addr = b.prev
  linked : ∀ c, ∃ last, Segment (nextLink t p.mem) (prevLink t p.mem) 0 0 (p.bins c.1 c.2) (free c) last 0
  distinct : ∀ c, (free c).Nodup
  listed : ∀ c x, x ∈ free c ↔ x ∉ hidden ∧ ∃ b ∈ l, b.addr = x ∧ b.used = false ∧ mapping b.size = c

/-- The bytes of a block's payload are the same in both memories. -/
def Untouched (m m' : Mem) (b : Block) : Prop :=
  ∀ z, b.addr + 8 ≤ z → z < b.addr + b.size → m' z = m z

section Heap
variable {t : Arch} {p : Pool} {l : List Block} {hidden : List Nat} {free : Nat × Nat → List Nat}
  {b c : Block}

theorem Heap.aligned (h : Heap t p l hidden free) (hb : b ∈ l) : 8 ∣ b.addr ∧ 8 ∣ b.size := by
  refine ⟨h.layout.aligned h.start_aligned b hb, ?_⟩
  rcases (h.layout.within.2 b hb).2.2 with ⟨e, -⟩ | ⟨-, d⟩
  · rw [e]; exact Nat.dvd_zero 8
  · exact d

theorem Heap.addr_pos (h : Heap t p l hidden free) (hb : b ∈ l) : 0 < b.addr :=
  h.start_pos.trans_le (h.layout.within.2 b hb).1

theorem Heap.addr_lt (h : Heap t p l hidden free) (hb : b ∈ l) : b.addr < 256 ^ t.pointer := by
  have := (h.layout.within.2 b hb).2.1
  have := h.addresses
  have := h.finish_gt
  omega

theorem Heap.size_lt (h : Heap t p l hidden free) (hb : b ∈ l) : b.size < 4294967296 := by
  have := h.layout.within.2 b hb
  have := h.room
  omega

theorem Heap.blockSize (h : Heap t p l hidden free) (hb : b ∈ l) : Pool.blockSize p.mem b.addr = b.size :=
  blockSize_of_word (h.headers b hb).1 (h.aligned hb).2

theorem Heap.blockIsUsed (h : Heap t p l hidden free) (hb : b ∈ l) : Pool.blockIsUsed p.mem b.addr = b.used :=
  blockIsUsed_of_word (h.headers b hb).1 (h.aligned hb).2

theorem Heap.real_of_free (h : Heap t p l hidden free) (hb : b ∈ l) (is_free : b.used = false) :
    minimumBlockSize t ≤ b.size := by
  rcases (h.layout.within.2 b hb).2.2 with ⟨-, u, -⟩ | ⟨le, -⟩
  · rw [u] at is_free; cases is_free
  · exact le

/-- The links of two different free blocks do not overlap. -/
theorem Heap.free_apart (h : Heap t p l hidden free) (hb : b ∈ l) (hc : c ∈ l)
    (free_b : b.used = false) (free_c : c.used = false) (ne : b.addr ≠ c.addr) : Apart t b.addr c.addr := by
  have mb := h.real_of_free hb free_b
  have mc := h.real_of_free hc free_c
  unfold Apart
  rcases h.layout.apart hb hc ne with ⟨le, -⟩ | ⟨le, -⟩ <;> omega

theorem Heap.listed_block (h : Heap t p l hidden free) {k : Nat × Nat} {x : Nat} (hx : x ∈ free k) :
    x ∉ hidden ∧ ∃ b ∈ l, b.addr = x ∧ b.used = false ∧ mapping b.size = k :=
  (h.listed k x).mp hx

theorem Heap.listed_apart (h : Heap t p l hidden free) {k k' : Nat × Nat} {x y : Nat}
    (hx : x ∈ free k) (hy : y ∈ free k') : x = y ∨ Apart t x y := by
  obtain ⟨-, b, hb, rfl, free_b, -⟩ := h.listed_block hx
  obtain ⟨-, c, hc, rfl, free_c, -⟩ := h.listed_block hy
  by_cases same : b.addr = c.addr
  · exact .inl same
  · exact .inr (h.free_apart hb hc free_b free_c same)

theorem Heap.one_list (h : Heap t p l hidden free) {k k' : Nat × Nat} {x : Nat}
    (hx : x ∈ free k) (hx' : x ∈ free k') : k = k' := by
  obtain ⟨-, b, hb, e, -, hk⟩ := h.listed_block hx
  obtain ⟨-, c, hc, e', -, hk'⟩ := h.listed_block hx'
  have : b = c := h.layout.eq_of_addr hb hc (e.trans e'.symm)
  rw [← hk, ← hk', this]

theorem Heap.link_stores (h : Heap t p l hidden free) {m' : Mem} {ys : List Nat}
    (stores : LinkStores t p.mem m' ys) (at_free : ∀ y ∈ ys, ∃ f ∈ l, f.addr = y ∧ f.used = false) :
    (∀ b ∈ l, sizeFlags m' b.addr = b.word ∧ prevSize m' b.addr = b.prev) ∧
      ∀ u ∈ l, u.used = true → Untouched p.mem m' u := by
  constructor
  · intro b hb
    have same := stores.header (x := b.addr) fun y hy => by
      obtain ⟨f, hf, rfl, free_f⟩ := at_free y hy
      have real := h.real_of_free hf free_f
      by_cases e : b.addr = f.addr
      · exact .inl (e.le)
      · rcases h.layout.apart hb hf e with ⟨le, -⟩ | ⟨le, -⟩ <;> omega
    obtain ⟨word, prev⟩ := h.headers b hb
    exact ⟨same.1.trans word, same.2.trans prev⟩
  · intro u hu used z lo hi
    apply stores z
    intro y hy
    obtain ⟨f, hf, rfl, free_f⟩ := at_free y hy
    have real := h.real_of_free hf free_f
    have ne : u.addr ≠ f.addr := by
      intro e
      have := h.layout.eq_of_addr hu hf e
      rw [this, free_f] at used
      cases used
    rcases h.layout.apart hu hf ne with ⟨le, -⟩ | ⟨le, -⟩ <;> omega

/-! ## Unlinking a block -/

/-- `links_of(y)->next = v` unless `y` is null. -/
def linkNext (t : Arch) (m : Mem) (y v : Nat) : Mem := if y ≠ 0 then setNextLink t m y v else m

/-- `links_of(y)->prev = v` unless `y` is null. -/
def linkPrev (t : Arch) (m : Mem) (y v : Nat) : Mem := if y ≠ 0 then setPrevLink t m y v else m

section Conditional
variable {m : Mem} {x y v : Nat}

theorem nextLink_linkNext (fits : v < 256 ^ t.pointer) (apart : y ≠ 0 → x = y ∨ Apart t x y) :
    nextLink t (linkNext t m y v) x = if y ≠ 0 ∧ x = y then v else nextLink t m x := by
  unfold linkNext
  by_cases null : y = 0
  · simp [null]
  · rw [if_pos null]
    rcases apart null with rfl | ap
    · rw [if_pos ⟨null, rfl⟩, nextLink_setNextLink t m x fits]
    · have ne : x ≠ y := by
        have := (minimum_pos t).1
        unfold Apart at ap
        omega
      rw [if_neg fun c => ne c.2, nextLink_setNextLink_of_apart ap]

theorem prevLink_linkNext (apart : y ≠ 0 → x = y ∨ Apart t x y) : prevLink t (linkNext t m y v) x = prevLink t m x := by
  unfold linkNext
  by_cases null : y = 0
  · simp [null]
  · rw [if_pos null, prevLink_setNextLink (apart null)]

theorem prevLink_linkPrev (fits : v < 256 ^ t.pointer) (apart : y ≠ 0 → x = y ∨ Apart t x y) :
    prevLink t (linkPrev t m y v) x = if y ≠ 0 ∧ x = y then v else prevLink t m x := by
  unfold linkPrev
  by_cases null : y = 0
  · simp [null]
  · rw [if_pos null]
    rcases apart null with rfl | ap
    · rw [if_pos ⟨null, rfl⟩, prevLink_setPrevLink t m x fits]
    · have ne : x ≠ y := by
        have := (minimum_pos t).1
        unfold Apart at ap
        omega
      rw [if_neg fun c => ne c.2, prevLink_setPrevLink_of_apart ap]

theorem nextLink_linkPrev (apart : y ≠ 0 → x = y ∨ Apart t x y) : nextLink t (linkPrev t m y v) x = nextLink t m x := by
  unfold linkPrev
  by_cases null : y = 0
  · simp [null]
  · rw [if_pos null, nextLink_setPrevLink (apart null)]

theorem linkNext_stores : LinkStores t m (linkNext t m y v) (if y ≠ 0 then [y] else []) := by
  unfold linkNext
  by_cases null : y = 0
  · simp only [null, ne_eq, not_true_eq_false, if_false]; exact .refl m
  · rw [if_pos null, if_pos null]; exact setNextLink_stores m y v

theorem linkPrev_stores : LinkStores t m (linkPrev t m y v) (if y ≠ 0 then [y] else []) := by
  unfold linkPrev
  by_cases null : y = 0
  · simp only [null, ne_eq, not_true_eq_false, if_false]; exact .refl m
  · rw [if_pos null, if_pos null]; exact setPrevLink_stores m y v

end Conditional

/-- `remove_free` as stores: the two neighbours of the block are linked to each other, and its own
links are cleared. -/
theorem removeFree_eq {x : Nat} (apart : prevLink t p.mem x ≠ 0 → Apart t x (prevLink t p.mem x)) :
    removeFree t p x =
      { p with
        mem := setPrevLink t (setNextLink t
          (linkPrev t (linkNext t p.mem (prevLink t p.mem x) (nextLink t p.mem x)) (nextLink t p.mem x)
            (prevLink t p.mem x)) x 0) x 0
        bins := if prevLink t p.mem x = 0 then
          setBin p.bins (mapping (Pool.blockSize p.mem x)) (nextLink t p.mem x) else p.bins } := by
  have next_kept : nextLink t (linkNext t p.mem (prevLink t p.mem x) (nextLink t p.mem x)) x =
      nextLink t p.mem x := by
    rw [nextLink_linkNext (nextLink_lt _ _) fun ne => .inr (apart ne), ite_self]
  have prev_kept : prevLink t (linkNext t p.mem (prevLink t p.mem x) (nextLink t p.mem x)) x =
      prevLink t p.mem x := prevLink_linkNext fun ne => .inr (apart ne)
  unfold linkNext at next_kept prev_kept
  unfold removeFree linkPrev linkNext
  by_cases first : prevLink t p.mem x = 0
  · simp only [first, ne_eq, not_true_eq_false, if_false, if_true]
    by_cases last : nextLink t p.mem x = 0
    · simp only [last, not_true_eq_false, if_false]
    · simp only [last, not_false_eq_true, if_true]
  · rw [if_pos first] at next_kept prev_kept
    simp only [first, ne_eq, not_false_eq_true, if_false, if_true, next_kept, prev_kept]
    by_cases last : nextLink t p.mem x = 0
    · simp only [last, not_true_eq_false, if_false]
    · simp only [last, not_false_eq_true, if_true]

theorem Heap.relist (h : Heap t p l hidden free) {m : Mem} {bins : Nat → Nat → Nat}
    {hidden' : List Nat} (k : Nat × Nat) (own : List Nat)
    (headers : ∀ b ∈ l, sizeFlags m b.addr = b.word ∧ prevSize m b.addr = b.prev)
    (segment : ∃ last, Segment (nextLink t m) (prevLink t m) 0 0 (bins k.1 k.2) own last 0)
    (nodup : own.Nodup) (other_bins : ∀ k', k' ≠ k → bins k'.1 k'.2 = p.bins k'.1 k'.2)
    (other_links : ∀ k', k' ≠ k → ∀ y ∈ free k',
      nextLink t m y = nextLink t p.mem y ∧ prevLink t m y = prevLink t p.mem y)
    (own_listed : ∀ y, y ∈ own ↔ y ∉ hidden' ∧ ∃ b ∈ l, b.addr = y ∧ b.used = false ∧ mapping b.size = k)
    (other_listed : ∀ k', k' ≠ k → ∀ b ∈ l, mapping b.size = k' → (b.addr ∈ hidden' ↔ b.addr ∈ hidden)) :
    Heap t { p with mem := m, bins := bins } l hidden' fun k' => if k' = k then own else free k' where
  initialized := h.initialized
  start_pos := h.start_pos
  start_aligned := h.start_aligned
  layout := h.layout
  finish_gt := h.finish_gt
  room := h.room
  addresses := h.addresses
  headers := headers
  linked k' := by
    by_cases same : k' = k
    · subst same
      rw [if_pos rfl]
      exact segment
    · obtain ⟨last, old⟩ := h.linked k'
      rw [if_neg same]
      show ∃ last, Segment (nextLink t m) (prevLink t m) 0 0 (bins k'.1 k'.2) (free k') last 0
      rw [other_bins k' same]
      exact ⟨last, old.congr (other_links k' same)⟩
  distinct k' := by
    by_cases same : k' = k
    · rw [if_pos same]; exact nodup
    · rw [if_neg same]; exact h.distinct k'
  listed k' y := by
    by_cases same : k' = k
    · subst same
      rw [if_pos rfl]
      exact own_listed y
    · rw [if_neg same, h.listed]
      constructor
      · rintro ⟨shown, b, hb, rfl, rest⟩
        exact ⟨fun c => shown ((other_listed k' same b hb rest.2).mp c), b, hb, rfl, rest⟩
      · rintro ⟨shown, b, hb, rfl, rest⟩
        exact ⟨fun c => shown ((other_listed k' same b hb rest.2).mpr c), b, hb, rfl, rest⟩

theorem mem_without {pre post : List Nat} {x y : Nat} (nodup : (pre ++ x :: post).Nodup) :
    y ∈ pre ++ post ↔ y ∈ pre ++ x :: post ∧ y ≠ x := by
  have not_pre : x ∉ pre := fun c => disjoint_of_nodup_append nodup c (.head _)
  have not_post := (nodup_cons.mp (nodup_append.mp nodup).2.1).1
  constructor
  · intro hy
    rcases mem_append.mp hy with hy | hy
    · exact ⟨mem_append_left _ hy, fun e => not_pre (e ▸ hy)⟩
    · exact ⟨mem_append_right _ (.tail _ hy), fun e => not_post (e ▸ hy)⟩
  · rintro ⟨hy, ne⟩
    rcases mem_append.mp hy with hy | hy
    · exact mem_append_left _ hy
    · exact mem_append_right _ ((mem_cons.mp hy).resolve_left ne)

/-- What `remove_free` and `insert_free` leave alone: the extent of the pool, and all used
payloads. -/
structure SameExtent (p p' : Pool) (l : List Block) : Prop where
  start : p'.start = p.start
  finish : p'.finish = p.finish
  payloads : ∀ u ∈ l, u.used = true → Untouched p.mem p'.mem u

/-- **`remove_free`** takes a listed block out of its list and leaves all headers and all used
payloads alone. -/
theorem Heap.removeFree (h : Heap t p l hidden free) (hb : b ∈ l) (is_free : b.used = false) (shown : b.addr ∉ hidden) :
    (∃ free', Heap t (removeFree t p b.addr) l (b.addr :: hidden) free') ∧ SameExtent p (removeFree t p b.addr) l := by
  generalize hx : b.addr = x at *
  have member : x ∈ free (mapping b.size) := (h.listed _ x).mpr ⟨shown, b, hb, hx, is_free, rfl⟩
  obtain ⟨last, segment⟩ := h.linked (mapping b.size)
  have nodup := h.distinct (mapping b.size)
  obtain ⟨pre, post, split⟩ := append_of_mem member
  rw [split] at segment nodup
  obtain ⟨prev_is, next_is⟩ := segment.neighbours
  have prev_mem : prevLink t p.mem x ≠ 0 → prevLink t p.mem x ∈ free (mapping b.size) := fun ne => by
    rw [split]; exact mem_append_left _ (prev_is.resolve_left ne)
  have next_mem : nextLink t p.mem x ≠ 0 → nextLink t p.mem x ∈ free (mapping b.size) := fun ne => by
    rw [split]; exact mem_append_right _ (.tail _ (next_is.resolve_left ne))
  have prev_ne : prevLink t p.mem x ≠ 0 → x ≠ prevLink t p.mem x := fun ne e => by
    have := disjoint_of_nodup_append nodup (prev_is.resolve_left ne)
    exact this (e ▸ (.head _))
  have eq := removeFree_eq (p := p) (x := x) fun ne =>
    (h.listed_apart member (prev_mem ne)).resolve_left (prev_ne ne)
  have size : Pool.blockSize p.mem x = b.size := by rw [← hx]; exact h.blockSize hb
  rw [size] at eq
  generalize hm : setPrevLink t (setNextLink t
    (linkPrev t (linkNext t p.mem (prevLink t p.mem x) (nextLink t p.mem x)) (nextLink t p.mem x)
      (prevLink t p.mem x)) x 0) x 0 = m at eq
  -- the links of every block that is still listed
  have links : ∀ k y, y ∈ free k → y ≠ x →
      nextLink t m y = (if prevLink t p.mem x ≠ 0 ∧ y = prevLink t p.mem x then nextLink t p.mem x
        else nextLink t p.mem y) ∧
      prevLink t m y = (if nextLink t p.mem x ≠ 0 ∧ y = nextLink t p.mem x then prevLink t p.mem x
        else prevLink t p.mem y) := by
    intro k y hy ne
    have away := (h.listed_apart hy member).resolve_left ne
    have from_prev := fun c => h.listed_apart hy (prev_mem c)
    have from_next := fun c => h.listed_apart hy (next_mem c)
    rw [← hm]
    constructor
    · rw [nextLink_setPrevLink (.inr away), nextLink_setNextLink_of_apart away,
        nextLink_linkPrev from_next, nextLink_linkNext (nextLink_lt _ _) from_prev]
    · rw [prevLink_setPrevLink_of_apart away, prevLink_setNextLink (.inr away),
        prevLink_linkPrev (prevLink_lt _ _) from_next, prevLink_linkNext from_prev]
  have stores : LinkStores t p.mem m ((if prevLink t p.mem x ≠ 0 then [prevLink t p.mem x] else []) ++
      ((if nextLink t p.mem x ≠ 0 then [nextLink t p.mem x] else []) ++ ([x] ++ [x]))) := by
    rw [← hm]
    exact linkNext_stores.trans (linkPrev_stores.trans
      ((setNextLink_stores _ x 0).trans (setPrevLink_stores _ x 0)))
  obtain ⟨headers, payloads⟩ := h.link_stores stores fun y hy => by
    have listed : y ∈ free (mapping b.size) := by
      rcases mem_append.mp hy with hy | hy
      · split at hy
        · next ne => rw [mem_singleton.mp hy]; exact prev_mem ne
        · cases hy
      · rcases mem_append.mp hy with hy | hy
        · split at hy
          · next ne => rw [mem_singleton.mp hy]; exact next_mem ne
          · cases hy
        · have : y = x := by simpa using hy
          rw [this]; exact member
    obtain ⟨-, f, hf, e, free_f, -⟩ := h.listed_block listed
    exact ⟨f, hf, e, free_f⟩
  obtain ⟨last', unlinked⟩ := segment.unlink nodup
  rw [eq]
  refine ⟨⟨_, h.relist (mapping b.size) (pre ++ post) headers ⟨last', ?_⟩ ?_ ?_ ?_ ?_ ?_⟩, ⟨rfl, rfl, payloads⟩⟩
  · have heads : (if prevLink t p.mem x = 0 then setBin p.bins (mapping b.size) (nextLink t p.mem x)
        else p.bins) (mapping b.size).1 (mapping b.size).2 =
        if prevLink t p.mem x = 0 then nextLink t p.mem x
        else p.bins (mapping b.size).1 (mapping b.size).2 := by
      split
      · exact if_pos rfl
      · rfl
    rw [heads]
    refine unlinked.congr fun y hy => ?_
    obtain ⟨hy', ne⟩ := (mem_without nodup).mp hy
    exact links _ y (split ▸ hy') ne
  · exact nodup.sublist (List.Sublist.append_left (sublist_cons_self x post) pre)
  · intro k other
    split
    · exact if_neg other
    · rfl
  · intro k other y hy
    have differs : ∀ z, z ∈ free (mapping b.size) → y ≠ z := fun z hz e => other (h.one_list hy (e ▸ hz))
    obtain ⟨n, q⟩ := links k y hy (differs x member)
    rw [n, q, if_neg fun c => differs _ (prev_mem c.1) c.2, if_neg fun c => differs _ (next_mem c.1) c.2]
    exact ⟨rfl, rfl⟩
  · intro y
    rw [mem_without nodup, ← split, h.listed, mem_cons, not_or]
    exact ⟨fun c => ⟨⟨c.2, c.1.1⟩, c.1.2⟩, fun c => ⟨⟨c.1.2, c.2⟩, c.1.1⟩⟩
  · intro k other d hd own
    rw [mem_cons]
    refine or_iff_right fun e => other ?_
    rw [← own, h.layout.eq_of_addr hd hb (e.trans hx.symm)]

/-! ## Listing a block -/

/-- **`insert_free`** puts a free block that is in no list in front of the list of its class. -/
theorem Heap.insertFree (h : Heap t p l (b.addr :: hidden) free) (hb : b ∈ l) (is_free : b.used = false)
    (shown : b.addr ∉ hidden) : (∃ free', Heap t (insertFree t p b.addr) l hidden free') ∧
      SameExtent p (insertFree t p b.addr) l := by
  generalize hx : b.addr = x at *
  have size : Pool.blockSize p.mem x = b.size := by rw [← hx]; exact h.blockSize hb
  have pos : x ≠ 0 := by rw [← hx]; exact ne_of_gt (h.addr_pos hb)
  have fits : x < 256 ^ t.pointer := by rw [← hx]; exact h.addr_lt hb
  have zero_fits : 0 < 256 ^ t.pointer := lt_of_le_of_lt (Nat.zero_le _) fits
  generalize hh : p.bins (mapping b.size).1 (mapping b.size).2 = head
  obtain ⟨last, segment⟩ := h.linked (mapping b.size)
  have nodup := h.distinct (mapping b.size)
  rw [hh] at segment
  have head_mem : head ≠ 0 → head ∈ free (mapping b.size) := by
    intro ne
    cases list : free (mapping b.size) with
    | nil => rw [list] at segment; exact absurd segment.2.symm ne
    | cons y rest => rw [list] at segment; rw [segment.1]; exact .head _
  have head_fits : head < 256 ^ t.pointer := by
    by_cases null : head = 0
    · rw [null]; exact zero_fits
    · obtain ⟨-, f, hf, e, -⟩ := h.listed_block (head_mem null)
      rw [← e]; exact h.addr_lt hf
  have fresh : ∀ k, x ∉ free k := fun k c => (h.listed_block c).1 (.head _)
  have away : ∀ k y, y ∈ free k → Apart t y x := by
    intro k y hy
    obtain ⟨-, f, hf, e, free_f, -⟩ := h.listed_block hy
    rw [← e, ← hx]
    refine h.free_apart hf hb free_f is_free fun same => fresh k ?_
    rw [← hx, ← same, e]; exact hy
  have eq : Pool.insertFree t p x =
      { p with
        mem := linkPrev t (setNextLink t (setPrevLink t p.mem x 0) x head) head x
        bins := setBin p.bins (mapping b.size) x } := by
    unfold Pool.insertFree linkPrev
    simp only [size, hh, nextLink_setNextLink t _ x head_fits]
  generalize hm : linkPrev t (setNextLink t (setPrevLink t p.mem x 0) x head) head x = m at eq
  have head_away : head ≠ 0 → Apart t x head := fun ne => by
    have := away _ head (head_mem ne)
    unfold Apart at this ⊢
    exact this.symm
  have own_links : nextLink t m x = head ∧ prevLink t m x = 0 := by
    rw [← hm]
    have differs : ¬ (head ≠ 0 ∧ x = head) := fun c => fresh _ (c.2 ▸ head_mem c.1)
    constructor
    · rw [nextLink_linkPrev fun ne => .inr (head_away ne), nextLink_setNextLink t _ x head_fits]
    · rw [prevLink_linkPrev fits fun ne => .inr (head_away ne), if_neg differs,
        prevLink_setNextLink (.inl rfl), prevLink_setPrevLink t _ x zero_fits]
  have links : ∀ k y, y ∈ free k → nextLink t m y = nextLink t p.mem y ∧
      prevLink t m y = if head ≠ 0 ∧ y = head then x else prevLink t p.mem y := by
    intro k y hy
    have ap := away k y hy
    have from_head := fun c => h.listed_apart hy (head_mem c)
    rw [← hm]
    constructor
    · rw [nextLink_linkPrev from_head, nextLink_setNextLink_of_apart ap, nextLink_setPrevLink (.inr ap)]
    · rw [prevLink_linkPrev fits from_head, prevLink_setNextLink (.inr ap), prevLink_setPrevLink_of_apart ap]
  have stores : LinkStores t p.mem m (([x] ++ [x]) ++ if head ≠ 0 then [head] else []) := by
    rw [← hm]
    exact ((setPrevLink_stores _ x 0).trans (setNextLink_stores _ x head)).trans linkPrev_stores
  obtain ⟨headers, payloads⟩ := h.link_stores stores fun y hy => by
    rcases mem_append.mp hy with hy | hy
    · have : y = x := by simpa using hy
      exact ⟨b, hb, hx.trans this.symm, is_free⟩
    · split at hy
      · next ne =>
        rw [mem_singleton.mp hy]
        obtain ⟨-, f, hf, e, free_f, -⟩ := h.listed_block (head_mem ne)
        exact ⟨f, hf, e, free_f⟩
      · cases hy
  obtain ⟨last', pushed⟩ := segment.push nodup (fresh _) pos
  rw [eq]
  refine ⟨⟨_, h.relist (mapping b.size) (x :: free (mapping b.size)) headers
    ⟨last', ?_⟩ ?_ ?_ ?_ ?_ ?_⟩, ⟨rfl, rfl, payloads⟩⟩
  · have bin : setBin p.bins (mapping b.size) x (mapping b.size).1 (mapping b.size).2 = x := if_pos rfl
    rw [bin]
    refine pushed.congr fun y hy => ?_
    rcases mem_cons.mp hy with rfl | hy
    · have differs : ¬ (head ≠ 0 ∧ y = head) := fun c => fresh _ (c.2 ▸ head_mem c.1)
      rw [own_links.1, own_links.2, if_pos rfl, if_neg differs, if_pos rfl]
      exact ⟨rfl, rfl⟩
    · have ne : y ≠ x := fun e => fresh _ (e ▸ hy)
      obtain ⟨n, q⟩ := links _ y hy
      rw [n, q, if_neg ne, if_neg ne]
      exact ⟨rfl, rfl⟩
  · exact nodup_cons.mpr ⟨fresh _, nodup⟩
  · intro k other
    exact if_neg other
  · intro k other y hy
    have differs : ¬ (head ≠ 0 ∧ y = head) := fun c => other (h.one_list hy (c.2 ▸ head_mem c.1))
    obtain ⟨n, q⟩ := links k y hy
    rw [n, q, if_neg differs]
    exact ⟨rfl, rfl⟩
  · intro y
    rw [mem_cons, h.listed, mem_cons, not_or]
    constructor
    · rintro (rfl | ⟨⟨-, shown'⟩, rest⟩)
      · exact ⟨shown, b, hb, hx, is_free, rfl⟩
      · exact ⟨shown', rest⟩
    · rintro ⟨shown', rest⟩
      by_cases own : y = x
      · exact .inl own
      · exact .inr ⟨⟨own, shown'⟩, rest⟩
  · intro k other d hd own
    rw [mem_cons]
    refine (or_iff_right fun e => other ?_).symm
    rw [← own, h.layout.eq_of_addr hd hb (e.trans hx.symm)]

end Heap
end PhpPico.Pool
