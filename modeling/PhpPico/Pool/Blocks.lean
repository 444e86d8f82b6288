import PhpPico.Pool.Alloc

/-!
# Blocks of the pool

How the blocks lie in the pool, what their headers say, and what a store to a header or to links leaves alone.
-/

namespace PhpPico.Pool
open List ByteMemory Chain

/-- A block as its header describes it. -/
structure Block where
  addr : Nat
  size : Nat
  prev : Nat
  used : Bool
  deriving DecidableEq

/-- The first header word of a block. -/
def Block.word (b : Block) : Nat := b.size + (if b.used then 1 else 0)

section Layout
variable (t : Arch)

theorem minimum_pos : 16 ≤ minimumBlockSize t ∧ 8 ∣ minimumBlockSize t ∧
    minimumBlockSize t = 8 + 2 * t.pointer ∧ minimumBlockSize t ≤ 24 := by
  cases t <;> decide

/-- Blocks that follow one another from address `a`, behind a block of size `p`, up to address
`a'`, the last of size `p'`. -/
def Tiles : Nat → Nat → List Block → Nat → Nat → Prop
  | a, p, [], a', p' => a' = a ∧ p' = p
  | a, p, b :: rest, a', p' =>
    b.addr = a ∧ b.prev = p ∧ 8 ∣ b.size ∧ minimumBlockSize t ≤ b.size ∧ Tiles (a + b.size) b.size rest a' p'

/-- Blocks that follow one another from address `a` up to the sentinel at `e`, which is the last
of the list: a used block of size 0. -/
def Layout : Nat → Nat → List Block → Nat → Prop
  | _, _, [], _ => False
  | a, p, [s], e => s.addr = a ∧ s.prev = p ∧ s.size = 0 ∧ s.used = true ∧ e = a
  | a, p, b :: c :: rest, e =>
    b.addr = a ∧ b.prev = p ∧ 8 ∣ b.size ∧ minimumBlockSize t ≤ b.size ∧ Layout (a + b.size) b.size (c :: rest) e

variable {t} {a a' p p' e : Nat} {l pre post : List Block} {b c : Block}

theorem layout_append (ne : post ≠ []) :
    Layout t a p (pre ++ post) e ↔ ∃ a' p', Tiles t a p pre a' p' ∧ Layout t a' p' post e := by
  induction pre generalizing a p with
  | nil =>
    constructor
    · intro h
      exact ⟨a, p, ⟨rfl, rfl⟩, h⟩
    · rintro ⟨_, _, ⟨rfl, rfl⟩, h⟩
      exact h
  | cons b rest ih =>
    obtain ⟨c, more, e'⟩ := exists_cons_of_ne_nil (append_ne_nil_of_right_ne_nil rest ne)
    rw [cons_append, e']
    rw [e'] at ih
    constructor
    · rintro ⟨h1, h2, h3, h4, tail⟩
      obtain ⟨a', p', first, second⟩ := ih.mp tail
      exact ⟨a', p', ⟨h1, h2, h3, h4, first⟩, second⟩
    · rintro ⟨a', p', ⟨h1, h2, h3, h4, first⟩, second⟩
      exact ⟨h1, h2, h3, h4, ih.mpr ⟨a', p', first, second⟩⟩

theorem Tiles.within (h : Tiles t a p l a' p') :
    a ≤ a' ∧ ∀ b ∈ l, a ≤ b.addr ∧ b.addr + b.size ≤ a' ∧ minimumBlockSize t ≤ b.size ∧ 8 ∣ b.size := by
  induction l generalizing a p with
  | nil => exact ⟨h.1.symm.le, fun b hb => by cases hb⟩
  | cons c rest ih =>
    obtain ⟨h1, -, h3, h4, tail⟩ := h
    obtain ⟨le, all⟩ := ih tail
    refine ⟨by omega, fun b hb => ?_⟩
    rcases mem_cons.mp hb with rfl | hb
    · exact ⟨by omega, by omega, h4, h3⟩
    · obtain ⟨lo, hi⟩ := all b hb
      exact ⟨by omega, hi⟩

theorem Layout.within (h : Layout t a p l e) : a ≤ e ∧ ∀ b ∈ l, a ≤ b.addr ∧ b.addr + b.size ≤ e ∧
      (b.size = 0 ∧ b.used = true ∧ b.addr = e ∨ minimumBlockSize t ≤ b.size ∧ 8 ∣ b.size) := by
  induction l generalizing a p with
  | nil => exact h.elim
  | cons c rest ih =>
    cases rest with
    | nil =>
      obtain ⟨h1, -, h3, h4, h5⟩ := h
      refine ⟨h5.symm.le, fun b hb => ?_⟩
      rw [mem_singleton.mp hb]
      exact ⟨by omega, by omega, .inl ⟨h3, h4, by omega⟩⟩
    | cons d rest =>
      obtain ⟨h1, -, h3, h4, tail⟩ := h
      obtain ⟨le, all⟩ := ih tail
      refine ⟨by omega, fun b hb => ?_⟩
      rcases mem_cons.mp hb with rfl | hb
      · exact ⟨by omega, by omega, .inr ⟨h4, h3⟩⟩
      · obtain ⟨lo, hi⟩ := all b hb
        exact ⟨by omega, hi⟩

theorem Layout.aligned (h : Layout t a p l e) (start : 8 ∣ a) : ∀ b ∈ l, 8 ∣ b.addr := by
  induction l generalizing a p with
  | nil => exact h.elim
  | cons c rest ih =>
    cases rest with
    | nil =>
      intro b hb
      rw [mem_singleton.mp hb, h.1]
      exact start
    | cons d rest =>
      obtain ⟨h1, -, h3, -, tail⟩ := h
      intro b hb
      rcases mem_cons.mp hb with rfl | hb
      · rw [h1]; exact start
      · exact ih tail (Nat.dvd_add start h3) b hb

/-- Where the other blocks lie: those before `b` end before it, those behind begin behind it. -/
theorem Layout.around (h : Layout t a p (pre ++ b :: post) e) :
    (∀ d ∈ pre, d.addr + d.size ≤ b.addr ∧ minimumBlockSize t ≤ d.size) ∧
      (∀ d ∈ post, b.addr + b.size ≤ d.addr ∧ minimumBlockSize t ≤ b.size) := by
  obtain ⟨a', p', first, second⟩ := (layout_append (cons_ne_nil b post)).mp h
  obtain ⟨-, before⟩ := first.within
  have at_b : b.addr = a' := by
    cases post with
    | nil => exact second.1
    | cons c rest => exact second.1
  refine ⟨fun d hd => ?_, fun d hd => ?_⟩
  · obtain ⟨-, hi, min, -⟩ := before d hd
    exact ⟨by omega, min⟩
  · cases post with
    | nil => cases hd
    | cons c rest =>
      obtain ⟨h1, -, -, h4, tail⟩ := second
      obtain ⟨-, all⟩ := tail.within
      obtain ⟨lo, -⟩ := all d hd
      exact ⟨by omega, h4⟩

/-- Two blocks at one address are one block. -/
theorem Layout.eq_of_addr (h : Layout t a p l e) (hb : b ∈ l) (hc : c ∈ l) (same : b.addr = c.addr) : b = c := by
  obtain ⟨pre, post, rfl⟩ := append_of_mem hb
  obtain ⟨before, behind⟩ := h.around
  have pos := (minimum_pos t).1
  rcases mem_append.mp hc with hc | hc
  · have := before c hc
    omega
  · rcases mem_cons.mp hc with rfl | hc
    · rfl
    · have := behind c hc
      omega

theorem Layout.apart (h : Layout t a p l e) (hb : b ∈ l) (hc : c ∈ l) (ne : b.addr ≠ c.addr) :
    (b.addr + b.size ≤ c.addr ∧ minimumBlockSize t ≤ b.size) ∨
      (c.addr + c.size ≤ b.addr ∧ minimumBlockSize t ≤ c.size) := by
  obtain ⟨pre, post, rfl⟩ := append_of_mem hb
  obtain ⟨before, behind⟩ := h.around
  rcases mem_append.mp hc with hc | hc
  · exact .inr (before c hc)
  · rcases mem_cons.mp hc with rfl | hc
    · exact absurd rfl ne
    · exact .inl (behind c hc)

/-- The first block is found at the address the layout begins with, behind the size given. -/
theorem Layout.head (h : Layout t a p (b :: post) e) : b.addr = a ∧ b.prev = p := by
  cases post with
  | nil => exact ⟨h.1, h.2.1⟩
  | cons c rest => exact ⟨h.1, h.2.1⟩

/-- The first block may be told another size of the block before it. -/
theorem Layout.set_prev (h : Layout t a p (b :: post) e) (p' : Nat) :
    Layout t a p' ({ b with prev := p' } :: post) e := by
  cases post with
  | nil => exact ⟨h.1, rfl, h.2.2⟩
  | cons c rest => exact ⟨h.1, rfl, h.2.2⟩

/-- A block that is not the sentinel has one behind it. -/
theorem Layout.cons_of_size (h : Layout t a p (pre ++ b :: post) e) (real : b.size ≠ 0) :
    ∃ c rest, post = c :: rest ∧ c.addr = b.addr + b.size ∧ c.prev = b.size := by
  obtain ⟨a', p', -, second⟩ := (layout_append (cons_ne_nil b post)).mp h
  cases post with
  | nil => exact absurd second.2.2.1 real
  | cons c rest =>
    obtain ⟨h1, -, -, -, tail⟩ := second
    obtain ⟨hc, hp⟩ := tail.head
    exact ⟨c, rest, rfl, by rw [hc, h1], hp⟩

theorem Tiles.unique {a₁ p₁ a₂ p₂ : Nat} (h : Tiles t a p l a₁ p₁) (h' : Tiles t a p l a₂ p₂) : a₁ = a₂ ∧ p₁ = p₂ := by
  induction l generalizing a p with
  | nil => exact ⟨h.1.trans h'.1.symm, h.2.trans h'.2.symm⟩
  | cons b rest ih => exact ih h.2.2.2.2 h'.2.2.2.2

/-- The last of some blocks ends where they end. -/
theorem Tiles.last (h : Tiles t a p (l ++ [b]) a' p') : a' = b.addr + b.size ∧ p' = b.size := by
  induction l generalizing a p with
  | nil => exact ⟨by rw [h.2.2.2.2.1, h.1], h.2.2.2.2.2⟩
  | cons d rest ih => exact ih h.2.2.2.2

/-- Where the blocks around some others lie. -/
theorem Layout.split {old : List Block} {a₀ p₀ a₁ p₁ : Nat}
    (h : Layout t a p (pre ++ old ++ c :: post) e) (ne : old ≠ []) (was : Tiles t a₀ p₀ old a₁ p₁) :
    Tiles t a p pre a₀ p₀ ∧ Layout t a₁ p₁ (c :: post) e := by
  rw [append_assoc] at h
  obtain ⟨a', p', first, rest⟩ := (layout_append (append_ne_nil_of_right_ne_nil _ (cons_ne_nil _ _))).mp h
  obtain ⟨a'', p'', old_tiles, second⟩ := (layout_append (cons_ne_nil _ _)).mp rest
  have starts : a' = a₀ ∧ p' = p₀ := by
    cases old with
    | nil => exact absurd rfl ne
    | cons d more => exact ⟨old_tiles.1.symm.trans was.1, old_tiles.2.1.symm.trans was.2.1⟩
  obtain ⟨rfl, rfl⟩ := starts
  obtain ⟨rfl, rfl⟩ := old_tiles.unique was
  exact ⟨first, second⟩

theorem Layout.replace {old mid : List Block} {a₀ p₀ a₁ p₁ last : Nat}
    (h : Layout t a p (pre ++ old ++ c :: post) e) (ne : old ≠ []) (was : Tiles t a₀ p₀ old a₁ p₁)
    (now : Tiles t a₀ p₀ mid a₁ last) :
    Layout t a p (pre ++ mid ++ { c with prev := last } :: post) e := by
  obtain ⟨first, second⟩ := h.split ne was
  rw [append_assoc]
  exact (layout_append (append_ne_nil_of_right_ne_nil _ (cons_ne_nil _ _))).mpr
    ⟨_, _, first, (layout_append (cons_ne_nil _ _)).mpr ⟨_, _, now, second.set_prev last⟩⟩

end Layout

/-! ## Headers -/

/-- The memories agree outside the eight bytes at each of some addresses. -/
def HeaderStores (m m' : Mem) (at_ : List Nat) : Prop :=
  ∀ z, (∀ y ∈ at_, z < y ∨ y + 8 ≤ z) → m' z = m z

section Headers
variable {m m' m'' : Mem} {x y v size : Nat} {used : Bool} {ys zs : List Nat}

theorem HeaderStores.trans (h : HeaderStores m m' ys) (h' : HeaderStores m' m'' zs) :
    HeaderStores m m'' (ys ++ zs) := by
  intro z away
  rw [h' z fun y hy => away y (mem_append_right _ hy)]
  exact h z fun y hy => away y (mem_append_left _ hy)

theorem blockSet_stores (m : Mem) (x size : Nat) (used : Bool) : HeaderStores m (blockSet m x size used) [x] := by
  intro z away
  have := away x (mem_singleton.mpr rfl)
  exact store_of_outside (by omega)

theorem setPrevSize_stores (m : Mem) (x size : Nat) : HeaderStores m (setPrevSize m x size) [x] := by
  intro z away
  have := away x (mem_singleton.mpr rfl)
  exact store_of_outside (by omega)

theorem HeaderStores.sizeFlags (h : HeaderStores m m' ys) (apart : ∀ y ∈ ys, x + 8 ≤ y ∨ y + 8 ≤ x) :
    sizeFlags m' x = sizeFlags m x := by
  apply load_congr
  intro z lo hi
  apply h z
  intro y hy
  have := apart y hy
  omega

theorem HeaderStores.prevSize (h : HeaderStores m m' ys) (apart : ∀ y ∈ ys, x + 8 ≤ y ∨ y + 8 ≤ x) :
    prevSize m' x = prevSize m x := by
  apply load_congr
  intro z lo hi
  apply h z
  intro y hy
  have := apart y hy
  omega

theorem HeaderStores.links (t : Arch) (h : HeaderStores m m' ys)
    (apart : ∀ y ∈ ys, x + minimumBlockSize t ≤ y ∨ y ≤ x) :
    nextLink t m' x = nextLink t m x ∧ prevLink t m' x = prevLink t m x := by
  have room := (minimum_pos t).2.2.1
  constructor
  · apply load_congr
    intro z lo hi
    apply h z
    intro y hy
    have := apart y hy
    omega
  · apply load_congr
    intro z lo hi
    apply h z
    intro y hy
    have := apart y hy
    omega

theorem word_or (n : Nat) (flag : Bool) (h : 8 ∣ n) : n ||| (if flag then 1 else 0) = n + (if flag then 1 else 0) := by
  obtain ⟨k, rfl⟩ := h
  cases flag with
  | false => simp
  | true => exact (Nat.two_pow_add_eq_or_of_lt (i := 3) (b := 1) (by decide) k).symm

theorem sizeFlags_blockSet (m : Mem) (x : Nat) (used : Bool) (aligned : 8 ∣ size) (fits : size < 4294967296) :
    sizeFlags (blockSet m x size used) x = size + (if used then 1 else 0) := by
  unfold sizeFlags blockSet
  rw [load_store, Nat.mod_eq_of_lt fits, word_or size used aligned]
  apply Nat.mod_eq_of_lt
  have e : (256 : Nat) ^ 4 = 4294967296 := by norm_num
  obtain ⟨k, rfl⟩ := aligned
  rw [e]
  split <;> omega

theorem prevSize_blockSet (m : Mem) (x y size : Nat) (used : Bool) (apart : y + 8 ≤ x ∨ x ≤ y) :
    prevSize (blockSet m x size used) y = prevSize m y := by
  unfold prevSize blockSet
  exact load_store_of_disjoint (by omega)

theorem sizeFlags_setPrevSize (m : Mem) (x y size : Nat) (apart : y ≤ x ∨ x + 8 ≤ y) :
    sizeFlags (setPrevSize m x size) y = sizeFlags m y := by
  unfold sizeFlags setPrevSize
  exact load_store_of_disjoint (by omega)

theorem sizeFlags_blockSet_of_apart (m : Mem) (x y size : Nat) (used : Bool)
    (apart : y + 8 ≤ x ∨ x + 8 ≤ y) : sizeFlags (blockSet m x size used) y = sizeFlags m y := by
  unfold sizeFlags blockSet
  exact load_store_of_disjoint (by omega)

theorem prevSize_setPrevSize_of_apart (m : Mem) (x y size : Nat) (apart : y + 8 ≤ x ∨ x + 8 ≤ y) :
    prevSize (setPrevSize m x size) y = prevSize m y := by
  unfold prevSize setPrevSize
  exact load_store_of_disjoint (by omega)

theorem prevSize_setPrevSize (m : Mem) (x : Nat) (fits : size < 4294967296) :
    prevSize (setPrevSize m x size) x = size := by
  unfold prevSize setPrevSize
  have e : (256 : Nat) ^ 4 = 4294967296 := by norm_num
  rw [load_store, e]
  exact Nat.mod_eq_of_lt fits

theorem blockSize_of_word {b : Block} (h : sizeFlags m x = b.word) (aligned : 8 ∣ b.size) : blockSize m x = b.size := by
  obtain ⟨k, e⟩ := aligned
  unfold blockSize
  rw [h, Block.word, e]
  split <;> omega

theorem blockIsUsed_of_word {b : Block} (h : sizeFlags m x = b.word) (aligned : 8 ∣ b.size) :
    blockIsUsed m x = b.used := by
  obtain ⟨k, e⟩ := aligned
  unfold blockIsUsed
  rw [h, Block.word, e]
  cases b.used with
  | false =>
    have : (8 * k + (if false = true then 1 else 0)) % 2 = 0 := by simp; omega
    rw [this]
    rfl
  | true =>
    have : (8 * k + (if true = true then 1 else 0)) % 2 = 1 := by simp; omega
    rw [this]
    rfl

end Headers

/-! ## Links -/

/-- The memories agree outside the links behind the headers at some addresses. -/
def LinkStores (t : Arch) (m m' : Mem) (at_ : List Nat) : Prop :=
  ∀ z, (∀ y ∈ at_, z < y + 8 ∨ y + minimumBlockSize t ≤ z) → m' z = m z

section Links
variable {t : Arch} {m m' m'' : Mem} {x y v : Nat} {ys zs : List Nat}

theorem LinkStores.refl (m : Mem) : LinkStores t m m [] := fun _ _ => rfl

theorem LinkStores.trans (h : LinkStores t m m' ys) (h' : LinkStores t m' m'' zs) : LinkStores t m m'' (ys ++ zs) := by
  intro z away
  rw [h' z fun y hy => away y (mem_append_right _ hy)]
  exact h z fun y hy => away y (mem_append_left _ hy)

theorem setNextLink_stores (m : Mem) (y v : Nat) : LinkStores t m (setNextLink t m y v) [y] := by
  intro z away
  have := away y (mem_singleton.mpr rfl)
  have room := (minimum_pos t).2.2.1
  exact store_of_outside (by omega)

theorem setPrevLink_stores (m : Mem) (y v : Nat) : LinkStores t m (setPrevLink t m y v) [y] := by
  intro z away
  have := away y (mem_singleton.mpr rfl)
  have room := (minimum_pos t).2.2.1
  exact store_of_outside (by omega)

theorem LinkStores.header (h : LinkStores t m m' ys) (apart : ∀ y ∈ ys, x ≤ y ∨ y + minimumBlockSize t ≤ x) :
    sizeFlags m' x = sizeFlags m x ∧ prevSize m' x = prevSize m x := by
  constructor
  · apply load_congr
    intro z lo hi
    apply h z
    intro y hy
    have := apart y hy
    omega
  · apply load_congr
    intro z lo hi
    apply h z
    intro y hy
    have := apart y hy
    omega

/-- The fields of blocks at two addresses do not overlap. -/
def Apart (t : Arch) (x y : Nat) : Prop := x + minimumBlockSize t ≤ y ∨ y + minimumBlockSize t ≤ x

variable (t)

theorem nextLink_setNextLink (m : Mem) (y : Nat) (fits : v < 256 ^ t.pointer) :
    nextLink t (setNextLink t m y v) y = v := by
  unfold nextLink setNextLink
  rw [load_store]
  exact Nat.mod_eq_of_lt fits

theorem prevLink_setPrevLink (m : Mem) (y : Nat) (fits : v < 256 ^ t.pointer) :
    prevLink t (setPrevLink t m y v) y = v := by
  unfold prevLink setPrevLink
  rw [load_store]
  exact Nat.mod_eq_of_lt fits

variable {t}

theorem nextLink_setNextLink_of_apart (apart : Apart t x y) : nextLink t (setNextLink t m y v) x = nextLink t m x := by
  have room := (minimum_pos t).2.2.1
  unfold Apart at apart
  exact load_store_of_disjoint (by omega)

theorem prevLink_setPrevLink_of_apart (apart : Apart t x y) : prevLink t (setPrevLink t m y v) x = prevLink t m x := by
  have room := (minimum_pos t).2.2.1
  unfold Apart at apart
  exact load_store_of_disjoint (by omega)

theorem prevLink_setNextLink (apart : x = y ∨ Apart t x y) : prevLink t (setNextLink t m y v) x = prevLink t m x := by
  have room := (minimum_pos t).2.2.1
  unfold Apart at apart
  exact load_store_of_disjoint (by omega)

theorem nextLink_setPrevLink (apart : x = y ∨ Apart t x y) : nextLink t (setPrevLink t m y v) x = nextLink t m x := by
  have room := (minimum_pos t).2.2.1
  unfold Apart at apart
  exact load_store_of_disjoint (by omega)

theorem nextLink_lt (m : Mem) (x : Nat) : nextLink t m x < 256 ^ t.pointer := load_lt

theorem prevLink_lt (m : Mem) (x : Nat) : prevLink t m x < 256 ^ t.pointer := load_lt

end Links

end PhpPico.Pool
