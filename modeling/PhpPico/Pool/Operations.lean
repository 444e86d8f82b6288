import PhpPico.Pool.Heap

/-!
# The operations of the pool keep its invariant

Each operation replaces a few neighbouring blocks by others that take the same room. Splitting, marking and merging
are instances of it.
-/

namespace PhpPico.Pool
open List ByteMemory Chain

section Retile
variable {t : Arch} {p : Pool} {pre old mid post : List Block} {c : Block}
  {hidden hidden' : List Nat} {free : Nat × Nat → List Nat} {a₀ p₀ a₁ p₁ last : Nat}

/-- Replacing the unlisted blocks `old` by the unlisted blocks `mid`, which take the same room, with
stores to headers inside that room and to that of the block behind. -/
theorem Heap.retile (h : Heap t p (pre ++ old ++ c :: post) hidden free) (ne : old ≠ [])
    (was : Tiles t a₀ p₀ old a₁ p₁) (now : Tiles t a₀ p₀ mid a₁ last) {m : Mem} {ys : List Nat}
    (stores : HeaderStores p.mem m ys) (within : ∀ y ∈ ys, a₀ ≤ y ∧ y + 8 ≤ a₁ ∨ y = a₁)
    (mid_headers : ∀ d ∈ mid, sizeFlags m d.addr = d.word ∧ prevSize m d.addr = d.prev)
    (c_header : sizeFlags m c.addr = c.word ∧ prevSize m c.addr = last)
    (old_out : ∀ d ∈ old, d.used = true ∨ d.addr ∈ hidden)
    (mid_out : ∀ d ∈ mid, d.used = true ∨ d.addr ∈ hidden')
    (others : ∀ d ∈ pre ++ c :: post, d.addr ∈ hidden' ↔ d.addr ∈ hidden) :
    Heap t { p with mem := m } (pre ++ mid ++ { c with prev := last } :: post) hidden' free ∧
      ∀ u ∈ pre ++ c :: post, Untouched p.mem m u := by
  have pos := (minimum_pos t).1
  obtain ⟨first, second⟩ := h.layout.split ne was
  have before := first.within.2
  have at_c := second.head.1
  have le := was.within.1
  have behind : ∀ d ∈ post, a₁ + 16 ≤ d.addr := by
    intro d hd
    cases post with
    | nil => cases hd
    | cons k rest =>
      obtain ⟨-, -, -, min, tail⟩ := second
      have := (tail.within.2 d hd).1
      omega
  have old_mem : ∀ d ∈ pre ++ c :: post, d ∈ pre ++ old ++ c :: post := by
    intro d hd
    rcases mem_append.mp hd with hd | hd
    · exact mem_append_left _ (mem_append_left _ hd)
    · exact mem_append_right _ hd
  have header : ∀ d ∈ pre ++ post, sizeFlags m d.addr = d.word ∧ prevSize m d.addr = d.prev := by
    intro d hd
    have apart : ∀ y ∈ ys, d.addr + 8 ≤ y ∨ y + 8 ≤ d.addr := by
      intro y hy
      have at_y := within y hy
      rcases mem_append.mp hd with hd | hd
      · have := before d hd; omega
      · have := behind d hd; omega
    have in_old : d ∈ pre ++ old ++ c :: post := by
      rcases mem_append.mp hd with hd | hd
      · exact mem_append_left _ (mem_append_left _ hd)
      · exact mem_append_right _ (.tail _ hd)
    obtain ⟨word, prev⟩ := h.headers d in_old
    exact ⟨(stores.sizeFlags apart).trans word, (stores.prevSize apart).trans prev⟩
  have listed_links : ∀ k y, y ∈ free k →
      nextLink t m y = nextLink t p.mem y ∧ prevLink t m y = prevLink t p.mem y := by
    intro k y hy
    obtain ⟨shown, f, hf, e, free_f, -⟩ := h.listed_block hy
    refine stores.links t fun z hz => ?_
    have at_z := within z hz
    rw [← e]
    rcases mem_append.mp hf with hf | hf
    · rcases mem_append.mp hf with hf | hf
      · have := before f hf; omega
      · rcases old_out f hf with used | hid
        · rw [free_f] at used; cases used
        · exact absurd (e ▸ hid) shown
    · rcases mem_cons.mp hf with rfl | hf
      · omega
      · have := behind f hf; omega
  refine ⟨?_, ?_⟩
  · refine
      { initialized := h.initialized
        start_pos := h.start_pos
        start_aligned := h.start_aligned
        layout := h.layout.replace ne was now
        finish_gt := h.finish_gt
        room := h.room
        addresses := h.addresses
        headers := fun d hd => ?_
        linked := fun k => ?_
        distinct := h.distinct
        listed := fun k x => ?_ }
    · rcases mem_append.mp hd with hd | hd
      · rcases mem_append.mp hd with hd | hd
        · exact header d (mem_append_left _ hd)
        · exact mid_headers d hd
      · rcases mem_cons.mp hd with rfl | hd
        · exact c_header
        · exact header d (mem_append_right _ hd)
    · obtain ⟨last', segment⟩ := h.linked k
      exact ⟨last', segment.congr fun y hy => listed_links k y hy⟩
    · rw [h.listed]
      constructor
      · rintro ⟨shown, d, hd, rfl, free_d, class_d⟩
        rcases mem_append.mp hd with hd | hd
        · rcases mem_append.mp hd with hd | hd
          · exact ⟨fun hid => shown ((others d (mem_append_left _ hd)).mp hid), d,
              mem_append_left _ (mem_append_left _ hd), rfl, free_d, class_d⟩
          · rcases old_out d hd with used | hid
            · rw [free_d] at used; cases used
            · exact absurd hid shown
        · have here := fun hid => shown ((others d (mem_append_right _ hd)).mp hid)
          rcases mem_cons.mp hd with rfl | hd
          · exact ⟨here, _, mem_append_right _ (.head _), rfl, free_d, class_d⟩
          · exact ⟨here, d, mem_append_right _ (.tail _ hd), rfl, free_d, class_d⟩
      · rintro ⟨shown, d, hd, rfl, free_d, class_d⟩
        rcases mem_append.mp hd with hd | hd
        · rcases mem_append.mp hd with hd | hd
          · exact ⟨fun hid => shown ((others d (mem_append_left _ hd)).mpr hid), d,
              mem_append_left _ (mem_append_left _ hd), rfl, free_d, class_d⟩
          · rcases mid_out d hd with used | hid
            · rw [free_d] at used; cases used
            · exact absurd hid shown
        · rcases mem_cons.mp hd with rfl | hd
          · have in_c : c ∈ pre ++ c :: post := mem_append_right _ (.head _)
            exact ⟨fun hid => shown ((others c in_c).mpr hid), c, old_mem c in_c, rfl, free_d, class_d⟩
          · have in_d : d ∈ pre ++ c :: post := mem_append_right _ (.tail _ hd)
            exact ⟨fun hid => shown ((others d in_d).mpr hid), d, old_mem d in_d, rfl, free_d, class_d⟩
  · intro u hu z lo hi
    apply stores z
    intro y hy
    have at_y := within y hy
    rcases mem_append.mp hu with hu | hu
    · have := before u hu; omega
    · rcases mem_cons.mp hu with rfl | hu
      · omega
      · have := behind u hu; omega

/-- The facts about a block that `retile` asks for. -/
theorem Heap.around (h : Heap t p (pre ++ old ++ c :: post) hidden free) (ne : old ≠ [])
    (was : Tiles t a₀ p₀ old a₁ p₁) {d : Block} (hd : d ∈ pre ++ c :: post) : d.addr + 16 ≤ a₀ ∨ a₁ ≤ d.addr := by
  have pos := (minimum_pos t).1
  obtain ⟨first, second⟩ := h.layout.split ne was
  rcases mem_append.mp hd with hd | hd
  · have := first.within.2 d hd
    exact .inl (by omega)
  · exact .inr (second.within.2 d hd).1

theorem tiles_singleton {b : Block} (aligned : 8 ∣ b.size) (min : minimumBlockSize t ≤ b.size) :
    Tiles t b.addr b.prev [b] (b.addr + b.size) b.size :=
  ⟨rfl, rfl, aligned, min, rfl, rfl⟩

end Retile

/-! ## Allocation -/

section Take
variable {t : Arch} {p : Pool} {pre post : List Block} {b c : Block} {free : Nat × Nat → List Nat}

/-- What taking a free block leaves in its place: a used block, and perhaps a free rest. -/
inductive Taken (b : Block) (needed : Nat) : List Block → Prop
  | whole (fits : needed ≤ b.size) : Taken b needed [{ b with used := true }]
  | split (rest : Block) (free : rest.used = false) : Taken b needed [⟨b.addr, needed, b.prev, true⟩, rest]

theorem mem_middle (pre : List Block) (b : Block) (post : List Block) : b ∈ pre ++ [b] ++ post :=
  mem_append_left _ (mem_append_right _ (.head _))

theorem Heap.splitBlock (h : Heap t p (pre ++ [b] ++ c :: post) [b.addr] free) {needed : Nat}
    (aligned : 8 ∣ needed) (min : minimumBlockSize t ≤ needed)
    (room : needed + minimumBlockSize t ≤ b.size) {m : Mem}
    (hm : m = setPrevSize (blockSet (setPrevSize (blockSet p.mem (b.addr + needed) (b.size - needed)
      false) (b.addr + needed) needed) b.addr needed true) (b.addr + b.size) (b.size - needed)) :
    Heap t { p with mem := m } (pre ++ [⟨b.addr, needed, b.prev, true⟩,
        ⟨b.addr + needed, b.size - needed, needed, false⟩] ++
        { c with prev := b.size - needed } :: post) [b.addr + needed] free ∧
      ∀ u ∈ pre ++ c :: post, Untouched p.mem m u := by
  have pos := (minimum_pos t).1
  have hb := mem_middle pre b (c :: post)
  have hc : c ∈ pre ++ [b] ++ c :: post := mem_append_right _ (.head _)
  have b_aligned := (h.aligned hb).2
  have small := h.size_lt hb
  have rest_aligned : 8 ∣ b.size - needed := Nat.dvd_sub b_aligned aligned
  have was := tiles_singleton (t := t) (b := b) b_aligned (by omega)
  have at_c : c.addr = b.addr + b.size := (h.layout.split (cons_ne_nil _ _) was).2.head.1
  have now : Tiles t b.addr b.prev [⟨b.addr, needed, b.prev, true⟩,
      ⟨b.addr + needed, b.size - needed, needed, false⟩] (b.addr + b.size) (b.size - needed) :=
    ⟨rfl, rfl, aligned, min, rfl, rfl, rest_aligned,
      Nat.le_sub_of_add_le (by rw [add_comm]; exact room), by simp only; omega, rfl⟩
  have stores := (((blockSet_stores p.mem (b.addr + needed) (b.size - needed) false).trans
    (setPrevSize_stores _ (b.addr + needed) needed)).trans
    (blockSet_stores _ b.addr needed true)).trans
    (setPrevSize_stores _ (b.addr + b.size) (b.size - needed))
  rw [← hm] at stores
  refine h.retile (cons_ne_nil _ _) was now stores ?_ ?_ ?_ ?_ ?_ ?_
  · intro y hy
    simp only [mem_append, mem_singleton] at hy
    omega
  · intro d hd
    rcases mem_cons.mp hd with rfl | hd
    · constructor
      · rw [hm, sizeFlags_setPrevSize _ _ _ _ (by simp only; omega)]
        exact sizeFlags_blockSet _ _ _ aligned (by omega)
      · rw [hm, prevSize_setPrevSize_of_apart _ _ _ _ (by simp only; omega),
          prevSize_blockSet _ _ _ _ _ (.inr (le_refl _)),
          prevSize_setPrevSize_of_apart _ _ _ _ (by omega), prevSize_blockSet _ _ _ _ _ (by omega)]
        exact (h.headers b hb).2
    · rw [mem_singleton.mp hd]
      constructor
      · rw [hm, sizeFlags_setPrevSize _ _ _ _ (by simp only; omega),
          sizeFlags_blockSet_of_apart _ _ _ _ _ (by simp only; omega), sizeFlags_setPrevSize _ _ _ _ (.inl (le_refl _))]
        exact sizeFlags_blockSet _ _ _ rest_aligned (by omega)
      · rw [hm, prevSize_setPrevSize_of_apart _ _ _ _ (by simp only; omega),
          prevSize_blockSet _ _ _ _ _ (by simp only; omega)]
        exact prevSize_setPrevSize _ _ (by omega)
  · rw [at_c, hm]
    constructor
    · rw [sizeFlags_setPrevSize _ _ _ _ (.inl (le_refl _)),
        sizeFlags_blockSet_of_apart _ _ _ _ _ (by omega), sizeFlags_setPrevSize _ _ _ _ (by omega),
        sizeFlags_blockSet_of_apart _ _ _ _ _ (by omega), ← at_c]
      exact (h.headers c hc).1
    · exact prevSize_setPrevSize _ _ (by omega)
  · intro d hd
    rw [mem_singleton.mp hd]
    exact .inr (.head _)
  · intro d hd
    rcases mem_cons.mp hd with rfl | hd
    · exact .inl rfl
    · rw [mem_singleton.mp hd]
      exact .inr (.head _)
  · intro d hd
    have away := h.around (cons_ne_nil _ _) was hd
    rw [mem_singleton, mem_singleton]
    omega

theorem Heap.markBlock {hidden : List Nat} (hidden' : List Nat) (used : Bool)
    (h : Heap t p (pre ++ [b] ++ c :: post) hidden free) (real : minimumBlockSize t ≤ b.size)
    (was_out : b.used = true ∨ b.addr ∈ hidden) (is_out : used = true ∨ b.addr ∈ hidden')
    (others : ∀ d ∈ pre ++ c :: post, d.addr ∈ hidden' ↔ d.addr ∈ hidden) {m : Mem} {ys : List Nat}
    (stores : HeaderStores p.mem m ys) (within : ∀ y ∈ ys, y = b.addr ∨ y = b.addr + b.size)
    (header : sizeFlags m b.addr = b.size + (if used then 1 else 0))
    (prev : prevSize m b.addr = b.prev)
    (next : sizeFlags m c.addr = sizeFlags p.mem c.addr ∧ prevSize m c.addr = b.size) :
    Heap t { p with mem := m } (pre ++ [{ b with used }] ++ c :: post) hidden' free ∧
      ∀ u ∈ pre ++ c :: post, Untouched p.mem m u := by
  have pos := (minimum_pos t).1
  have hb := mem_middle pre b (c :: post)
  have hc : c ∈ pre ++ [b] ++ c :: post := mem_append_right _ (.head _)
  have b_aligned := (h.aligned hb).2
  have was := tiles_singleton (t := t) (b := b) b_aligned real
  have now : Tiles t b.addr b.prev [{ b with used }] (b.addr + b.size) b.size :=
    tiles_singleton (t := t) (b := { b with used }) b_aligned real
  have c_prev : c.prev = b.size := (h.layout.split (cons_ne_nil _ _) was).2.head.2
  have same_c : { c with prev := b.size } = c := by rw [← c_prev]
  have result : Heap t { p with mem := m }
      (pre ++ [{ b with used }] ++ { c with prev := b.size } :: post) hidden' free ∧
      ∀ u ∈ pre ++ c :: post, Untouched p.mem m u := by
    refine h.retile (cons_ne_nil _ _) was now stores ?_ ?_ ?_ ?_ ?_ others
    · intro y hy
      rcases within y hy with rfl | rfl
      · exact .inl ⟨le_rfl, by omega⟩
      · exact .inr rfl
    · intro d hd
      rw [mem_singleton.mp hd]
      exact ⟨header, prev⟩
    · exact ⟨next.1.trans (h.headers c hc).1, next.2⟩
    · intro d hd
      rw [mem_singleton.mp hd]
      exact was_out
    · intro d hd
      rw [mem_singleton.mp hd]
      exact is_out
  rwa [same_c] at result

/-- What an operation on a pool keeps: its extent, and the used blocks but the one at `except`,
with all bytes of their payloads. -/
structure Kept (p p' : Pool) (l l' : List Block) (except : Nat) : Prop where
  start : p'.start = p.start
  finish : p'.finish = p.finish
  blocks : ∀ u ∈ l, u.used = true → u.addr ≠ except → Untouched p.mem p'.mem u ∧
    ∃ u' ∈ l', u'.addr = u.addr ∧ u'.size = u.size ∧ u'.used = true

theorem Kept.refl (p : Pool) (l : List Block) (except : Nat) : Kept p p l l except :=
  ⟨rfl, rfl, fun u hu used _ => ⟨fun _ _ _ => rfl, u, hu, rfl, rfl, used⟩⟩

theorem Kept.trans {p p' p'' : Pool} {l l' l'' : List Block} {except : Nat}
    (h : Kept p p' l l' except) (h' : Kept p' p'' l' l'' except) : Kept p p'' l l'' except := by
  refine ⟨h'.start.trans h.start, h'.finish.trans h.finish, fun u hu used ne => ?_⟩
  obtain ⟨same, u', hu', addr, size, used'⟩ := h.blocks u hu used ne
  obtain ⟨same', u'', hu'', addr', size', used''⟩ := h'.blocks u' hu' used' (by rw [addr]; exact ne)
  refine ⟨fun z lo hi => ?_, u'', hu'', addr'.trans addr, size'.trans size, used''⟩
  exact (same' z (by omega) (by omega)).trans (same z lo hi)

theorem SameExtent.kept {p p' : Pool} {l : List Block} (h : SameExtent p p' l) (except : Nat) : Kept p p' l l except :=
  ⟨h.start, h.finish, fun u hu used _ => ⟨h.payloads u hu used, u, hu, rfl, rfl, used⟩⟩

theorem Kept.of_retile {old mid : List Block} {m : Mem} {except last : Nat}
    (same : ∀ u ∈ pre ++ c :: post, Untouched p.mem m u)
    (gone : ∀ d ∈ old, d.used = true → d.addr = except) :
    Kept p { p with mem := m } (pre ++ old ++ c :: post) (pre ++ mid ++ { c with prev := last } :: post)
      except := by
  refine ⟨rfl, rfl, fun u hu used ne => ?_⟩
  rcases mem_append.mp hu with hu | hu
  · rcases mem_append.mp hu with hu | hu
    · exact ⟨same u (mem_append_left _ hu), u, mem_append_left _ (mem_append_left _ hu), rfl, rfl, used⟩
    · exact absurd (gone u hu used) ne
  · refine ⟨same u (mem_append_right _ hu), ?_⟩
    rcases mem_cons.mp hu with rfl | hu
    · exact ⟨_, mem_append_right _ (.head _), rfl, rfl, used⟩
    · exact ⟨u, mem_append_right _ (.tail _ hu), rfl, rfl, used⟩

/-- **Taking a free block** leaves a used block of the needed size, and the rest as a free block when it is large
enough for one. -/
theorem Heap.takeBlock (h : Heap t p (pre ++ [b] ++ c :: post) [] free) (is_free : b.used = false)
    {needed : Nat} (aligned : 8 ∣ needed) (min : minimumBlockSize t ≤ needed) (fits : needed ≤ b.size) :
    ∃ mid last free', Taken b needed mid ∧
      Heap t (takeBlock t p b.addr needed).2 (pre ++ mid ++ { c with prev := last } :: post) [] free' ∧
      (takeBlock t p b.addr needed).1 = b.addr + 8 ∧
      Kept p (takeBlock t p b.addr needed).2 (pre ++ [b] ++ c :: post)
        (pre ++ mid ++ { c with prev := last } :: post) b.addr := by
  have pos := (minimum_pos t).1
  have hb := mem_middle pre b (c :: post)
  have b_aligned := (h.aligned hb).2
  have small := h.size_lt hb
  have real := h.real_of_free hb is_free
  have was := tiles_singleton (t := t) (b := b) b_aligned real
  have at_c : c.addr = b.addr + b.size := (h.layout.split (cons_ne_nil _ _) was).2.head.1
  have c_prev : c.prev = b.size := (h.layout.split (cons_ne_nil _ _) was).2.head.2
  obtain ⟨⟨free₁, h₁⟩, extent⟩ := h.removeFree hb is_free not_mem_nil
  have size := h₁.blockSize hb
  by_cases large : minimumBlockSize t ≤ b.size - needed
  · have word : sizeFlags (blockSet (setPrevSize (blockSet (Pool.removeFree t p b.addr).mem
        (b.addr + needed) (b.size - needed) false) (b.addr + needed) needed) b.addr needed true)
        (b.addr + needed) = Block.word ⟨b.addr + needed, b.size - needed, needed, false⟩ := by
      rw [sizeFlags_blockSet_of_apart _ _ _ _ _ (by omega), sizeFlags_setPrevSize _ _ _ _ (.inl (le_refl _))]
      exact sizeFlags_blockSet _ _ _ (Nat.dvd_sub b_aligned aligned) (by omega)
    have behind : nextBlock (blockSet (setPrevSize (blockSet (Pool.removeFree t p b.addr).mem
        (b.addr + needed) (b.size - needed) false) (b.addr + needed) needed) b.addr needed true)
        (b.addr + needed) = b.addr + b.size := by
      unfold nextBlock
      rw [blockSize_of_word word (Nat.dvd_sub b_aligned aligned)]
      simp only
      omega
    obtain ⟨h₂, same⟩ := h₁.splitBlock aligned min (by omega) rfl
    have rest_mem : (⟨b.addr + needed, b.size - needed, needed, false⟩ : Block) ∈
        pre ++ [⟨b.addr, needed, b.prev, true⟩, ⟨b.addr + needed, b.size - needed, needed, false⟩] ++
          { c with prev := b.size - needed } :: post :=
      mem_append_left _ (mem_append_right _ (.tail _ (.head _)))
    obtain ⟨⟨free₃, h₃⟩, extent'⟩ := h₂.insertFree rest_mem rfl not_mem_nil
    have unfolded : Pool.takeBlock t p b.addr needed = (b.addr + 8, Pool.insertFree t
        { Pool.removeFree t p b.addr with
          mem := setPrevSize (blockSet (setPrevSize (blockSet (Pool.removeFree t p b.addr).mem
            (b.addr + needed) (b.size - needed) false) (b.addr + needed) needed) b.addr needed true)
            (b.addr + b.size) (b.size - needed) } (b.addr + needed)) := by
      simp only [Pool.takeBlock, size, if_pos large, behind]
    rw [unfolded]
    refine ⟨_, _, free₃, .split _ rfl, h₃, rfl, ?_⟩
    refine (extent.kept b.addr).trans (Kept.trans (Kept.of_retile same ?_) (extent'.kept b.addr))
    intro d hd _
    rw [mem_singleton.mp hd]
  · have set : sizeFlags (blockSet (Pool.removeFree t p b.addr).mem b.addr b.size true) b.addr =
        b.size + 1 := sizeFlags_blockSet _ _ true b_aligned small
    have set_size : Pool.blockSize (blockSet (Pool.removeFree t p b.addr).mem b.addr b.size true) b.addr =
        b.size := blockSize_of_word (b := { b with used := true }) set b_aligned
    have unfolded : Pool.takeBlock t p b.addr needed = (b.addr + 8,
        { Pool.removeFree t p b.addr with
          mem := setPrevSize (blockSet (Pool.removeFree t p b.addr).mem b.addr b.size true)
            (b.addr + b.size) b.size }) := by
      simp only [Pool.takeBlock, size, if_neg large, set_size, nextBlock]
    rw [unfolded]
    obtain ⟨h₂, same⟩ := h₁.markBlock [] true real (.inr (.head _)) (.inl rfl)
      (fun d hd => by
        have away := h.around (cons_ne_nil _ _) was hd
        rw [mem_singleton]
        exact ⟨fun c => (by cases c), fun c => (by omega)⟩)
      ((blockSet_stores _ b.addr b.size true).trans (setPrevSize_stores _ (b.addr + b.size) b.size))
      (fun y hy => by simpa using hy)
      (by rw [sizeFlags_setPrevSize _ _ _ _ (by omega)]; exact set)
      (by rw [prevSize_setPrevSize_of_apart _ _ _ _ (by omega), prevSize_blockSet _ _ _ _ _ (.inr (le_refl _))]
          exact (h₁.headers b hb).2)
      ⟨by rw [at_c, sizeFlags_setPrevSize _ _ _ _ (.inl (le_refl _)),
            sizeFlags_blockSet_of_apart _ _ _ _ _ (by omega)], by rw [at_c]; exact prevSize_setPrevSize _ _ small⟩
    have same_c : { c with prev := b.size } = c := by rw [← c_prev]
    refine ⟨[{ b with used := true }], b.size, free₁, .whole fits, ?_, rfl, ?_⟩
    · rw [same_c]; exact h₂
    · refine (extent.kept b.addr).trans (Kept.of_retile same ?_)
      intro d hd _
      rw [mem_singleton.mp hd]

end Take

/-! ## Release -/

section Release
variable {t : Arch} {p : Pool} {pre post : List Block} {a b c : Block}
  {hidden hidden' : List Nat} {free : Nat × Nat → List Nat}

theorem Heap.mergeBlocks (h : Heap t p (pre ++ [a, b] ++ c :: post) hidden free)
    (free_a : a.used = false) (out_a : a.addr ∈ hidden) (out_b : b.addr ∈ hidden) (still_out : a.addr ∈ hidden')
    (others : ∀ d ∈ pre ++ c :: post, d.addr ∈ hidden' ↔ d.addr ∈ hidden) :
    let m := setPrevSize (blockSet p.mem a.addr (a.size + b.size) false) (a.addr + (a.size + b.size))
      (a.size + b.size)
    nextBlock (blockSet p.mem a.addr (a.size + b.size) false) a.addr = a.addr + (a.size + b.size) ∧
      Heap t { p with mem := m }
        (pre ++ [{ a with size := a.size + b.size }] ++ { c with prev := a.size + b.size } :: post)
        hidden' free ∧
      ∀ u ∈ pre ++ c :: post, Untouched p.mem m u := by
  intro m
  have pos := (minimum_pos t).1
  have ha : a ∈ pre ++ [a, b] ++ c :: post := mem_append_left _ (mem_append_right _ (.head _))
  have hb : b ∈ pre ++ [a, b] ++ c :: post := mem_append_left _ (mem_append_right _ (.tail _ (.head _)))
  have hc : c ∈ pre ++ [a, b] ++ c :: post := mem_append_right _ (.head _)
  have aligned := Nat.dvd_add (h.aligned ha).2 (h.aligned hb).2
  have layout := h.layout
  rw [append_assoc] at layout
  obtain ⟨x, q, first, h1, h2, h3, h4, h5, h6, h7, h8, tail⟩ := (layout_append (cons_ne_nil _ _)).mp layout
  have was : Tiles t a.addr a.prev [a, b] (a.addr + (a.size + b.size)) b.size :=
    ⟨rfl, rfl, h3, h4, by omega, h6, h7, h8, by omega, rfl⟩
  have at_c : c.addr = a.addr + (a.size + b.size) := (h.layout.split (cons_ne_nil _ _) was).2.head.1
  have now : Tiles t a.addr a.prev [{ a with size := a.size + b.size }] (a.addr + (a.size + b.size))
      (a.size + b.size) := ⟨rfl, rfl, aligned, by simp only; omega, rfl, rfl⟩
  have small : a.size + b.size < 4294967296 := by
    have in_a := (h.layout.within.2 a ha).1
    have in_c := (h.layout.within.2 c hc).2.1
    have := h.room
    omega
  have set : sizeFlags (blockSet p.mem a.addr (a.size + b.size) false) a.addr = a.size + b.size :=
    sizeFlags_blockSet _ _ false aligned small
  refine ⟨?_, h.retile (cons_ne_nil _ _) was now
    ((blockSet_stores _ a.addr _ false).trans (setPrevSize_stores _ (a.addr + (a.size + b.size)) _))
    ?_ ?_ ?_ ?_ ?_ others⟩
  · unfold nextBlock
    rw [blockSize_of_word (b := { a with size := a.size + b.size }) ?_ aligned]
    rw [set, Block.word, free_a]
    rfl
  · intro y hy
    simp only [mem_append, mem_singleton] at hy
    omega
  · intro d hd
    rw [mem_singleton.mp hd]
    constructor
    · show sizeFlags m a.addr = _
      rw [Block.word, free_a, sizeFlags_setPrevSize _ _ _ _ (by omega), set]
      rfl
    · show prevSize m a.addr = a.prev
      rw [prevSize_setPrevSize_of_apart _ _ _ _ (by omega), prevSize_blockSet _ _ _ _ _ (.inr (le_refl _))]
      exact (h.headers a ha).2
  · constructor
    · rw [at_c, sizeFlags_setPrevSize _ _ _ _ (.inl (le_refl _)),
        sizeFlags_blockSet_of_apart _ _ _ _ _ (by omega), ← at_c]
      exact (h.headers c hc).1
    · rw [at_c]
      exact prevSize_setPrevSize _ _ small
  · intro d hd
    rcases mem_cons.mp hd with rfl | hd
    · exact .inr out_a
    · rw [mem_singleton.mp hd]
      exact .inr out_b
  · intro d hd
    rw [mem_singleton.mp hd]
    exact .inr still_out

theorem Heap.mergeFollowing (h : Heap t p (pre ++ [b] ++ c :: post) [b.addr] free)
    (free_b : b.used = false) :
    (c.used = true ∧ mergeFollowing t p b.addr = p) ∨ (c.used = false ∧ ∃ d rest free', post = d :: rest ∧
        Heap t (mergeFollowing t p b.addr)
          (pre ++ [{ b with size := b.size + c.size }] ++ { d with prev := b.size + c.size } :: rest)
          [b.addr] free' ∧
        Kept p (mergeFollowing t p b.addr) (pre ++ [b] ++ c :: post)
          (pre ++ [{ b with size := b.size + c.size }] ++ { d with prev := b.size + c.size } :: rest)
          b.addr) := by
  have pos := (minimum_pos t).1
  have hb := mem_middle pre b (c :: post)
  have hc : c ∈ pre ++ [b] ++ c :: post := mem_append_right _ (.head _)
  have real := h.real_of_free hb free_b
  have was := tiles_singleton (t := t) (b := b) (h.aligned hb).2 real
  have second := (h.layout.split (cons_ne_nil _ _) was).2
  have at_c : c.addr = b.addr + b.size := second.head.1
  have following : nextBlock p.mem b.addr = c.addr := by rw [nextBlock, h.blockSize hb, at_c]
  have size_c := h.blockSize hc
  have used_c := h.blockIsUsed hc
  cases flag : c.used with
  | true =>
    left
    refine ⟨rfl, ?_⟩
    rw [flag] at used_c
    simp only [Pool.mergeFollowing, following, used_c, Bool.true_eq_false, and_false, if_false]
  | false =>
    right
    rw [flag] at used_c
    have real_c := h.real_of_free hc flag
    have ne : c.size ≠ 0 := by omega
    obtain ⟨d, rest, rfl⟩ : ∃ d rest, post = d :: rest := by
      cases post with
      | nil => exact absurd second.2.2.1 ne
      | cons d rest => exact ⟨d, rest, rfl⟩
    have hidden_c : c.addr ∉ [b.addr] := by rw [mem_singleton]; omega
    obtain ⟨⟨free₁, h₁⟩, extent⟩ := h.removeFree hc flag hidden_c
    have shape : pre ++ [b] ++ c :: d :: rest = pre ++ [b, c] ++ d :: rest := by simp
    rw [shape] at h₁ extent hb hc ⊢
    have d_away : ∀ u ∈ pre ++ d :: rest, u.addr ∈ [b.addr] ↔ u.addr ∈ [c.addr, b.addr] := by
      intro u hu
      have away := h₁.around (cons_ne_nil _ _)
        (⟨rfl, rfl, (h₁.aligned hb).2, real, at_c, second.head.2, (h₁.aligned hc).2, real_c, rfl, rfl⟩ :
          Tiles t b.addr b.prev [b, c] (b.addr + b.size + c.size) c.size) hu
      simp only [mem_cons, not_mem_nil, or_false]
      omega
    obtain ⟨behind, h₂, same⟩ := h₁.mergeBlocks free_b
      (.tail _ (.head _)) (.head _) (.head _) d_away
    refine ⟨rfl, d, rest, free₁, rfl, ?_⟩
    have unfolded : Pool.mergeFollowing t p b.addr =
        { Pool.removeFree t p c.addr with
          mem := setPrevSize (blockSet (Pool.removeFree t p c.addr).mem b.addr (b.size + c.size) false)
            (b.addr + (b.size + c.size)) (b.size + c.size) } := by
      simp only [Pool.mergeFollowing, following, size_c, used_c, ne_eq, ne, not_false_eq_true, and_self,
        if_true, h₁.blockSize hb, h₁.blockSize hc, behind]
    rw [unfolded]
    refine ⟨h₂, (extent.kept b.addr).trans (Kept.of_retile same ?_)⟩
    intro e he used
    rcases mem_cons.mp he with rfl | he
    · rfl
    · rw [mem_singleton.mp he, flag] at used; cases used

theorem Heap.mergePrevious (h : Heap t p (pre ++ [b] ++ c :: post) [b.addr] free)
    (free_b : b.used = false) :
    ((∀ a : Block, a ∈ pre.getLast? → a.used = true) ∧ mergePrevious t p b.addr = (p, b.addr)) ∨
      (∃ (front : List Block) (a : Block) (free' : Nat × Nat → List Nat), pre = front ++ [a] ∧ a.used = false ∧
        (mergePrevious t p b.addr).2 = a.addr ∧
        Heap t (mergePrevious t p b.addr).1
          (front ++ [{ a with size := a.size + b.size }] ++ { c with prev := a.size + b.size } :: post)
          [a.addr] free' ∧
        Kept p (mergePrevious t p b.addr).1 (pre ++ [b] ++ c :: post)
          (front ++ [{ a with size := a.size + b.size }] ++ { c with prev := a.size + b.size } :: post)
          b.addr) := by
  have pos := (minimum_pos t).1
  have hb := mem_middle pre b (c :: post)
  have hc : c ∈ pre ++ [b] ++ c :: post := mem_append_right _ (.head _)
  have real := h.real_of_free hb free_b
  have was := tiles_singleton (t := t) (b := b) (h.aligned hb).2 real
  obtain ⟨first, -⟩ := h.layout.split (cons_ne_nil _ _) was
  have prev_b : prevSize p.mem b.addr = b.prev := (h.headers b hb).2
  rcases eq_nil_or_concat' pre with rfl | ⟨front, a, rfl⟩
  · left
    have none : b.prev = 0 := first.2
    refine ⟨fun a ha => (by cases ha), ?_⟩
    rw [Pool.mergePrevious, prev_b, none]
    rfl
  · have ha : a ∈ front ++ [a] ++ [b] ++ c :: post := mem_append_left _
      (mem_append_left _ (mem_append_right _ (.head _)))
    have in_front : a ∈ front ++ [a] := mem_append_right _ (.head _)
    have real_a := (first.within.2 a in_front).2.2.1
    obtain ⟨at_b, size_a⟩ := first.last
    have some_prev : b.prev ≠ 0 := by omega
    have previous : b.addr - b.prev = a.addr := by omega
    have used_a := h.blockIsUsed ha
    cases flag : a.used with
    | true =>
      left
      rw [flag] at used_a
      refine ⟨fun x hx => ?_, ?_⟩
      · rw [getLast?_concat] at hx
        cases hx
        exact flag
      · simp only [Pool.mergePrevious, prev_b, previous, used_a, ne_eq, some_prev, not_false_eq_true,
          if_true, Bool.true_eq_false, if_false]
    | false =>
      right
      rw [flag] at used_a
      have hidden_a : a.addr ∉ [b.addr] := by rw [mem_singleton]; omega
      obtain ⟨⟨free₁, h₁⟩, extent⟩ := h.removeFree ha flag hidden_a
      have shape : front ++ [a] ++ [b] ++ c :: post = front ++ [a, b] ++ c :: post := by simp
      rw [shape] at h₁ extent ha hb hc ⊢
      have away : ∀ u ∈ front ++ c :: post, u.addr ∈ [a.addr] ↔ u.addr ∈ [a.addr, b.addr] := by
        intro u hu
        have apart := h₁.around (cons_ne_nil _ _)
          (⟨rfl, rfl, (h₁.aligned ha).2, real_a, at_b, size_a, (h₁.aligned hb).2, real, rfl, rfl⟩ :
            Tiles t a.addr a.prev [a, b] (a.addr + a.size + b.size) b.size) hu
        simp only [mem_cons, not_mem_nil, or_false]
        omega
      obtain ⟨behind, h₂, same⟩ := h₁.mergeBlocks flag (.head _)
        (.tail _ (.head _)) (.head _) away
      have unfolded : Pool.mergePrevious t p b.addr =
          ({ Pool.removeFree t p a.addr with
            mem := setPrevSize (blockSet (Pool.removeFree t p a.addr).mem a.addr (a.size + b.size) false)
              (a.addr + (a.size + b.size)) (a.size + b.size) }, a.addr) := by
        simp only [Pool.mergePrevious, prev_b, previous, used_a, ne_eq, some_prev, not_false_eq_true,
          if_true, h₁.blockSize ha, h₁.blockSize hb, behind]
      rw [unfolded]
      refine ⟨front, a, free₁, rfl, flag, rfl, h₂, (extent.kept b.addr).trans (Kept.of_retile same ?_)⟩
      intro e he used
      rcases mem_cons.mp he with rfl | he
      · rw [flag] at used; cases used
      · rw [mem_singleton.mp he]

end Release

end PhpPico.Pool
