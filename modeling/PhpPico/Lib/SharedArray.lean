import Mathlib.Data.List.Infix
import Mathlib.Tactic.Common

/-!
# Growable arrays reached through copied heads

An array lives in a block of a heap; a head holds the block's address, the number of elements and the capacity. Heads
are copied by value: a store through one shows in the block another reads, and growing through one may free it.
-/

namespace SharedArray
open List Option

variable {α : Type}

/-- The written cells of each block, `none` once it is freed. -/
abbrev Heap (α : Type) := List (Option (List α))

/-- An allocated block and the number of elements it has room for. -/
structure Storage where
  addr : Nat
  capacity : Nat
deriving DecidableEq, Repr

structure Head where
  storage : Option Storage
  count : Nat
deriving DecidableEq, Repr

def Head.empty : Head := ⟨none, 0⟩

def Head.addr (h : Head) : Option Nat := h.storage.map Storage.addr

/-- A head that has allocated nothing has no room. -/
def Head.capacity (h : Head) : Nat := (h.storage.map Storage.capacity).getD 0

/-- The first `n` elements as an array of their own. -/
def Head.truncate (h : Head) (n : Nat) : Head := { h with count := n }

/-- The cells behind an address: the null address has none, a freed block is not there. -/
def block (m : Heap α) : Option Nat → Option (List α)
  | none => some []
  | some a => (m[a]?).join

/-- The elements a head sees. -/
def read (m : Heap α) (h : Head) : Option (List α) :=
  (block m h.addr).bind fun cells => if h.count ≤ cells.length then some (cells.take h.count) else none

/-- Write cell `i`, one past the written ones at most. -/
def writeCell (cells : List α) (i : Nat) (x : α) : List α := cells.take i ++ x :: cells.drop (i + 1)

def store (m : Heap α) (h : Head) (x : α) : Heap α × Head :=
  match h.addr with
  | none => (m, h)
  | some a =>
    (m.set a ((block m h.addr).map fun cells => writeCell cells h.count x),
      { h with count := h.count + 1 })

/-- `realloc` to twice the capacity: an empty head gets a fresh block, an old block is widened where it is, or copied
and freed. -/
def grow (moved : Bool) (m : Heap α) (h : Head) : Heap α × Head :=
  match h.storage with
  | none => (m ++ [some []], { h with storage := some ⟨m.length, 8⟩ })
  | some s =>
    if moved then
      (m.set s.addr none ++ [block m h.addr], { h with storage := some ⟨m.length, 2 * s.capacity⟩ })
    else (m, { h with storage := some ⟨s.addr, 2 * s.capacity⟩ })

/-- Append an element, growing a full array first. -/
def push (moved : Bool) (m : Heap α) (h : Head) (x : α) : Heap α × Head :=
  if h.count = h.capacity then store (grow moved m h).1 (grow moved m h).2 x else store m h x

/-- Keep the elements `keep` accepts, moved to the front of the block. -/
def compact (m : Heap α) (h : Head) (keep : α → Bool) : Heap α × Head :=
  match h.addr with
  | none => (m, h)
  | some a =>
    let kept := ((read m h).getD []).filter keep
    (m.set a ((block m h.addr).map fun cells => kept ++ cells.drop kept.length),
      { h with count := kept.length })

/-! ## What a head still sees -/

/-- The head is as long as `d`, and a live block behind it begins with `d`. -/
def Keeps (m : Heap α) (d : List α) (h : Head) : Prop :=
  d.length ≤ h.count ∧ ∀ cells, block m h.addr = some cells → d <+: cells

/-- The head's block has not been freed. -/
def Live (m : Heap α) (h : Head) : Prop := (read m h).isSome

instance (m : Heap α) (h : Head) : Decidable (Live m h) := inferInstanceAs (Decidable (_ = true))

variable {m : Heap α} {h g : Head} {xs d cells : List α} {i : Nat} {moved : Bool}

theorem read_eq_some : read m h = some xs ↔
      ∃ cells, block m h.addr = some cells ∧ h.count ≤ cells.length ∧ xs = cells.take h.count := by
  unfold read
  constructor
  · intro hr
    obtain ⟨cells, hb, hc⟩ := bind_eq_some_iff.mp hr
    split at hc
    · exact ⟨cells, hb, by assumption, (some.inj hc).symm⟩
    · cases hc
  · rintro ⟨cells, hb, hle, rfl⟩
    rw [hb, bind_some, if_pos hle]

theorem Live.exists_read (live : Live m h) : ∃ xs, read m h = some xs :=
  isSome_iff_exists.mp live

theorem read_length (hr : read m h = some xs) : xs.length = h.count := by
  obtain ⟨cells, -, hle, rfl⟩ := read_eq_some.mp hr
  rw [length_take, Nat.min_eq_left hle]

theorem keeps_of_read (hr : read m h = some xs) : Keeps m xs h := by
  obtain ⟨cells, hb, hle, rfl⟩ := read_eq_some.mp hr
  refine ⟨length_take_le .., fun cells' hb' => ?_⟩
  cases hb.symm.trans hb'
  exact take_prefix _ _

theorem Keeps.isPrefix (keeps : Keeps m d h) (hr : read m h = some xs) : d <+: xs := by
  obtain ⟨cells, hb, hle, rfl⟩ := read_eq_some.mp hr
  exact prefix_take_iff.mpr ⟨keeps.2 cells hb, keeps.1⟩

theorem Keeps.mono {d' : List α} (keeps : Keeps m d h) (sub : d' <+: d) : Keeps m d' h :=
  ⟨sub.length_le.trans keeps.1, fun cells hb => sub.trans (keeps.2 cells hb)⟩

theorem read_truncate (hr : read m h = some xs) {n : Nat}
    (hn : n ≤ h.count) : read m (h.truncate n) = some (xs.take n) := by
  obtain ⟨cells, hb, hle, rfl⟩ := read_eq_some.mp hr
  refine read_eq_some.mpr ⟨cells, hb, hn.trans hle, ?_⟩
  rw [take_take, Nat.min_eq_left hn]; rfl

/-! ## Appending -/

theorem writeCell_length (hi : i ≤ cells.length) (x : α) : i + 1 ≤ (writeCell cells i x).length := by
  simp only [writeCell, length_append, length_take, length_cons]; omega

theorem take_writeCell (hi : i ≤ cells.length) (x : α) : (writeCell cells i x).take (i + 1) = cells.take i ++ [x] := by
  have hlen : (cells.take i).length = i := by rw [length_take, Nat.min_eq_left hi]
  rw [writeCell, take_append, hlen, take_of_length_le (by omega), Nat.add_sub_cancel_left]
  rfl

theorem prefix_writeCell (hd : d <+: cells) (hi : d.length ≤ i) (x : α) : d <+: writeCell cells i x :=
  (prefix_take_iff.mpr ⟨hd, hi⟩).trans (prefix_append _ _)

theorem block_store {x : α} {a : Option Nat} (hb : block (store m h x).1 a = some cells) : block m a = some cells ∨
      (a = h.addr ∧ ∃ old, block m h.addr = some old ∧ cells = writeCell old h.count x) := by
  unfold store at hb
  cases haddr : h.addr with
  | none => left; simpa only [haddr] using hb
  | some b =>
    simp only [haddr] at hb
    cases a with
    | none => left; exact hb
    | some a =>
      by_cases hab : b = a
      · subst hab
        right
        refine ⟨rfl, ?_⟩
        simp only [block, getElem?_set_self'] at hb
        cases hm : m[b]? with
        | none => rw [hm] at hb; simp at hb
        | some o =>
          rw [hm] at hb
          cases o with
          | none => simp at hb
          | some old =>
            refine ⟨old, by simp [block, hm], ?_⟩
            simpa [block, hm] using hb.symm
      · left
        simpa only [block, getElem?_set_ne hab] using hb

theorem keeps_store (keeps : Keeps m d g) (pushed : Keeps m d h) (x : α) : Keeps (store m h x).1 d g := by
  refine ⟨keeps.1, fun cells hb => ?_⟩
  rcases block_store hb with old | ⟨-, old, hold, rfl⟩
  · exact keeps.2 cells old
  · exact prefix_writeCell (pushed.2 old hold) pushed.1 x

theorem read_store (hr : read m h = some xs) (alloc : h.addr.isSome) (x : α) :
    read (store m h x).1 (store m h x).2 = some (xs ++ [x]) := by
  obtain ⟨cells, hb, hle, rfl⟩ := read_eq_some.mp hr
  obtain ⟨a, ha⟩ := isSome_iff_exists.mp alloc
  have hma : m[a]? = some (some cells) := by
    rw [ha] at hb
    exact join_eq_some_iff.mp hb
  have hlt : a < m.length := (List.getElem?_eq_some_iff.mp hma).1
  have ha' : ({ h with count := h.count + 1 } : Head).addr = some a := ha
  refine read_eq_some.mpr ⟨writeCell cells h.count x, ?_, ?_, ?_⟩
  · simp only [store, ha, ha', block, hma, join_some, map_some, getElem?_set_self hlt]
  · simpa only [store, ha] using writeCell_length hle x
  · simpa only [store, ha] using (take_writeCell hle x).symm

/-- A block after growing is an old one, or the copy the grown head now names. -/
theorem block_grow {a : Option Nat} (hb : block (grow moved m h).1 a = some cells) :
    block m a = some cells ∨ block m h.addr = some cells := by
  unfold grow at hb
  cases hs : h.storage with
  | none =>
    have haddr : h.addr = none := by rw [Head.addr, hs]; rfl
    simp only [hs] at hb
    cases a with
    | none => left; exact hb
    | some a =>
      rcases lt_trichotomy a m.length with lt | rfl | gt
      · left; simpa only [block, getElem?_append_left lt] using hb
      · right; rw [haddr]; simpa [block] using hb
      · have out : (m ++ [some ([] : List α)]).length ≤ a := by simp; omega
        simp [block, getElem?_eq_none out] at hb
  | some s =>
    simp only [hs] at hb
    split at hb
    · cases a with
      | none => left; exact hb
      | some a =>
        rcases lt_trichotomy a m.length with lt | rfl | gt
        · left
          by_cases hab : s.addr = a
          · subst hab
            simp [block, getElem?_append_left, lt] at hb
          · simpa only [block, getElem?_append_left, List.length_set, lt, getElem?_set_ne hab] using hb
        · right
          simpa [block] using hb
        · simp only [block] at hb
          rw [getElem?_eq_none (by simp; omega)] at hb
          simp at hb
    · left; exact hb

theorem block_grow_self : block (grow moved m h).1 (grow moved m h).2.addr = block m h.addr := by
  unfold grow
  cases hs : h.storage with
  | none => simp [block, Head.addr, hs]
  | some s =>
    dsimp only
    split
    · simp [block, Head.addr]
    · simp [Head.addr, hs]

theorem grow_count : (grow moved m h).2.count = h.count ∧ (grow moved m h).2.addr.isSome := by
  unfold grow
  cases h.storage with
  | none => exact ⟨rfl, rfl⟩
  | some s => dsimp only; split <;> exact ⟨rfl, rfl⟩

theorem keeps_grow (keeps : Keeps m d g) (grown : Keeps m d h) : Keeps (grow moved m h).1 d g := by
  refine ⟨keeps.1, fun cells hb => ?_⟩
  rcases block_grow hb with old | copied
  · exact keeps.2 cells old
  · exact grown.2 cells copied

theorem keeps_grow_self (keeps : Keeps m d h) : Keeps (grow moved m h).1 d (grow moved m h).2 := by
  refine ⟨?_, fun cells hb => ?_⟩
  · rw [grow_count.1]; exact keeps.1
  · rw [block_grow_self] at hb; exact keeps.2 cells hb

theorem read_grow (hr : read m h = some xs) : read (grow moved m h).1 (grow moved m h).2 = some xs := by
  obtain ⟨cells, hb, hle, rfl⟩ := read_eq_some.mp hr
  refine read_eq_some.mpr ⟨cells, block_grow_self.trans hb, ?_, ?_⟩
  · rw [grow_count.1]; exact hle
  · rw [grow_count.1]

theorem addr_isSome (hr : read m h = some xs) (room : h.count ≠ h.capacity) : h.addr.isSome := by
  obtain ⟨cells, hb, hle, -⟩ := read_eq_some.mp hr
  cases hs : h.storage with
  | some s => simp [Head.addr, hs]
  | none =>
    simp only [Head.addr, hs, map_none, block, some.injEq] at hb
    subst hb
    simp only [Head.capacity, hs, map_none, getD_none, length_nil] at room hle
    omega

/-- **The head pushed through sees its elements and the new one.** -/
theorem read_push (hr : read m h = some xs)
    (x : α) : read (push moved m h x).1 (push moved m h x).2 = some (xs ++ [x]) := by
  unfold push
  split
  · exact read_store (read_grow hr) grow_count.2 x
  · exact read_store hr (addr_isSome hr (by assumption)) x

/-- **Pushing through a head keeps what every head sees of a prefix both share.** -/
theorem keeps_push (keeps : Keeps m d g) (pushed : Keeps m d h) (x : α) : Keeps (push moved m h x).1 d g := by
  unfold push
  split
  · exact keeps_store (keeps_grow keeps pushed) (keeps_grow_self pushed) x
  · exact keeps_store keeps pushed x

theorem keeps_store_self (keeps : Keeps m d h) (x : α) : Keeps (store m h x).1 d (store m h x).2 := by
  have kept := keeps_store keeps keeps x
  unfold store at kept ⊢
  cases haddr : h.addr with
  | none => exact keeps
  | some a =>
    rw [haddr] at kept
    exact ⟨Nat.le_succ_of_le kept.1, kept.2⟩

theorem keeps_push_self (keeps : Keeps m d h) (x : α) : Keeps (push moved m h x).1 d (push moved m h x).2 := by
  unfold push
  split
  · exact keeps_store_self (keeps_grow_self keeps) x
  · exact keeps_store_self keeps x

theorem block_store_self (there : (block m h.addr).isSome) (x : α) :
    (block (store m h x).1 (store m h x).2.addr).isSome := by
  obtain ⟨cells, at_block⟩ := isSome_iff_exists.mp there
  unfold store
  cases haddr : h.addr with
  | none =>
    rw [haddr] at at_block
    simp only [haddr, at_block, isSome_some]
  | some a =>
    rw [haddr] at at_block
    have at_a : m[a]? = some (some cells) := join_eq_some_iff.mp at_block
    have lt : a < m.length := (List.getElem?_eq_some_iff.mp at_a).1
    have same : ({ h with count := h.count + 1 } : Head).addr = some a := haddr
    simp only [same, block, getElem?_set_self lt, at_a, join_some, map_some, isSome_some]

theorem block_push_self (there : (block m h.addr).isSome) (x : α) :
    (block (push moved m h x).1 (push moved m h x).2.addr).isSome := by
  unfold push
  split
  · apply block_store_self
    rw [block_grow_self]
    exact there
  · exact block_store_self there x

theorem Keeps.truncate (keeps : Keeps m d h) {n : Nat} (hn : d.length ≤ n) : Keeps m d (h.truncate n) := ⟨hn, keeps.2⟩

/-- Cut back to what it keeps, a head sees just that unless its block has been freed. -/
theorem Keeps.read_truncate_iff (keeps : Keeps m d h) :
    read m (h.truncate d.length) = some d ↔ (block m h.addr).isSome := by
  rw [read_eq_some]
  constructor
  · rintro ⟨cells, there, -⟩
    exact isSome_iff_exists.mpr ⟨cells, there⟩
  · intro there
    obtain ⟨cells, there⟩ := isSome_iff_exists.mp there
    have pre := keeps.2 cells there
    exact ⟨cells, there, pre.length_le, prefix_iff_eq_take.mp pre⟩

/-! ## Compacting -/

theorem read_compact (hr : read m h = some xs) (keep : α → Bool) :
    read (compact m h keep).1 (compact m h keep).2 = some (xs.filter keep) := by
  obtain ⟨cells, hb, hle, hxs⟩ := read_eq_some.mp hr
  cases ha : h.addr with
  | none =>
    rw [ha] at hb
    cases hb
    have hnil : xs = [] := by simpa using hxs
    simp only [compact, ha]
    rw [hr, hnil, filter_nil]
  | some a =>
    have hma : m[a]? = some (some cells) := by
      rw [ha] at hb
      exact join_eq_some_iff.mp hb
    have hlt : a < m.length := (List.getElem?_eq_some_iff.mp hma).1
    have ha' : ∀ n, ({ h with count := n } : Head).addr = some a := fun n => ha
    refine read_eq_some.mpr
      ⟨xs.filter keep ++ cells.drop (xs.filter keep).length, ?_, ?_, ?_⟩
    · simp only [compact, ha, ha', hr, getD_some, block, getElem?_set_self hlt, hma, join_some, map_some]
    · simp only [compact, ha, hr, getD_some, length_append]; omega
    · simp only [compact, ha, hr, getD_some, take_left']

end SharedArray
