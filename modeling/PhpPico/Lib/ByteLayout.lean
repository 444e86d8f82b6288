import Mathlib.Algebra.Order.Ring.Int
import Mathlib.Tactic.Common
import Mathlib.Data.List.Basic

/-!
# Little-endian bytes and record layout

A buffer is a list of bytes. `HasAt buffer offset data`: the bytes `data` stand in `buffer` from `offset` on, as a
reader learns what a writer placed. `blit` overwrites part of a buffer, and `blitAll_records` turns writes into a
zeroed buffer, at `recordOffsets`, into the concatenation of the padded records.
-/

namespace ByteLayout
open List

/-! ## Words -/

/-- The two little-endian bytes of a 16-bit word. -/
def le16 (w : UInt16) : List UInt8 :=
  [UInt8.ofNat (w.toNat % 256), UInt8.ofNat (w.toNat / 256)]

/-- The four little-endian bytes of a 32-bit word. -/
def le32 (w : UInt32) : List UInt8 :=
  [UInt8.ofNat (w.toNat % 256), UInt8.ofNat (w.toNat / 256 % 256),
    UInt8.ofNat (w.toNat / 65536 % 256), UInt8.ofNat (w.toNat / 16777216)]

/-- The byte at an offset; reads past the end give zero. -/
def byteAt (bytes : List UInt8) (offset : Nat) : UInt8 := bytes.getD offset 0

def u16At (bytes : List UInt8) (offset : Nat) : UInt16 :=
  UInt16.ofNat ((byteAt bytes offset).toNat + 256 * (byteAt bytes (offset + 1)).toNat)

def u32At (bytes : List UInt8) (offset : Nat) : UInt32 :=
  UInt32.ofNat ((byteAt bytes offset).toNat + 256 * (byteAt bytes (offset + 1)).toNat +
    65536 * (byteAt bytes (offset + 2)).toNat + 16777216 * (byteAt bytes (offset + 3)).toNat)

@[simp] theorem le16_length (w : UInt16) : (le16 w).length = 2 := rfl

@[simp] theorem le32_length (w : UInt32) : (le32 w).length = 4 := rfl

/-! ## Data at an offset -/

/-- The bytes `data` stand in `bytes` from `offset` on. -/
def HasAt (bytes : List UInt8) (offset : Nat) (data : List UInt8) : Prop :=
  ∀ i x, data[i]? = some x → bytes[offset + i]? = some x

theorem HasAt.nil (bytes : List UInt8) (offset : Nat) : HasAt bytes offset [] := by
  intro i x h
  simp at h

variable {bytes data : List UInt8} {offset size : Nat} {sizes : List Nat} {records : List (List UInt8)}

theorem hasAt_append {left right : List UInt8} : HasAt bytes offset (left ++ right) ↔
      HasAt bytes offset left ∧ HasAt bytes (offset + left.length) right := by
  constructor
  · intro h
    refine ⟨fun i x hi => ?_, fun i x hi => ?_⟩
    · exact h i x (by rw [getElem?_append_left (List.getElem?_eq_some_iff.mp hi).1]; exact hi)
    · have := h (left.length + i) x (by rw [getElem?_append_right (by omega)]; simpa using hi)
      rwa [← add_assoc] at this
  · rintro ⟨hl, hr⟩ i x hi
    by_cases low : i < left.length
    · exact hl i x (by rwa [getElem?_append_left low] at hi)
    · rw [getElem?_append_right (by omega)] at hi
      have := hr (i - left.length) x hi
      rwa [show offset + left.length + (i - left.length) = offset + i by omega] at this

theorem hasAt_cons {rest : List UInt8} {x : UInt8} :
    HasAt bytes offset (x :: rest) ↔ bytes[offset]? = some x ∧ HasAt bytes (offset + 1) rest := by
  rw [show x :: rest = [x] ++ rest from rfl, hasAt_append]
  refine and_congr ⟨fun h => by simpa using h 0 x rfl, fun h i y hy => ?_⟩ Iff.rfl
  cases i with
  | zero => simpa using h.trans (by simpa using hy)
  | succ i => simp at hy

theorem hasAt_of_eq_append (before after : List UInt8)
    (eq : bytes = before ++ data ++ after) : HasAt bytes before.length data := by
  intro i x hi
  have low := (List.getElem?_eq_some_iff.mp hi).1
  rw [eq, append_assoc, getElem?_append_right (by omega), Nat.add_sub_cancel_left, getElem?_append_left low]
  exact hi

theorem HasAt.end_le (h : HasAt bytes offset data) (nonempty : data ≠ []) : offset + data.length ≤ bytes.length := by
  have positive : 0 < data.length := length_pos_iff.mpr nonempty
  have last := h (data.length - 1) _ (getElem?_eq_getElem (by omega))
  have := (List.getElem?_eq_some_iff.mp last).1
  omega

theorem HasAt.byteAt {bytes rest : List UInt8} {offset : Nat} {x : UInt8}
    (h : HasAt bytes offset (x :: rest)) : byteAt bytes offset = x := by
  have := (hasAt_cons.mp h).1
  simp [ByteLayout.byteAt, this]

theorem u16At_of_hasAt {w : UInt16} (h : HasAt bytes offset (le16 w)) : u16At bytes offset = w := by
  have first := h.byteAt
  have second := (hasAt_cons.mp h).2.byteAt
  have bound := w.toNat_lt
  simp only [u16At, first, second]
  apply UInt16.toNat_inj.mp
  simp only [UInt16.toNat_ofNat', UInt8.toNat_ofNat']
  omega

theorem u32At_of_hasAt {w : UInt32} (h : HasAt bytes offset (le32 w)) : u32At bytes offset = w := by
  have first := h.byteAt
  have h := (hasAt_cons.mp h).2
  have second := h.byteAt
  have h := (hasAt_cons.mp h).2
  have third := h.byteAt
  have fourth := (hasAt_cons.mp h).2.byteAt
  have bound := w.toNat_lt
  simp only [u32At, first, second, third, fourth]
  apply UInt32.toNat_inj.mp
  simp only [UInt32.toNat_ofNat', UInt8.toNat_ofNat']
  omega

/-! ## Aligned records in a zeroed buffer -/

/-- The next multiple of four. -/
def align4 (n : Nat) : Nat := (n + 3) / 4 * 4

theorem le_align4 (n : Nat) : n ≤ align4 n := by
  unfold align4
  omega

theorem align4_mod (n : Nat) : align4 n % 4 = 0 := by
  unfold align4
  omega

theorem align4_of_mod {n : Nat} (h : n % 4 = 0) : align4 n = n := by
  unfold align4
  omega

/-- Zero bytes. -/
def zeros (n : Nat) : List UInt8 := replicate n 0

@[simp] theorem zeros_length (n : Nat) : (zeros n).length = n := length_replicate

theorem zeros_add (m n : Nat) : zeros (m + n) = zeros m ++ zeros n := replicate_add ..

/-- A record filled up with zeros to `size` bytes. -/
def padTo (size : Nat) (data : List UInt8) : List UInt8 := data ++ zeros (size - data.length)

theorem padTo_length (h : data.length ≤ size) : (padTo size data).length = size := by
  simp [padTo]
  omega

/-- Overwrite the bytes from `offset` on with `data`. -/
def blit (buffer : List UInt8) (offset : Nat) (data : List UInt8) : List UInt8 :=
  buffer.take offset ++ data ++ buffer.drop (offset + data.length)

theorem blit_zeros (before data after : List UInt8) (h : data.length ≤ size) :
    blit (before ++ zeros size ++ after) before.length data = before ++ padTo size data ++ after := by
  have split : zeros size = zeros data.length ++ zeros (size - data.length) := by
    rw [← zeros_add, Nat.add_sub_cancel' h]
  unfold blit padTo
  rw [append_assoc before, take_left' rfl, ← drop_drop, drop_left' rfl,
    split, append_assoc (zeros _), drop_left' (zeros_length _)]
  simp only [append_assoc]

/-- Where records of the given sizes start when the first starts at `start` and each begins at
the end of the one before it. -/
def recordOffsets : Nat → List Nat → List Nat
  | _, [] => []
  | start, size :: rest => start :: recordOffsets (start + size) rest

@[simp] theorem recordOffsets_length (start : Nat) (sizes : List Nat) :
    (recordOffsets start sizes).length = sizes.length := by
  induction sizes generalizing start with
  | nil => rfl
  | cons size rest ih => simp [recordOffsets, ih]

theorem recordOffsets_getElem? {start i : Nat} (low : i < sizes.length) :
    (recordOffsets start sizes)[i]? = some (start + (sizes.take i).sum) := by
  induction sizes generalizing start i with
  | nil => simp at low
  | cons size rest ih =>
    cases i with
    | zero => simp [recordOffsets]
    | succ i =>
      rw [recordOffsets, getElem?_cons_succ, ih (by simpa using low), take_succ_cons, sum_cons, add_assoc]

theorem recordOffsets_append (start : Nat) (left right : List Nat) : recordOffsets start (left ++ right) =
      recordOffsets start left ++ recordOffsets (start + left.sum) right := by
  induction left generalizing start with
  | nil => simp [recordOffsets]
  | cons size left ih => simp [recordOffsets, ih, add_assoc]

/-- The records of the given sizes, each filled up with zeros. -/
def padAll : List Nat → List (List UInt8) → List UInt8
  | size :: sizes, data :: records => padTo size data ++ padAll sizes records
  | _, _ => []

/-- Write each record at its offset. -/
def blitAll (buffer : List UInt8) : List (Nat × List UInt8) → List UInt8
  | [] => buffer
  | (offset, data) :: rest => blitAll (blit buffer offset data) rest

/-- Every record fits the size reserved for it. -/
def Fits (sizes : List Nat) (records : List (List UInt8)) : Prop :=
  Forall₂ (fun size data => data.length ≤ size) sizes records

theorem padAll_length (fits : Fits sizes records) : (padAll sizes records).length = sizes.sum := by
  induction fits with
  | nil => rfl
  | cons h _ ih => simp [padAll, padTo_length h, ih]

theorem padAll_append {left right : List Nat} {more : List (List UInt8)} (fits : Fits left records) :
    padAll (left ++ right) (records ++ more) = padAll left records ++ padAll right more := by
  induction fits with
  | nil => rfl
  | cons _ _ ih => simp [padAll, ih]

@[simp] theorem padTo_self (data : List UInt8) : padTo data.length data = data := by
  simp [padTo, zeros]

theorem blitAll_records {before after : List UInt8} (fits : Fits sizes records) :
    blitAll (before ++ zeros sizes.sum ++ after) ((recordOffsets before.length sizes).zip records) =
      before ++ padAll sizes records ++ after := by
  induction fits generalizing before with
  | nil => simp [recordOffsets, blitAll, padAll, zeros]
  | @cons size data sizes records h _ ih =>
    have room : before ++ zeros (size :: sizes).sum ++ after =
        before ++ zeros size ++ (zeros sizes.sum ++ after) := by
      simp [zeros_add]
    have next : before.length + size = (before ++ padTo size data).length := by
      simp [padTo_length h]
    rw [recordOffsets, zip_cons_cons, blitAll, room, blit_zeros _ _ _ h, next, ← append_assoc, ih]
    simp only [padAll, append_assoc]

theorem hasAt_padAll (before after : List UInt8) (fits : Fits sizes records)
    (eq : bytes = before ++ padAll sizes records ++ after) {i : Nat} (hs : sizes[i]? = some size)
    (hd : records[i]? = some data) : HasAt bytes (before.length + (sizes.take i).sum) (padTo size data) := by
  induction fits generalizing before i with
  | nil => simp at hs
  | @cons size' data' sizes records h _ ih =>
    rw [padAll] at eq
    cases i with
    | zero =>
      simp only [getElem?_cons_zero, Option.some.injEq] at hs hd
      subst hs hd
      exact hasAt_of_eq_append before (padAll sizes records ++ after) (by
        rw [eq]; simp only [append_assoc])
    | succ i =>
      simp only [getElem?_cons_succ] at hs hd
      have tail := ih (before ++ padTo size' data') (by
        rw [eq]; simp only [append_assoc]) hs hd
      rwa [length_append, padTo_length h, add_assoc, ← sum_cons, ← take_succ_cons]
        at tail

end ByteLayout
