import PhpPico.Parray.Refine

/-!
# Sizes of arrays

Whether an entry more can be added to an array depends on its sizes and on the memory there is.
-/

namespace PhpPico
open OrderedMap

/-- The fields of an array that decide what one entry more needs. -/
structure Shape where
  packed : Bool
  size : Nat
  used : Nat
  capacity : Nat
  buckets : Nat
  deriving DecidableEq

namespace Shape

/-- `ensure_entries`. -/
def ensure (s : Shape) (minimum : Nat) (granted : Bool) : Option Shape :=
  if minimum ≤ s.capacity then some s
  else if 65535 < PArray.grownCapacity s.capacity minimum then none
  else if granted then some { s with capacity := PArray.grownCapacity s.capacity minimum }
  else none

/-- `rehash`. -/
def rehash (s : Shape) (bucketCount : Nat) (granted : Bool) : Option Shape :=
  let bucketCount := if bucketCount < 8 then 8 else bucketCount
  if 65535 < bucketCount then none
  else if granted then some { s with packed := false, buckets := bucketCount }
  else none

/-- Room for the entry itself. -/
def addEntry (mem : Memory) (s : Shape) : Option Shape :=
  (s.ensure (s.used + 1) (mem .entries)).map fun s => { s with size := s.size + 1, used := s.used + 1 }

/-- Buckets for one entry more. -/
def addHashed (mem : Memory) (s : Shape) : Option Shape :=
  if s.packed = false ∧ s.buckets * 3 < (s.size + 1) * 4 then
    (s.rehash (s.buckets * 2) (mem .buckets)).bind (addEntry mem)
  else s.addEntry mem

/-- The sizes once a new key has been added. It is `inPlace` when it is the number of entries used. -/
def add (mem : Memory) (s : Shape) (inPlace : Bool) : Option Shape :=
  if s.packed = true ∧ inPlace = false then
    (s.rehash (PArray.promotedBuckets s.size 16 8) (mem .promotion)).bind (addHashed mem)
  else s.addHashed mem

/-- The sizes of a new array, `pa_new`. -/
def fresh (mem : Memory) (capacityHint : Nat) : Option Shape :=
  if mem .header then
    if capacityHint ≠ 0 then ensure ⟨true, 0, 0, 0, 0⟩ capacityHint (mem .entries) else some ⟨true, 0, 0, 0, 0⟩
  else none

end Shape

section Arrays
variable {V : Type}

namespace PArray

def shape (a : PArray V) : Shape := ⟨a.packed, a.size, a.used, a.capacity, a.buckets.length⟩

theorem shape_ensureEntries (a : PArray V) (minimum : Nat) (granted : Bool) :
    (a.ensureEntries minimum granted).map shape = a.shape.ensure minimum granted := by
  unfold ensureEntries Shape.ensure
  have capacity : a.shape.capacity = a.capacity := rfl
  rw [capacity]
  split
  · rfl
  · split
    · rfl
    · cases granted <;> rfl

theorem shape_paNew (mem : Memory) (hint : Nat) :
    (paNew mem hint : Option (PArray V)).map shape = Shape.fresh mem hint := by
  unfold paNew Shape.fresh
  cases mem .header with
  | false => rfl
  | true =>
    rw [if_pos rfl, if_pos rfl]
    split
    · exact shape_ensureEntries blank hint (mem .entries)
    · rfl

theorem shape_rehash {a : PArray V} (small : a.used ≤ 65535) (bucketCount : Nat) (granted : Bool) :
    (a.rehash bucketCount granted).map shape = a.shape.rehash bucketCount granted := by
  cases rehashed : a.rehash bucketCount granted with
  | none =>
    simp only [rehash] at rehashed
    simp only [Option.map_none, Shape.rehash]
    generalize (if bucketCount < 8 then 8 else bucketCount) = count at rehashed ⊢
    split at rehashed
    · next beyond => rw [if_pos beyond]
    · next within =>
      rw [if_neg within]
      cases granted with
      | false => rfl
      | true => cases rehashed
  | some a' =>
    obtain ⟨packed, size, capacity, -, cells, -⟩ := rehash_eq_some small rehashed
    have used : a'.used = a.used := by rw [← length_cells, cells, length_cells]
    simp only [rehash] at rehashed
    simp only [Option.map_some, Shape.rehash]
    have pos : 0 < (if bucketCount < 8 then 8 else bucketCount) := by split <;> omega
    generalize (if bucketCount < 8 then 8 else bucketCount) = count at rehashed pos ⊢
    split at rehashed
    · cases rehashed
    · next within =>
      rw [if_neg within]
      cases granted with
      | false => cases rehashed
      | true =>
        obtain ⟨-, -, -, length⟩ := rehash_loop a.entries count pos small a.used le_rfl
        have buckets : a'.buckets.length = count := by
          rw [← Option.some.inj rehashed]
          exact length
        have built : a'.shape = ⟨a'.packed, a'.size, a'.used, a'.capacity, a'.buckets.length⟩ := rfl
        rw [built, packed, size, used, capacity, buckets]
        rfl

theorem shape_append (cfg : Config) (a : PArray V) (key : Key) (value : V) :
    (a.append cfg key value).shape = { a.shape with size := a.size + 1, used := a.used + 1 } := by
  unfold append
  cases packed : a.packed with
  | true => simp [shape, used, packed]
  | false => simp [shape, used, packed]

end PArray

/-- An outcome of adding an entry is the one the sizes say. -/
structure Grows (grown : Option Shape) (outcome : Bool × PArray V) : Prop where
  status : outcome.1 = grown.isSome
  shape : ∀ s, grown = some s → outcome.2.shape = s

namespace PArray
variable {a : PArray V} {key : Key} (value : V) (cfg : Config) (mem : Memory)

theorem addEntry_grows (a : PArray V) (key : Key) : Grows (a.shape.addEntry mem) (a.addEntry cfg mem key value) := by
  have sizes := shape_ensureEntries a (a.used + 1) (mem .entries)
  have used : a.shape.used = a.used := rfl
  unfold addEntry Shape.addEntry
  rw [used, ← sizes]
  cases ensured : a.ensureEntries (a.used + 1) (mem .entries) with
  | none => exact ⟨rfl, fun s grown => by cases grown⟩
  | some roomy =>
    refine ⟨rfl, fun s grown => ?_⟩
    obtain rfl := Option.some.inj grown
    exact shape_append cfg roomy key value

theorem Wf.addHashed_grows (h : a.Wf) : Grows (a.shape.addHashed mem) (a.addHashed cfg mem key value) := by
  have small : a.used ≤ 65535 := h.used_le.trans h.capacity_le
  have crowded : (a.shape.packed = false ∧ a.shape.buckets * 3 < (a.shape.size + 1) * 4) =
      (a.packed = false ∧ a.buckets.length * 3 < (a.size + 1) * 4) := rfl
  have twice : a.shape.buckets * 2 = a.buckets.length * 2 := rfl
  unfold PArray.addHashed Shape.addHashed
  simp only [crowded, twice]
  split
  · rw [← shape_rehash small]
    cases a.rehash (a.buckets.length * 2) (mem .buckets) with
    | none => exact ⟨rfl, fun s grown => by cases grown⟩
    | some roomy => exact addEntry_grows value cfg mem roomy key
  · exact addEntry_grows value cfg mem a key

/-- **A new key is added exactly when the sizes allow it**, and gives the sizes they say. -/
theorem Wf.addKey_grows (h : a.Wf) {outcome : Bool × PArray V} (added : a.addKey cfg mem key value = some outcome) :
    Grows (a.shape.add mem (key == .int a.used)) outcome := by
  have small : a.used ≤ 65535 := h.used_le.trans h.capacity_le
  have outside : (a.shape.packed = true ∧ (key == .int a.used) = false) = (a.packed = true ∧ key ≠ .int a.used) := by
    rw [beq_eq_false_iff_ne]
    rfl
  have size : a.shape.size = a.size := rfl
  unfold PArray.addKey PArray.promoteHash at added
  unfold Shape.add
  simp only [outside, size]
  split at added
  · next promotes =>
    rw [if_pos promotes, ← shape_rehash small]
    cases promotion : a.rehash (promotedBuckets a.size 16 8) (mem .promotion) with
    | none =>
      rw [promotion] at added
      cases added
      exact ⟨rfl, fun s grown => by cases grown⟩
    | some promoted =>
      rw [promotion] at added
      obtain ⟨wf, -⟩ := h.rehash promotion
      obtain ⟨found, walk, -⟩ := wf.findEntry key
      simp only [walk] at added
      cases added
      exact wf.addHashed_grows value cfg mem
  · next stays =>
    rw [if_neg stays]
    cases added
    exact h.addHashed_grows value cfg mem

end PArray

/-! ## Enough room -/

namespace Shape
variable {s : Shape} {mem : Memory}

/-- No array is made with room for more entries than 16 bits count. -/
theorem fresh_large {hint : Nat} (large : 65535 < hint) : fresh mem hint = none := by
  unfold fresh
  cases mem .header with
  | false => rfl
  | true =>
    have grown : 65535 < PArray.grownCapacity 0 hint := by
      unfold PArray.grownCapacity
      dsimp only
      split <;> split <;> omega
    rw [if_pos rfl, if_pos (by omega), ensure, if_neg (by dsimp only; omega), if_pos (by dsimp only; exact grown)]

end Shape

end Arrays

end PhpPico
