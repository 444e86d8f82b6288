import Mathlib.Logic.Function.Iterate
import Mathlib.Tactic.Common

/-!
# Ring buffers

A queue in an array: the next element is read at one index and written at another, and both go round. One slot stays
free, to tell a full buffer from an empty one.
-/

namespace RingBuffer
open Function

variable {α : Type} {size : Nat}

structure Ring (α : Type) (size : Nat) where
  slots : Fin size → α
  read : Fin size
  write : Fin size

/-- The index behind another. -/
def next (i : Fin size) : Fin size := ⟨(i.val + 1) % size, Nat.mod_lt _ i.pos⟩

namespace Ring

/-- An element is written, unless the buffer is full. -/
def push (r : Ring α size) (a : α) : Option (Ring α size) :=
  if next r.write = r.read then none
  else some { r with slots := update r.slots r.write a, write := next r.write }

/-- The oldest element is read, unless the buffer is empty. -/
def pop (r : Ring α size) : Option (α × Ring α size) :=
  if r.read = r.write then none else some (r.slots r.read, { r with read := next r.read })

/-- How many elements there are. -/
def count (r : Ring α size) : Nat :=
  if r.read.val ≤ r.write.val then r.write.val - r.read.val else r.write.val + size - r.read.val

end Ring

/-- The elements from an index on. -/
def collect (slots : Fin size → α) : Nat → Fin size → List α
  | 0, _ => []
  | n + 1, i => slots i :: collect slots n (next i)

/-- The elements, the oldest first. -/
def Ring.contents (r : Ring α size) : List α := collect r.slots r.count r.read

/-! ## Indices -/

theorem next_val (i : Fin size) : (next i).val = if i.val + 1 < size then i.val + 1 else 0 := by
  unfold next
  split
  · next inside => exact Nat.mod_eq_of_lt inside
  · next last =>
    have whole : i.val + 1 = size := by omega
    simp only [whole, Nat.mod_self]

/-- Where one comes to in some steps, fewer than there are slots. -/
theorem iterate_next_val (i : Fin size) {n : Nat} (less : n < size) :
    (next^[n] i).val = if i.val + n < size then i.val + n else i.val + n - size := by
  have lt := i.isLt
  induction n with
  | zero => simp [lt]
  | succ n ih =>
    have before := ih (by omega)
    rw [Function.iterate_succ_apply', next_val, before]
    split <;> split <;> split <;> omega

namespace Ring

variable {r r' : Ring α size} {a : α}

theorem count_lt (r : Ring α size) : r.count < size := by
  unfold count
  split <;> omega

theorem iterate_count (r : Ring α size) : next^[r.count] r.read = r.write := by
  apply Fin.ext
  rw [iterate_next_val r.read r.count_lt]
  unfold count
  split <;> split <;> omega

theorem iterate_ne {n : Nat} (less : n < r.count) : next^[n] r.read ≠ r.write := by
  have bound := r.count_lt
  intro same
  have val := congrArg Fin.val same
  rw [iterate_next_val r.read (by omega)] at val
  unfold count at less bound
  split at less <;> split at val <;> omega

end Ring

/-! ## Elements -/

theorem collect_succ (slots : Fin size → α) (n : Nat) (i : Fin size) :
    collect slots (n + 1) i = collect slots n i ++ [slots (next^[n] i)] := by
  induction n generalizing i with
  | zero => rfl
  | succ n ih =>
    rw [collect, ih, collect, List.cons_append, Function.iterate_succ_apply]

theorem collect_update (slots : Fin size → α) (n : Nat) (i j : Fin size) (a : α)
    (outside : ∀ m < n, next^[m] i ≠ j) : collect (update slots j a) n i = collect slots n i := by
  induction n generalizing i with
  | zero => rfl
  | succ n ih =>
    have here : i ≠ j := outside 0 (Nat.succ_pos n)
    have behind : ∀ m < n, next^[m] (next i) ≠ j := by
      intro m less
      have step := outside (m + 1) (by omega)
      rwa [Function.iterate_succ_apply] at step
    rw [collect, collect, ih _ behind, update_of_ne here]

/-! ## The queue -/

namespace Ring

variable {r r' : Ring α size} {a : α}

theorem push_contents (pushed : r.push a = some r') : r'.contents = r.contents ++ [a] := by
  simp only [push, Option.ite_none_left_eq_some, Option.some.injEq] at pushed
  obtain ⟨free, rfl⟩ := pushed
  have write := r.write.isLt
  have one_more : count { r with slots := update r.slots r.write a, write := next r.write } = r.count + 1 := by
    have index := next_val r.write
    simp only [count]
    split at index <;> split <;> split <;> omega
  rw [contents, one_more, collect_succ]
  simp only [collect_update r.slots r.count r.read r.write a fun m less => iterate_ne less, r.iterate_count,
    update_self]
  rfl

theorem pop_contents (popped : r.pop = some (a, r')) : r.contents = a :: r'.contents := by
  simp only [pop, Option.ite_none_left_eq_some, Option.some.injEq, Prod.mk.injEq] at popped
  obtain ⟨some_left, rfl, rfl⟩ := popped
  have read := r.read.isLt
  have one_less : r.count = count { r with read := next r.read } + 1 := by
    have index := next_val r.read
    simp only [count]
    split at index <;> split <;> split <;> omega
  rw [contents, one_less, collect]
  rfl

end Ring

end RingBuffer
