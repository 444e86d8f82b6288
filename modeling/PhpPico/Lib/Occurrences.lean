import Mathlib.Tactic.Common

/-!
# Occurrences of a word in a text

A word occurs where the text has it as a part, the empty word everywhere.
-/

namespace Occurrences
open List

variable {α : Type}

/-- The text has the word at a position. -/
def Occurs (text word : List α) (p : Nat) : Prop := ∃ front behind, front ++ word ++ behind = text ∧ front.length = p

theorem occurs_iff (text word : List α) (p : Nat) :
    Occurs text word p ↔ p + word.length ≤ text.length ∧ (text.drop p).take word.length = word := by
  constructor
  · rintro ⟨front, behind, rfl, rfl⟩
    refine ⟨by simp only [length_append]; omega, ?_⟩
    rw [append_assoc, drop_left, take_left]
  · rintro ⟨fits, here⟩
    refine ⟨text.take p, (text.drop p).drop word.length, ?_, ?_⟩
    · have split := take_append_drop word.length (text.drop p)
      rw [here] at split
      rw [append_assoc, split, take_append_drop]
    · rw [length_take]
      omega

theorem Occurs.le {text word : List α} {p : Nat} (h : Occurs text word p) : p + word.length ≤ text.length :=
  ((occurs_iff text word p).mp h).1

/-- The empty word occurs everywhere, also at the end. -/
theorem occurs_nil (text : List α) (p : Nat) : Occurs text [] p ↔ p ≤ text.length := by
  rw [occurs_iff]
  simp

instance [DecidableEq α] (text word : List α) (p : Nat) : Decidable (Occurs text word p) :=
  decidable_of_iff _ (occurs_iff text word p).symm

end Occurrences
