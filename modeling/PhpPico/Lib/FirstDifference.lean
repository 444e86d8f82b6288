import Mathlib.Tactic.Common

/-!
# The first difference

Structures are compared part by part: the first parts that differ decide. A comparison of parts is a family that
settles: it may end without a result, and behind a member that gives one all give the same.
-/

namespace FirstDifference

variable {α : Type}

/-- The first result that is not zero. -/
def first (cmp : α → Option Int) : List α → Option Int
  | [] => some 0
  | a :: rest => (cmp a).bind fun d => if d = 0 then first cmp rest else some d

/-- The parts have the results `R` says, up to the one that decides. -/
inductive Verdict (R : α → Int → Prop) : List α → Int → Prop
  | nil : Verdict R [] 0
  | same {a : α} {rest : List α} {d : Int} (equal : R a 0) (others : Verdict R rest d) : Verdict R (a :: rest) d
  | differ {a : α} {d : Int} (rest : List α) (verdict : R a d) (differs : d ≠ 0) : Verdict R (a :: rest) d

section First
variable {cmp cmp' : α → Option Int}

theorem first_cons_zero {a : α} (rest : List α) (equal : cmp a = some 0) : first cmp (a :: rest) = first cmp rest := by
  rw [first, equal, Option.bind_some, if_pos rfl]

theorem first_cons {a : α} {d : Int} (rest : List α) (verdict : cmp a = some d) (differs : d ≠ 0) :
    first cmp (a :: rest) = some d := by
  rw [first, verdict, Option.bind_some, if_neg differs]

theorem first_cons_cases {a : α} {rest : List α} {d : Int} (h : first cmp (a :: rest) = some d) :
    (cmp a = some 0 ∧ first cmp rest = some d) ∨ (cmp a = some d ∧ d ≠ 0) := by
  rw [first, Option.bind_eq_some_iff] at h
  obtain ⟨e, verdict, h⟩ := h
  by_cases zero : e = 0
  · rw [if_pos zero] at h
    exact .inl ⟨zero ▸ verdict, h⟩
  · rw [if_neg zero] at h
    cases h
    exact .inr ⟨verdict, zero⟩

theorem first_mono (more : ∀ a d, cmp a = some d → cmp' a = some d) {parts : List α} {d : Int}
    (h : first cmp parts = some d) : first cmp' parts = some d := by
  induction parts with
  | nil => exact h
  | cons a rest ih =>
    rcases first_cons_cases h with ⟨equal, others⟩ | ⟨verdict, differs⟩
    · rw [first_cons_zero rest (more a 0 equal)]
      exact ih others
    · exact first_cons rest (more a d verdict) differs

/-- Where no part differs, all have been compared. -/
theorem first_eq_zero {parts : List α} (h : first cmp parts = some 0) : ∀ a ∈ parts, cmp a = some 0 := by
  induction parts with
  | nil => exact fun a inside => absurd inside List.not_mem_nil
  | cons b rest ih =>
    rcases first_cons_cases h with ⟨equal, others⟩ | ⟨-, differs⟩
    · exact List.forall_mem_cons.mpr ⟨equal, ih others⟩
    · exact absurd rfl differs

end First

section Families
variable {cmp : Nat → α → Option Int}

/-- A member that gives a result is followed by members that give the same. -/
def Settles (cmp : Nat → α → Option Int) : Prop := ∀ a d {m n}, m ≤ n → cmp m a = some d → cmp n a = some d

/-- **A sequence is compared with a result where its parts are**, up to the one that decides. -/
theorem first_iff (settles : Settles cmp) {parts : List α} {d : Int} :
    (∃ n, first (cmp n) parts = some d) ↔ Verdict (fun a d => ∃ n, cmp n a = some d) parts d := by
  constructor
  · rintro ⟨n, h⟩
    induction parts with
    | nil =>
      cases h
      exact .nil
    | cons a rest ih =>
      rcases first_cons_cases h with ⟨equal, others⟩ | ⟨verdict, differs⟩
      · exact .same ⟨n, equal⟩ (ih others)
      · exact .differ rest ⟨n, verdict⟩ differs
  · intro h
    induction h with
    | nil => exact ⟨0, rfl⟩
    | same equal others ih =>
      obtain ⟨m, equal⟩ := equal
      obtain ⟨n, others⟩ := ih
      refine ⟨max m n, ?_⟩
      rw [first_cons_zero _ (settles _ _ (Nat.le_max_left m n) equal)]
      exact first_mono (fun a d => settles a d (Nat.le_max_right m n)) others
    | differ rest verdict differs =>
      obtain ⟨n, verdict⟩ := verdict
      exact ⟨n, first_cons rest verdict differs⟩

end Families

section Verdicts
variable {R : α → Int → Prop}

theorem Verdict.all_same {parts : List α} (h : ∀ a ∈ parts, R a 0) : Verdict R parts 0 := by
  induction parts with
  | nil => exact .nil
  | cons a rest ih =>
    obtain ⟨equal, others⟩ := List.forall_mem_cons.mp h
    exact .same equal (ih others)

end Verdicts

end FirstDifference
