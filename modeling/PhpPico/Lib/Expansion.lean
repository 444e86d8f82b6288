import Mathlib.Data.Nat.Digits.Defs
import Mathlib.Data.Rat.Floor
import Mathlib.Tactic.FieldSimp
import Mathlib.Tactic.Linarith
import Mathlib.Tactic.Positivity
import Mathlib.Tactic.Ring

/-!
# Digits with the point behind the first

The digits of a number, the first one before the point. Numbers are compared digit by digit, the shorter one with
zeros behind it.
-/

namespace Expansion
open List

/-- The number `d.ddd` of digits in a base. -/
def value (base : ℕ) : List ℕ → ℚ
  | [] => 0
  | d :: rest => d + value base rest / base

/-- Comparison digit by digit: greater, less or equal. -/
def compare : List ℕ → List ℕ → Int
  | [], [] => 0
  | left, [] => if left.any (· != 0) then 1 else 0
  | [], right => if right.any (· != 0) then -1 else 0
  | l :: left, r :: right => if l ≠ r then if l > r then 1 else -1 else compare left right

variable {base : ℕ} {ds es : List ℕ}

@[simp] theorem value_nil : value base [] = 0 := rfl

@[simp] theorem value_cons (d : ℕ) (ds : List ℕ) : value base (d :: ds) = d + value base ds / base := rfl

theorem value_nonneg (base : ℕ) (ds : List ℕ) : 0 ≤ value base ds := by
  induction ds with
  | nil => exact le_rfl
  | cons d rest ih =>
    rw [value_cons]
    positivity

theorem value_lt (more : 0 < base) (digits : ∀ d ∈ ds, d < base) : value base ds < base := by
  have positive : (0 : ℚ) < base := by exact_mod_cast more
  induction ds with
  | nil => exact positive
  | cons d rest ih =>
    have tail := ih fun e listed => digits e (mem_cons_of_mem d listed)
    have first : (d : ℚ) + 1 ≤ base := by exact_mod_cast digits d (.head _)
    have part : value base rest / base < 1 := (div_lt_one positive).mpr tail
    rw [value_cons]
    linarith

theorem value_eq_zero (more : 0 < base) (ds : List ℕ) : value base ds = 0 ↔ ds.any (· != 0) = false := by
  have positive : (0 : ℚ) < base := by exact_mod_cast more
  induction ds with
  | nil => simp
  | cons d rest ih =>
    have tail := value_nonneg base rest
    have part : 0 ≤ value base rest / base := by positivity
    rw [value_cons, any_cons, Bool.or_eq_false_iff, bne_eq_false_iff_eq]
    constructor
    · intro zero
      have zeroPart : value base rest / base = 0 := by linarith
      have zeroFirst : (d : ℚ) = 0 := by linarith
      refine ⟨by exact_mod_cast zeroFirst, ih.mp ?_⟩
      rcases div_eq_zero_iff.mp zeroPart with zero | zero
      · exact zero
      · exact absurd zero positive.ne'
    · rintro ⟨rfl, zero⟩
      rw [ih.mpr zero]
      simp

theorem value_append (more : 0 < base) (ds es : List ℕ) :
    value base (ds ++ es) = value base ds + value base es / base ^ ds.length := by
  induction ds with
  | nil => simp
  | cons d rest ih =>
    rw [cons_append, value_cons, value_cons, ih, length_cons, pow_succ]
    field_simp
    ring

/-- The digits of an integer, the last one first, are its expansion. -/
theorem value_reverse (more : 0 < base) (ds : List ℕ) (nonempty : ds ≠ []) :
    value base ds.reverse * base ^ (ds.length - 1) = (Nat.ofDigits base ds : ℕ) := by
  induction ds with
  | nil => exact absurd rfl nonempty
  | cons d rest ih =>
    rw [reverse_cons, value_append more, length_reverse, value_cons, value_nil, zero_div, add_zero,
      length_cons, Nat.add_sub_cancel, Nat.ofDigits_cons, add_mul]
    rw [div_mul_cancel₀ _ (by positivity)]
    rcases eq_nil_or_concat rest with rfl | ⟨init, last, shape⟩
    · simp
    · have some : rest ≠ [] := by
        rw [shape]
        simp
      have tail := ih some
      have length : rest.length = rest.length - 1 + 1 := by
        have := length_pos_of_ne_nil some
        omega
      rw [length, pow_succ, ← mul_assoc, tail]
      push_cast
      ring

theorem any_iff_pos (more : 0 < base) (ds : List ℕ) : ds.any (· != 0) = true ↔ 0 < value base ds := by
  have zero := value_eq_zero more ds
  have nonneg := value_nonneg base ds
  constructor
  · intro some
    refine lt_of_le_of_ne nonneg fun same => ?_
    rw [zero.mp same.symm] at some
    exact absurd some Bool.false_ne_true
  · intro positive
    by_contra none
    exact positive.ne' (zero.mpr (Bool.eq_false_iff.mpr none))

/-- **Digits are compared as the numbers are.** -/
theorem compare_spec (more : 0 < base) (left : ∀ d ∈ ds, d < base) (right : ∀ d ∈ es, d < base) :
    (compare ds es = 1 ∧ value base es < value base ds) ∨ (compare ds es = 0 ∧ value base es = value base ds) ∨
      (compare ds es = -1 ∧ value base ds < value base es) := by
  have positive : (0 : ℚ) < base := by exact_mod_cast more
  have zeros : ∀ l : List ℕ, l.any (· != 0) = true ∧ 0 < value base l ∨ l.any (· != 0) = false ∧ value base l = 0 := by
    intro l
    cases some : l.any (· != 0) with
    | true => exact .inl ⟨rfl, (any_iff_pos more l).mp some⟩
    | false => exact .inr ⟨rfl, (value_eq_zero more l).mpr some⟩
  induction ds generalizing es with
  | nil =>
    cases es with
    | nil => exact .inr (.inl ⟨rfl, rfl⟩)
    | cons e rest =>
      unfold compare
      rcases zeros (e :: rest) with ⟨some, more⟩ | ⟨none, zero⟩
      · exact .inr (.inr ⟨if_pos some, more⟩)
      · exact .inr (.inl ⟨if_neg (Bool.eq_false_iff.mp none), zero⟩)
  | cons d left' ih =>
    cases es with
    | nil =>
      unfold compare
      rcases zeros (d :: left') with ⟨some, more⟩ | ⟨none, zero⟩
      · exact .inl ⟨if_pos some, more⟩
      · exact .inr (.inl ⟨if_neg (Bool.eq_false_iff.mp none), zero.symm⟩)
    | cons e right' =>
      have tailLeft := fun x listed => left x (mem_cons_of_mem d listed)
      have tailRight := fun x listed => right x (mem_cons_of_mem e listed)
      have partLeft : value base left' / base < 1 := (div_lt_one positive).mpr (value_lt more tailLeft)
      have partRight : value base right' / base < 1 := (div_lt_one positive).mpr (value_lt more tailRight)
      have lowLeft : 0 ≤ value base left' / base := div_nonneg (value_nonneg base _) positive.le
      have lowRight : 0 ≤ value base right' / base := div_nonneg (value_nonneg base _) positive.le
      unfold compare
      rw [value_cons, value_cons]
      rcases lt_trichotomy d e with less | rfl | greater
      · have step : (d : ℚ) + 1 ≤ e := by exact_mod_cast less
        rw [if_pos less.ne, if_neg less.not_gt]
        exact .inr (.inr ⟨rfl, by linarith⟩)
      · rw [if_neg (not_not.mpr rfl)]
        rcases ih tailLeft tailRight with ⟨result, order⟩ | ⟨result, order⟩ | ⟨result, order⟩
        · exact .inl ⟨result, by have := div_lt_div_of_pos_right order positive; linarith⟩
        · exact .inr (.inl ⟨result, by rw [order]⟩)
        · exact .inr (.inr ⟨result, by have := div_lt_div_of_pos_right order positive; linarith⟩)
      · have step : (e : ℚ) + 1 ≤ d := by exact_mod_cast greater
        rw [if_pos greater.ne', if_pos greater]
        exact .inl ⟨rfl, by linarith⟩

/-- Digits that are cut off matter only where the kept ones are equal. -/
theorem compare_take (ds : List ℕ) {es : List ℕ} {limit : ℕ} (short : es.length ≤ limit) :
    compare ds es = if compare (ds.take limit) es ≠ 0 then compare (ds.take limit) es
      else if (ds.drop limit).any (· != 0) then 1 else 0 := by
  induction limit generalizing ds es with
  | zero =>
    obtain rfl : es = [] := length_eq_zero_iff.mp (Nat.le_zero.mp short)
    cases ds with
    | nil => rfl
    | cons d rest => rfl
  | succ limit ih =>
    cases ds with
    | nil =>
      rw [take_nil, drop_nil]
      split
      · rfl
      · rename_i same
        exact not_not.mp same
    | cons d rest =>
      cases es with
      | nil =>
        have split : (d :: rest).any (· != 0) =
            ((d :: rest.take limit).any (· != 0) || (rest.drop limit).any (· != 0)) := by
          rw [any_cons, any_cons, Bool.or_assoc, ← any_append, take_append_drop]
        rw [take_succ_cons, drop_succ_cons]
        unfold compare
        rw [split]
        cases (d :: rest.take limit).any (· != 0) <;> cases (rest.drop limit).any (· != 0) <;> rfl
      | cons e tail =>
        have next := ih rest (Nat.le_of_succ_le_succ short)
        rw [take_succ_cons, drop_succ_cons]
        unfold compare
        by_cases same : d = e
        · rw [if_neg (not_not.mpr same), if_neg (not_not.mpr same)]
          exact next
        · rw [if_pos same, if_pos same]
          split <;> rfl

end Expansion
