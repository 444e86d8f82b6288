import Mathlib.Data.Int.Order.Basic
import Mathlib.Data.Nat.Prime.Basic
import Mathlib.Tactic.Common
import Mathlib.Tactic.Linarith
import Mathlib.Tactic.Ring

/-!
# Signed arithmetic that must not overflow

Expressions over a signed integer type, where a result the type does not have is no result, and the guards written
before them: **each guard says, without overflowing itself, whether the exact result fits.**
-/

namespace Signed

/-! ## Expressions -/

section Expressions
variable (low high : Int)

/-- The type has the integer. -/
def Fits (i : Int) : Prop := low ≤ i ∧ i ≤ high

instance (i : Int) : Decidable (Fits low high i) := inferInstanceAs (Decidable (_ ∧ _))

/-- An integer, if the type has it. -/
def exact (i : Int) : Option Int := if Fits low high i then some i else none

def add (a b : Int) : Option Int := exact low high (a + b)

def sub (a b : Int) : Option Int := exact low high (a - b)

def mul (a b : Int) : Option Int := exact low high (a * b)

def neg (a : Int) : Option Int := exact low high (-a)

/-- The quotient, which is cut off. -/
def div (a b : Int) : Option Int := if b = 0 then none else exact low high (a.tdiv b)

/-- The remainder. It is defined when the quotient is. -/
def mod (a b : Int) : Option Int := if b = 0 then none else (exact low high (a.tdiv b)).map fun _ => a.tmod b

end Expressions

/-- An unsigned integer shifted to the left, by less than its width. -/
def shiftLeft {w : Nat} (x : BitVec w) (distance : Nat) : Option (BitVec w) :=
  if distance < w then some (x <<< distance) else none

/-- An unsigned integer shifted to the right, by less than its width. -/
def shiftRight {w : Nat} (x : BitVec w) (distance : Nat) : Option (BitVec w) :=
  if distance < w then some (x >>> distance) else none

/-- `&&`: the second condition is evaluated only if the first one holds. -/
def both (p : Bool) (q : Option Bool) : Option Bool := if p then q else some false

/-- `||`: the second condition is evaluated only if the first one does not hold. -/
def either (p q : Option Bool) : Option Bool := p.bind fun p => if p then some true else q

theorem both_eq {p : Bool} {expression : Option Int} {limit : Int} {compare : Int → Bool}
    (h : p = true → expression = some limit) : both p (expression.map compare) = some (p && compare limit) := by
  cases p with
  | true =>
    rw [h rfl]
    rfl
  | false => rfl

theorem either_eq {p q : Option Bool} {b c : Bool} (first : p = some b) (second : q = some c) :
    either p q = some (b || c) := by
  subst first second
  cases b with
  | true => rfl
  | false => rfl

/-! ## Defined expressions -/

section Defined
variable {low high a b i : Int}

theorem exact_of_fits (fits : Fits low high i) : exact low high i = some i := if_pos fits

theorem exact_of_not_fits (out : ¬ Fits low high i) : exact low high i = none := if_neg out

/-- A quotient is no farther from zero than what is divided. -/
theorem tdiv_natAbs_le (a b : Int) : (a.tdiv b).natAbs ≤ a.natAbs := by
  rw [Int.natAbs_tdiv]
  exact Nat.div_le_self _ _

theorem div_pos (zero : low ≤ 0 ∧ 0 ≤ high) (fits : Fits low high a) (positive : 0 < b) :
    div low high a b = some (a.tdiv b) := by
  have size := tdiv_natAbs_le a b
  unfold div
  rw [if_neg positive.ne']
  apply exact_of_fits
  unfold Fits at *
  rcases Int.le_total 0 a with nonneg | nonpos
  · have := Int.tdiv_nonneg nonneg positive.le
    omega
  · have := Int.tdiv_nonneg (Int.neg_nonneg_of_nonpos nonpos) positive.le
    rw [Int.neg_tdiv] at this
    omega

theorem div_neg (zero : low ≤ 0 ∧ 0 ≤ high) (fits : Fits low high a) (other : Fits low high (-a)) (negative : b < 0) :
    div low high a b = some (a.tdiv b) := by
  have size := tdiv_natAbs_le a b
  unfold div
  rw [if_neg negative.ne]
  apply exact_of_fits
  unfold Fits at *
  omega

/-! ## Guards -/

theorem tdiv_lt_iff (nonneg : 0 ≤ a) (positive : 0 < b) : a.tdiv b < i ↔ a < i * b := by
  rw [Int.tdiv_eq_ediv_of_nonneg nonneg]
  exact Int.ediv_lt_iff_lt_mul positive

theorem lt_tdiv_iff (nonpos : a ≤ 0) (positive : 0 < b) : i < a.tdiv b ↔ i * b < a := by
  have opposite := tdiv_lt_iff (a := -a) (b := b) (i := -i) (by omega) positive
  rw [Int.neg_tdiv, Int.neg_mul] at opposite
  constructor
  · intro less
    omega
  · intro less
    omega

theorem lt_tdiv_neg_iff (nonneg : 0 ≤ a) (negative : b < 0) : i < a.tdiv b ↔ a < i * b := by
  have opposite := tdiv_lt_iff (a := a) (b := -b) (i := -i) nonneg (by omega)
  rw [Int.tdiv_neg, Int.neg_mul_neg] at opposite
  constructor
  · intro less
    exact opposite.mp (by omega)
  · intro less
    omega

theorem add_guard (fits : Fits low high a) :
    (0 < b ∧ high - b < a) ∨ (b < 0 ∧ a < low - b) ↔ ¬ Fits low high (a + b) := by
  unfold Fits at *
  omega

theorem sub_guard (fits : Fits low high a) :
    (0 < b ∧ a < low + b) ∨ (b < 0 ∧ high + b < a) ↔ ¬ Fits low high (a - b) := by
  unfold Fits at *
  omega

theorem mul_guard_pos (zero : low ≤ 0 ∧ 0 ≤ high) (positive : 0 < a) :
    (0 < b ∧ high.tdiv b < a) ∨ (b < 0 ∧ b < low.tdiv a) ↔ ¬ Fits low high (a * b) := by
  unfold Fits
  rcases Int.lt_trichotomy b 0 with negative | rfl | above
  · have product : a * b < 0 := Int.mul_neg_of_pos_of_neg positive negative
    rw [lt_tdiv_iff zero.1 positive, Int.mul_comm b a]
    omega
  · rw [Int.mul_zero]
    omega
  · have product : 0 < a * b := Int.mul_pos positive above
    rw [tdiv_lt_iff zero.2 above]
    omega

theorem mul_guard_neg (zero : low ≤ 0 ∧ 0 ≤ high) (negative : a < 0) :
    (0 < b ∧ a < low.tdiv b) ∨ (b < 0 ∧ a < high.tdiv b) ↔ ¬ Fits low high (a * b) := by
  unfold Fits
  rcases Int.lt_trichotomy b 0 with below | rfl | positive
  · have product : 0 < a * b := Int.mul_pos_of_neg_of_neg negative below
    rw [lt_tdiv_neg_iff zero.2 below]
    omega
  · rw [Int.mul_zero]
    omega
  · have product : a * b < 0 := Int.mul_neg_of_neg_of_pos negative positive
    rw [lt_tdiv_iff zero.1 positive]
    omega

end Defined

/-! ## Powers -/

section Powers
variable {low high : Int}

/-- Factors away from zero do not bring a product back into the type, when what is left of them is a square. -/
theorem not_fits_mul_pos {i j : Int} (zero : low ≤ 0 ∧ 0 ≤ high) (out : ¬ Fits low high i) (positive : 0 < j) :
    ¬ Fits low high (i * j) := by
  unfold Fits at *
  intro inside
  apply out
  rcases Int.le_total 0 i with nonneg | nonpos
  · have : i * 1 ≤ i * j := Int.mul_le_mul_of_nonneg_left (by omega) nonneg
    omega
  · have : i * j ≤ i * 1 := Int.mul_le_mul_of_nonpos_left nonpos (by omega)
    omega

theorem sq_ne_two_pow_odd (b : Int) (k : Nat) : b * b ≠ 2 ^ (2 * k + 1) := by
  intro square
  have size : b.natAbs * b.natAbs = 2 ^ (2 * k + 1) := by
    have := congrArg Int.natAbs square
    rw [Int.natAbs_mul, Int.natAbs_pow] at this
    exact this
  obtain ⟨e, -, power⟩ := (Nat.dvd_prime_pow Nat.prime_two).mp (Dvd.intro _ size)
  rw [power, ← pow_add] at size
  have := Nat.pow_right_injective (le_refl 2) size
  omega

/-- A square that is not in the type is not a factor of anything in it but zero: its only multiple of its own size
would be a power of two. -/
theorem not_fits_mul_square {k : Nat} (least : low = -2 ^ (2 * k + 1)) (greatest : high = 2 ^ (2 * k + 1) - 1)
    {b i : Int} (out : ¬ Fits low high (b * b)) (nonzero : i ≠ 0) : ¬ Fits low high (i * (b * b)) := by
  have nonneg : 0 ≤ b * b := mul_self_nonneg b
  have grown : (2 : Int) ^ (2 * k + 1) < b * b := by
    have different := sq_ne_two_pow_odd b k
    unfold Fits at out
    omega
  unfold Fits
  intro inside
  rcases Int.lt_or_gt_of_ne nonzero with negative | positive
  · have : i * (b * b) ≤ -1 * (b * b) := Int.mul_le_mul_of_nonneg_right (by omega) nonneg
    omega
  · have : 1 * (b * b) ≤ i * (b * b) := Int.mul_le_mul_of_nonneg_right (by omega) nonneg
    omega

end Powers

/-! ## Shifts -/

/-- A negative integer is divided by rounding the quotient of its magnitude up. -/
theorem neg_ediv_eq (m : Nat) {d : Nat} (positive : 0 < d) :
    (-(m : Int)) / d = -((m / d + if m % d ≠ 0 then 1 else 0 : Nat) : Int) := by
  have split : ((m / d : Nat) : Int) * d + (m % d : Nat) = m := by
    exact_mod_cast Nat.div_add_mod' m d
  have small := Nat.mod_lt m positive
  generalize m / d = q at *
  generalize m % d = r at *
  rw [Int.ediv_eq_iff_of_pos (by omega), ← split]
  by_cases zero : r = 0
  · rw [if_neg (not_not_intro zero), zero]
    push_cast
    constructor <;> linarith
  · rw [if_pos zero]
    push_cast
    constructor
    · linarith
    · have : (0 : Int) < r := by omega
      linarith

end Signed
