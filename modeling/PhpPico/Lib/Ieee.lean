import Mathlib.Data.BitVec
import Mathlib.Order.Defs.LinearOrder

/-!
# Comparison of IEEE 754 numbers

A binary format is its bit patterns: a sign, then a magnitude that grows with the number and is beyond the infinities
for NaNs. The lowest `fraction` bits are the fraction.
-/

namespace Ieee

variable {w : Nat} (fraction : Nat)

/-- The bits behind the sign. -/
def magnitude (x : BitVec w) : Nat := x.toNat % 2 ^ (w - 1)

/-- The magnitude of the infinities. -/
def infinity (w fraction : Nat) : Nat := 2 ^ (w - 1) - 2 ^ fraction

def isNaN (x : BitVec w) : Bool := infinity w fraction < magnitude x

/-- Numbers are ordered as their ranks; both zeros have the rank 0. -/
def rank (x : BitVec w) : Int := if x.msb then -(magnitude x : Int) else magnitude x

/-- `<`. -/
def lt (x y : BitVec w) : Bool := !isNaN fraction x && !isNaN fraction y && decide (rank x < rank y)

/-- `==`. -/
def eq (x y : BitVec w) : Bool := !isNaN fraction x && !isNaN fraction y && decide (rank x = rank y)

variable {fraction} {x y : BitVec w}

theorem eq_iff : eq fraction x y = true ↔ isNaN fraction x = false ∧ isNaN fraction y = false ∧ rank x = rank y := by
  simp [eq, and_assoc]

theorem lt_iff : lt fraction x y = true ↔ isNaN fraction x = false ∧ isNaN fraction y = false ∧ rank x < rank y := by
  simp [lt, and_assoc]

/-- Two numbers of which neither is less are equal, or one is a NaN. -/
theorem not_lt_iff : lt fraction x y = false ∧ lt fraction y x = false ↔
    eq fraction x y = true ∨ isNaN fraction x = true ∨ isNaN fraction y = true := by
  cases nan : isNaN fraction x with
  | true => simp [lt, nan]
  | false =>
    cases nan' : isNaN fraction y with
    | true => simp [lt, nan']
    | false =>
      simp only [lt, eq, nan, nan', Bool.not_false, Bool.true_and, decide_eq_true_eq, decide_eq_false_iff_not,
        Bool.false_eq_true, or_false]
      omega

end Ieee
