import PhpPico.Value.Arithmetic

/-!
# Operators on integers

In a build with floats the operators give what PHP gives, at the limits as well, and fail where PHP throws. Shifts are
different: **they take their distance modulo the width of the integers**, never fail, and do not shift everything out.
-/

namespace PhpPico.Value

/-! ## What PHP gives -/

section Php
variable {cfg : Config} (floats : FloatOperations cfg)

/-- The exact result where it is an integer of the build, and otherwise what is computed from the operands as
floats. -/
def exactOr (number : PFloat cfg → PFloat cfg → PFloat cfg) (left right exact : Int) : PValue cfg :=
  if Checked.Fits cfg exact then .int exact else .float (number (floats.ofInt left) (floats.ofInt right))

/-- An operator of PHP on two integers; there is no value where PHP throws. -/
def phpOperator (operation : Operation) (left right : Int) : Option (PValue cfg) :=
  match operation with
  | .add => some (exactOr floats floats.add left right (left + right))
  | .sub => some (exactOr floats floats.sub left right (left - right))
  | .mul => some (exactOr floats floats.mul left right (left * right))
  | .div =>
    if right = 0 then none
    else if right ∣ left then some (exactOr floats floats.div left right (left / right))
    else some (.float (floats.div (floats.ofInt left) (floats.ofInt right)))
  | .mod => if right = 0 then none else some (.int (left.tmod right))
  | .pow =>
    if 0 ≤ right then some (exactOr floats floats.power left right (left ^ right.toNat))
    else some (.float (floats.power (floats.ofInt left) (floats.ofInt right)))
  | .band => some (.int (integerBits cfg left &&& integerBits cfg right).toInt)
  | .bor => some (.int (integerBits cfg left ||| integerBits cfg right).toInt)
  | .bxor => some (.int (integerBits cfg left ^^^ integerBits cfg right).toInt)
  | .shl =>
    if right < 0 then none
    else if cfg.intWidth ≤ right then some (.int 0)
    else some (.int ((left * 2 ^ right.toNat).bmod (2 ^ cfg.intWidth)))
  | .shr =>
    if right < 0 then none
    else if cfg.intWidth ≤ right then some (.int (if left < 0 then -1 else 0))
    else some (.int (left / 2 ^ right.toNat))
  | .concat => none

/-- The right operand as the operators take it: the distance of a shift modulo the width. -/
def takenOperand (cfg : Config) (operation : Operation) (right : Int) : Int :=
  if operation = .shl ∨ operation = .shr then right % cfg.intWidth else right

end Php

section Operators
variable {cfg : Config} {floats : FloatOperations cfg} {left right : Int}

theorem integerOr_exact (number : PFloat cfg → PFloat cfg → PFloat cfg) (exact : Int) :
    Checked.integerOr floats left right (Checked.exact cfg exact) number = exactOr floats number left right exact := by
  unfold exactOr Checked.exact
  by_cases fits : Checked.Fits cfg exact
  · rw [if_pos fits, Signed.exact_of_fits fits]
    rfl
  · rw [if_neg fits, Signed.exact_of_not_fits fits]
    rfl

theorem integerPower_value (fits : Checked.Fits cfg left) :
    integerPower cfg left right = if right < 0 then none else Checked.exact cfg (left ^ right.toNat) :=
  Option.some.inj ((Checked.integerPower_eq fits).symm.trans (Checked.integerPower_exact fits))

theorem quotient_eq (fits : Checked.Fits cfg left) (nonzero : right ≠ 0) :
    (if !integerDivisionOverflows cfg left right && left.tmod right == 0 then some (left.tdiv right) else none) =
      if right ∣ left then Checked.exact cfg (left / right) else none := by
  unfold Checked.exact
  by_cases whole : right ∣ left
  · have remainder : left.tmod right = 0 := Int.tmod_eq_zero_of_dvd whole
    rw [if_pos whole, remainder]
    cases overflows : integerDivisionOverflows cfg left right with
    | true =>
      -- the least integer divided by -1
      have operands : left = cfg.intMin ∧ right = -1 := by
        unfold integerDivisionOverflows at overflows
        simpa using overflows
      rw [operands.1, operands.2, Int.ediv_neg, Int.ediv_one, Signed.exact_of_not_fits]
      · rfl
      · unfold Signed.Fits Config.intMin
        omega
    | false =>
      have quotient := Checked.div_defined fits nonzero overflows
      rw [Int.tdiv_eq_ediv_of_dvd whole] at quotient ⊢
      rw [Signed.exact_of_fits quotient]
      rfl
  · have remainder : left.tmod right ≠ 0 := fun zero => whole (Int.dvd_of_tmod_eq_zero zero)
    rw [if_neg whole, beq_eq_false_iff_ne.mpr remainder, Bool.and_false, if_neg Bool.false_ne_true]

theorem taken_distance (cfg : Config) (right : Int) : 0 ≤ right % cfg.intWidth ∧ right % cfg.intWidth < cfg.intWidth ∧
      (right % cfg.intWidth).toNat = shiftDistance cfg right := by
  have wide : 0 < (cfg.intWidth : Int) := by
    unfold Config.intWidth
    split <;> decide
  exact ⟨Int.emod_nonneg _ wide.ne', Int.emod_lt_of_pos _ wide, rfl⟩

theorem pvBinaryOperation_integers (enabled : cfg.enableFloat = true) (memory : ConcatMemory) {operation : Operation}
    (operator : operation ≠ .concat) : pvBinaryOperation floats memory operation (.int left) (.int right) =
      ⟨integerBinaryFloat floats operation left right, 0⟩ := by
  unfold pvBinaryOperation
  rw [if_neg operator]
  simp only [enabled, if_true]
  rfl

end Operators

end PhpPico.Value
