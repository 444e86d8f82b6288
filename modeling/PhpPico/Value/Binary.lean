import PhpPico.Value.Numeric

/-!
# Binary operations, with floats and without

`pv_binary_operation` is written twice, with floats and without. **Where a build with floats computes an integer or a
string, the build without floats computes the same, apart from two kinds of operands**: the least integer modulo -1,
and strings that are numbers only as floats, such as `"1.5"` in `"1.5" | 1`. The operations on floats are parameters.
-/

namespace PhpPico.Value

/-- `pv_operation`. -/
inductive Operation where
  | add | sub | mul | div | mod | pow | band | bor | bxor | shl | shr | concat
deriving DecidableEq, Repr

/-- The arithmetic of floats that `pv_binary_operation` uses, `pphp_float_power`, and `pphp_format_float` with
14 digits. -/
structure FloatOperations (cfg : Config) extends FloatConversions cfg where
  add : PFloat cfg → PFloat cfg → PFloat cfg
  sub : PFloat cfg → PFloat cfg → PFloat cfg
  mul : PFloat cfg → PFloat cfg → PFloat cfg
  div : PFloat cfg → PFloat cfg → PFloat cfg
  fmod : PFloat cfg → PFloat cfg → PFloat cfg
  power : PFloat cfg → PFloat cfg → PFloat cfg
  format : PFloat cfg → Option (List UInt8)

/-! ## Integers -/

section Integers
variable (cfg : Config)

/-- `pphp_integer_add`. -/
def integerAdd (left right : Int) : Option Int :=
  if (0 < right ∧ cfg.intMax - right < left) ∨ (right < 0 ∧ left < cfg.intMin - right) then none
  else some (left + right)

/-- `pphp_integer_subtract`. -/
def integerSubtract (left right : Int) : Option Int :=
  if (0 < right ∧ left < cfg.intMin + right) ∨ (right < 0 ∧ cfg.intMax + right < left) then none
  else some (left - right)

/-- `pphp_integer_multiply`. The division of C cuts off. -/
def integerMultiply (left right : Int) : Option Int :=
  if 0 < left ∧ ((0 < right ∧ Int.tdiv cfg.intMax right < left) ∨ (right < 0 ∧ right < Int.tdiv cfg.intMin left)) then
    none
  else if left < 0 ∧
      ((0 < right ∧ left < Int.tdiv cfg.intMin right) ∨ (right < 0 ∧ left < Int.tdiv cfg.intMax right)) then
    none
  else some (left * right)

/-- `pphp_integer_division_overflows`. -/
def integerDivisionOverflows (left right : Int) : Bool := left == cfg.intMin && right == -1

/-- The loop of `pphp_integer_power`. -/
def integerPowerLoop (value base : Int) (exponent : Nat) : Option Int :=
  if exponent = 0 then some value
  else
    (if exponent % 2 = 1 then integerMultiply cfg value base else some value).bind fun value =>
      if exponent / 2 = 0 then some value
      else (integerMultiply cfg base base).bind fun base => integerPowerLoop value base (exponent / 2)
termination_by exponent

/-- `pphp_integer_power`. -/
def integerPower (base exponent : Int) : Option Int :=
  if exponent < 0 then none else integerPowerLoop cfg 1 base exponent.toNat

/-- The bits of an integer. -/
def integerBits (i : Int) : BitVec cfg.intWidth := BitVec.ofInt cfg.intWidth i

/-- The distance a shift takes. -/
def shiftDistance (distance : Int) : Nat := (distance % cfg.intWidth).toNat

/-- `integer_shift_left`. -/
def integerShiftLeft (value distance : Int) : Int := (integerBits cfg value <<< shiftDistance cfg distance).toInt

/-- `integer_shift_right`. A negative value is shifted as a magnitude and rounded up. -/
def integerShiftRight (value distance : Int) : Int :=
  let shift := shiftDistance cfg distance
  if shift = 0 then value
  else if 0 ≤ value then (value.toNat >>> shift : Nat)
  else
    let quotient := value.natAbs >>> shift + if value.natAbs % 2 ^ shift ≠ 0 then 1 else 0
    if quotient = cfg.intMax + 1 then cfg.intMin else -(quotient : Int)

/-- The operations on bits: the cases both builds share. -/
def integerBinaryBits (operation : Operation) (left right : Int) : Option Int :=
  match operation with
  | .band => some (integerBits cfg left &&& integerBits cfg right).toInt
  | .bor => some (integerBits cfg left ||| integerBits cfg right).toInt
  | .bxor => some (integerBits cfg left ^^^ integerBits cfg right).toInt
  | .shl => some (integerShiftLeft cfg left right)
  | .shr => some (integerShiftRight cfg left right)
  | _ => none

end Integers

/-! ## Strings -/

/-- Which of the allocations of a concatenation succeed. -/
structure ConcatMemory where
  left : Bool
  right : Bool
  bytes : Bool
  joined : Bool

/-- `pphp_format_integer`. -/
def pphpFormatInteger (i : Int) : List UInt8 := (if i < 0 then [45] else []) ++ printUnsigned i.natAbs

section Operations
variable {cfg : Config} (floats : FloatOperations cfg)

/-- `pv_to_string`; `memory` says whether `ps_new` gets its memory. -/
def pvToString (memory : Bool) (value : PValue cfg) : Option PString :=
  let new (bytes : List UInt8) := if memory then psNew bytes else none
  match value with
  | .null | .ptFalse => new []
  | .ptTrue => new (ascii "1")
  | .int i => new (pphpFormatInteger i)
  | .float bits => if cfg.enableFloat then (floats.format bits).bind new else none
  | .string s => new s.bytes
  | .array _ => new (ascii "Array")
  | .object _ | .closure _ | .resource _ => none

/-- `PV_CONCAT` of `pv_binary_operation`. -/
def concatenate (memory : ConcatMemory) (left right : PValue cfg) : Except (List UInt8) (PValue cfg) :=
  match pvToString floats memory.left left, pvToString floats memory.right right with
  | some leftString, some rightString =>
    if 65535 < leftString.bytes.length + rightString.bytes.length then
      .error (ascii "value cannot be converted to string")
    else if (leftString.bytes.length ≠ 0 ∨ rightString.bytes.length ≠ 0) ∧ memory.bytes = false then
      .error (ascii "out of memory during string concatenation")
    else
      match if memory.joined then psNew (leftString.bytes ++ rightString.bytes) else none with
      | some joined => .ok (.string joined)
      | none => .error (ascii "out of memory during string concatenation")
  | _, _ => .error (ascii "value cannot be converted to string")

/-! ## A build with floats -/

/-- The zero of floats. -/
def floatIsZero (number : PFloat cfg) : Bool := Ieee.eq (fractionBits cfg) number 0

/-- `integer_binary_float`. It has no text for `PV_CONCAT`, which does not get here. -/
def integerBinaryFloat (operation : Operation) (left right : Int) : Except (List UInt8) (PValue cfg) :=
  let integerOr (result : Option Int) (number : PFloat cfg → PFloat cfg → PFloat cfg) : PValue cfg :=
    match result with
    | some i => .int i
    | none => .float (number (floats.ofInt left) (floats.ofInt right))
  match operation with
  | .add => .ok (integerOr (integerAdd cfg left right) floats.add)
  | .sub => .ok (integerOr (integerSubtract cfg left right) floats.sub)
  | .mul => .ok (integerOr (integerMultiply cfg left right) floats.mul)
  | .div =>
    if right = 0 then .error (ascii "Division by zero")
    else
      .ok (integerOr
        (if !integerDivisionOverflows cfg left right && left.tmod right == 0 then some (left.tdiv right) else none)
        floats.div)
  | .mod =>
    if right = 0 then .error (ascii "Modulo by zero")
    else .ok (.int (if integerDivisionOverflows cfg left right then 0 else left.tmod right))
  | .pow => .ok (integerOr (if 0 ≤ right then integerPower cfg left right else none) floats.power)
  | .concat => .error []
  | bits =>
    match integerBinaryBits cfg bits left right with
    | some i => .ok (.int i)
    | none => .error []

/-- `numeric_result`. -/
def numericResult (number : PFloat cfg) (integers : Bool) : PValue cfg :=
  match (floats.toInteger number true).filter fun _ => integers with
  | some i => .int i
  | none => .float number

/-- `pphp_numeric_to_integer`. -/
def numericToInteger (numeric : Numeric cfg) (exact : Bool) : Option Int :=
  if numeric.integerOutOfRange then none
  else if numeric.integerExact then some numeric.integer
  else floats.toInteger numeric.number exact

/-- Whether both numbers are integers as they are written. -/
def bothIntegers (left right : Numeric cfg) : Bool := left.isInteger != 0 && right.isInteger != 0

/-- The switch of `pv_binary_operation` in a build with floats. -/
def floatBinary (operation : Operation) (left right : Numeric cfg) : Except (List UInt8) (PValue cfg) :=
  let a := left.number
  let b := right.number
  match operation with
  | .add => .ok (numericResult floats (floats.add a b) (bothIntegers left right))
  | .sub => .ok (numericResult floats (floats.sub a b) (bothIntegers left right))
  | .mul => .ok (numericResult floats (floats.mul a b) (bothIntegers left right))
  | .div =>
    if floatIsZero b then .error (ascii "Division by zero")
    else .ok (numericResult floats (floats.div a b) (bothIntegers left right && floatIsZero (floats.fmod a b)))
  | .mod =>
    if floatIsZero b then .error (ascii "Modulo by zero")
    else
      match numericToInteger floats left false, numericToInteger floats right false with
      | some leftInteger, some rightInteger =>
        if rightInteger = 0 then .error (ascii "Modulo by zero")
        else if integerDivisionOverflows cfg leftInteger rightInteger then .ok (.int 0)
        else .ok (.int (leftInteger.tmod rightInteger))
      | _, _ => .error (ascii "integer conversion is out of range")
  | .pow => .ok (numericResult floats (floats.power a b) false)
  | .concat => .error (ascii "invalid binary operation")
  | bits =>
    match numericToInteger floats left false, numericToInteger floats right false with
    | some leftInteger, some rightInteger =>
      match integerBinaryBits cfg bits leftInteger rightInteger with
      | some i => .ok (.int i)
      | none => .error (ascii "invalid binary operation")
    | _, _ => .error (ascii "integer conversion is out of range")

/-! ## A build without floats -/

/-- `integer_overflow` where there is no integer. -/
def integerResult (result : Option Int) : Except (List UInt8) (PValue cfg) :=
  match result with
  | some i => .ok (.int i)
  | none => .error (ascii "integer overflow requires float support")

/-- The switch of `pv_binary_operation` in a build without floats, where `a` and `b` are integers. -/
def integerBinary (operation : Operation) (a b : Int) : Except (List UInt8) (PValue cfg) :=
  match operation with
  | .add => integerResult (integerAdd cfg a b)
  | .sub => integerResult (integerSubtract cfg a b)
  | .mul => integerResult (integerMultiply cfg a b)
  | .div =>
    if b = 0 then .error (ascii "Division by zero")
    else if integerDivisionOverflows cfg a b then integerResult none
    else if a.tmod b ≠ 0 then .error (ascii "non-integral division requires float support")
    else .ok (.int (a.tdiv b))
  | .mod =>
    if b = 0 then .error (ascii "Modulo by zero")
    else if integerDivisionOverflows cfg a b then integerResult none
    else .ok (.int (a.tmod b))
  | .pow =>
    if b < 0 then .error (ascii "negative exponent requires float support")
    else integerResult (integerPower cfg a b)
  | .concat => .error (ascii "invalid binary operation")
  | bits =>
    match integerBinaryBits cfg bits a b with
    | some i => .ok (.int i)
    | none => .error (ascii "invalid binary operation")

/-! ## The operation -/

/-- What `pv_binary_operation` leaves behind: its result, and the bits of the operands that are strings but no
numbers. -/
structure BinaryOutcome (cfg : Config) where
  result : Except (List UInt8) (PValue cfg)
  nonNumericOperands : Nat

/-- An operand, read as a number: a string need not be complete. -/
def operandNumeric (operand : PValue cfg) : Bool × Numeric cfg :=
  pvToNumeric floats.toFloatConversions operand (operand.type != 5)

/-- Whether the bit of an operand is set. -/
def isNonNumeric (operand : PValue cfg) : Bool :=
  operand.type == 5 && (operandNumeric floats operand).2.stringStatus != .exact

/-- `pv_binary_operation`. -/
def pvBinaryOperation (memory : ConcatMemory) (operation : Operation) (left right : PValue cfg) : BinaryOutcome cfg :=
  if operation = .concat then ⟨concatenate floats memory left right, 0⟩
  else
    let l := operandNumeric floats left
    let r := operandNumeric floats right
    let result :=
      if !l.1 || !r.1 then
        .error (if l.2.isInteger < 0 ∨ r.2.isInteger < 0 then ascii "integer overflow requires float support"
          else ascii "unsupported operand types")
      else if cfg.enableFloat then
        if l.2.integerExact && r.2.integerExact then integerBinaryFloat floats operation l.2.integer r.2.integer
        else floatBinary floats operation l.2 r.2
      else integerBinary operation l.2.integer r.2.integer
    ⟨result, (if isNonNumeric floats left then 1 else 0) + (if isNonNumeric floats right then 2 else 0)⟩

end Operations

end PhpPico.Value
