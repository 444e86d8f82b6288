import PhpPico.Lib.Ieee
import PhpPico.Parray.Key

/-!
# Values as numbers

`pv_to_numeric` reads a value as a number. A string is an integer if it reads as one, and otherwise a float where
there are floats. How a decimal numeral becomes a float is a parameter.
-/

namespace PhpPico.Value

/-- A `pphp_float`. -/
abbrev PFloat (cfg : Config) := BitVec cfg.floatWidth

/-- The bits of the fraction of a `pphp_float`. -/
def fractionBits (cfg : Config) : Nat := if cfg.useDouble then 52 else 23

/-- Conversions to and from floats: a cast, `pphp_decimal_to_float`, `pphp_integer_digits_to_float` for the
base ten, a change of sign, and `pphp_number_to_integer`. -/
structure FloatConversions (cfg : Config) where
  ofInt : Int → PFloat cfg
  ofDecimal : List UInt8 → PFloat cfg
  ofDigits : List UInt8 → PFloat cfg
  neg : PFloat cfg → PFloat cfg
  toInteger : PFloat cfg → Bool → Option Int

/-! ## Values -/

mutual

/-- A `pvalue`. Objects, closures and resources are their addresses. -/
inductive PValue (cfg : Config) where
  | null
  | ptFalse
  | ptTrue
  | int (i : Int)
  | float (bits : PFloat cfg)
  | string (s : PString)
  | array (entries : Entries cfg)
  | object (address : Nat)
  | closure (address : Nat)
  | resource (address : Nat)

/-- The entries of an array, as `pa_entry_at` shows them. -/
inductive Entries (cfg : Config) where
  | nil
  | cons (key : Key) (value : PValue cfg) (rest : Entries cfg)

end

/-- The value of a key. -/
def keyValue {cfg : Config} : Key → PValue cfg
  | .int i => .int i
  | .string s => .string s

/-- `size`. -/
def Entries.size {cfg : Config} : Entries cfg → Nat
  | .nil => 0
  | .cons _ _ rest => rest.size + 1

/-- The number of a `pvalue_type`. -/
def PValue.type {cfg : Config} : PValue cfg → Nat
  | .null => 0
  | .ptFalse => 1
  | .ptTrue => 2
  | .int _ => 3
  | .float _ => 4
  | .string _ => 5
  | .array _ => 6
  | .object _ => 7
  | .closure _ => 8
  | .resource _ => 10

/-- `pv_is_truthy`. -/
def pvIsTruthy {cfg : Config} : PValue cfg → Bool
  | .null | .ptFalse => false
  | .ptTrue => true
  | .int i => i != 0
  | .float bits => !Ieee.eq (fractionBits cfg) bits 0
  | .string s => s.bytes != [] && s.bytes != [48]
  | .array entries => entries.size != 0
  | .object _ | .closure _ | .resource _ => true

/-! ## Numerals -/

/-- The space that may stand around a number. -/
def isSpace (c : UInt8) : Bool := c == 32 || c == 9 || c == 10 || c == 13

/-- A digit. -/
def isDigit (c : UInt8) : Bool := decide (IsDigit c)

/-- The magnitude the digit loop of `string_integer_exact` has read, whether it fits 64 bits, and whether it
has been in the range. -/
structure Magnitude where
  value : Nat
  valid : Bool
  inRange : Bool

/-- One round of the digit loop. -/
def Magnitude.digit (limit : Nat) (m : Magnitude) (c : UInt8) : Magnitude :=
  let digit := c.toNat - 48
  let next : Magnitude :=
    if m.valid then
      if (2 ^ 64 - 1 - digit) / 10 < m.value then { m with valid := false }
      else { m with value := m.value * 10 + digit }
    else m
  { next with inRange := m.inRange && next.valid && decide (next.value ≤ limit) }

/-- What `string_integer_exact` finds: no integer, one in range, or one that is not; and whether anything is
behind it. -/
inductive IntegerNumeral where
  | none
  | exact (value : Int) (trailing : Bool)
  | outOfRange (digits : List UInt8) (negative trailing : Bool)
deriving DecidableEq

/-- A sign: whether it is a minus, and what is behind it. -/
def readSign (text : List UInt8) : Bool × List UInt8 :=
  match text with
  | [] => (false, [])
  | c :: rest => if c = 43 ∨ c = 45 then (c == 45, rest) else (false, text)

/-- `string_integer_exact`. -/
def stringIntegerExact (cfg : Config) (text : List UInt8) (requireComplete : Bool) : IntegerNumeral :=
  let (negative, unsigned) := readSign (text.dropWhile isSpace)
  let digits := unsigned.takeWhile isDigit
  let rest := unsigned.dropWhile isDigit
  let behind := rest.dropWhile isSpace
  if digits = [] ∨ rest.head? = some 46 ∨ rest.head? = some 101 ∨ rest.head? = some 69 then .none
  else if requireComplete = true ∧ behind ≠ [] then .none
  else
    let m := digits.foldl (Magnitude.digit (if negative then cfg.intMax + 1 else cfg.intMax)) ⟨0, true, true⟩
    if !m.inRange then .outOfRange digits negative (behind != [])
    else .exact (if negative then -(m.value : Int) else m.value) (behind != [])

/-- What `floating_string_number` finds: the text of the number, whether it is without fraction and exponent,
and whether anything is behind it. -/
structure FloatNumeral where
  number : List UInt8
  isInteger : Bool
  trailing : Bool
deriving DecidableEq

/-- The length of an exponent at the start of a text, or 0 where there is none. -/
def exponentLength (text : List UInt8) : Nat :=
  if text.head? = some 101 ∨ text.head? = some 69 then
    let unsigned := (readSign text.tail).2
    let digits := unsigned.takeWhile isDigit
    if digits = [] then 0 else text.length - unsigned.length + digits.length
  else 0

/-- `floating_string_number`. -/
def floatingStringNumber (text : List UInt8) (requireComplete : Bool) : Option FloatNumeral :=
  let body := text.dropWhile isSpace
  let unsigned := (readSign body).2
  let whole := unsigned.takeWhile isDigit
  let point := unsigned.dropWhile isDigit
  let fraction := if point.head? = some 46 then point.tail.takeWhile isDigit else []
  let mantissa := if point.head? = some 46 then point.tail.dropWhile isDigit else point
  if whole = [] ∧ fraction = [] then none
  else
    let rest := mantissa.drop (exponentLength mantissa)
    let behind := rest.dropWhile isSpace
    if requireComplete = true ∧ behind ≠ [] then none
    else some ⟨body.take (body.length - rest.length), point.head? ≠ some 46 && exponentLength mantissa == 0, behind != []⟩

/-! ## Numbers -/

/-- `PPHP_NUMERIC_STRING_EXACT` and so on. -/
inductive StringStatus where
  | exact
  | trailing
  | invalid
deriving DecidableEq, Repr

def StringStatus.behind (trailing : Bool) : StringStatus := if trailing then .trailing else .exact

/-- `pphp_numeric`; in a build without floats the number is the integer. -/
structure Numeric (cfg : Config) where
  number : PFloat cfg
  integer : Int
  isInteger : Int
  integerExact : Bool
  integerOutOfRange : Bool
  stringStatus : StringStatus

def Numeric.zero (cfg : Config) : Numeric cfg := ⟨0, 0, 0, false, false, .exact⟩

section Conversions
variable {cfg : Config} (floats : FloatConversions cfg)

/-- An integer as a number. -/
def Numeric.ofInteger (i : Int) (status : StringStatus) : Numeric cfg := ⟨floats.ofInt i, i, 1, true, false, status⟩

/-- `string_numeric`: whether the text is a number, and what is known of it. -/
def stringNumeric (text : List UInt8) (requireComplete : Bool) : Bool × Numeric cfg :=
  match stringIntegerExact cfg text requireComplete with
  | .exact value trailing => (true, .ofInteger floats value (.behind trailing))
  | .outOfRange digits negative trailing =>
    if cfg.enableFloat then
      let number := floats.ofDigits digits
      (true, ⟨if negative then floats.neg number else number, 0, 0, false, true, .behind trailing⟩)
    else (false, ⟨0, 0, -1, false, false, .behind trailing⟩)
  | .none =>
    match (floatingStringNumber text requireComplete).filter fun _ => cfg.enableFloat with
    | some found =>
      (true, ⟨floats.ofDecimal found.number, 0, if found.isInteger then 1 else 0, false, false, .behind found.trailing⟩)
    | none => (false, ⟨0, 0, 0, false, false, .invalid⟩)

/-- `pv_to_numeric`. A build without floats has no values that are floats. -/
def pvToNumeric (value : PValue cfg) (requireComplete : Bool) : Bool × Numeric cfg :=
  match value with
  | .int i => (true, .ofInteger floats i .exact)
  | .float bits => (true, { Numeric.zero cfg with number := bits })
  | .ptTrue => (true, .ofInteger floats 1 .exact)
  | .ptFalse | .null => (true, { Numeric.zero cfg with isInteger := 1, integerExact := true })
  | .string s => stringNumeric floats s.bytes requireComplete
  | .array _ | .object _ | .closure _ | .resource _ => (false, .zero cfg)

end Conversions

end PhpPico.Value
