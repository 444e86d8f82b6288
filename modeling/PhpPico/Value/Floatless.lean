import PhpPico.Value.Binary

/-!
# What a build without floats computes

The two bodies of `pv_binary_operation` on operands that are no floats. **The build without floats carries over what
the other one computes, unless the operands are the least integer and -1 under `%`, or one of them is a string that is
a number only as a float and the operation on floats gives an integer.**
-/

namespace PhpPico.Value

/-- The same build without floats. -/
def withoutFloats (cfg : Config) : Config := { cfg with enableFloat := false }

mutual

/-- A value in the build without floats. -/
def PValue.rebuilt {cfg : Config} : PValue cfg → PValue (withoutFloats cfg)
  | .null => .null
  | .ptFalse => .ptFalse
  | .ptTrue => .ptTrue
  | .int i => .int i
  | .float bits => .float bits
  | .string s => .string s
  | .array entries => .array entries.rebuilt
  | .object address => .object address
  | .closure address => .closure address
  | .resource address => .resource address

/-- Entries in the build without floats. -/
def Entries.rebuilt {cfg : Config} : Entries cfg → Entries (withoutFloats cfg)
  | .nil => .nil
  | .cons key value rest => .cons key value.rebuilt rest.rebuilt

end

/-- A value that is a float. -/
def PValue.isFloat {cfg : Config} : PValue cfg → Bool
  | .float _ => true
  | _ => false

/-- The result of the build without floats is the one of the build with floats: the same value, unless that is a
float, and an error where there is one. -/
def Carries {cfg : Config} (withFloats : Except (List UInt8) (PValue cfg))
    (without : Except (List UInt8) (PValue (withoutFloats cfg))) : Prop :=
  match withFloats with
  | .ok (.float _) => True
  | .ok value => without = .ok value.rebuilt
  | .error _ => ∃ text, without = .error text

section Builds
variable {cfg : Config} (floats : FloatOperations cfg) (others : FloatOperations (withoutFloats cfg))

/-- The operation on floats gives an integer: a sum, difference or product that is one, a quotient without a
remainder, and what `%` and the operations on bits make of floats in the range of integers. -/
def YieldsInteger (operation : Operation) (left right : Numeric cfg) : Prop :=
  let a := left.number
  let b := right.number
  match operation with
  | .add => bothIntegers left right = true ∧ (floats.toInteger (floats.add a b) true).isSome = true
  | .sub => bothIntegers left right = true ∧ (floats.toInteger (floats.sub a b) true).isSome = true
  | .mul => bothIntegers left right = true ∧ (floats.toInteger (floats.mul a b) true).isSome = true
  | .div =>
    floatIsZero b = false ∧ (bothIntegers left right = true ∧ floatIsZero (floats.fmod a b) = true) ∧
      (floats.toInteger (floats.div a b) true).isSome = true
  | .mod =>
    floatIsZero b = false ∧ (numericToInteger floats left false).isSome = true ∧
      ∃ divisor, numericToInteger floats right false = some divisor ∧ divisor ≠ 0
  | .pow | .concat => False
  | .band | .bor | .bxor | .shl | .shr =>
    (numericToInteger floats left false).isSome = true ∧ (numericToInteger floats right false).isSome = true

/-- The operands on which the builds differ. -/
def Diverges (operation : Operation) (left right : PValue cfg) : Prop :=
  let l := operandNumeric floats left
  let r := operandNumeric floats right
  if l.2.integerExact = true ∧ r.2.integerExact = true then
    operation = .mod ∧ l.2.integer = cfg.intMin ∧ r.2.integer = -1
  else l.1 = true ∧ r.1 = true ∧ YieldsInteger floats operation l.2 r.2

/-! ## Operands -/

@[simp] theorem PValue.rebuilt_type (value : PValue cfg) : value.rebuilt.type = value.type := by
  cases value <;> rfl

@[simp] theorem stringIntegerExact_withoutFloats (text : List UInt8) (requireComplete : Bool) :
    stringIntegerExact (withoutFloats cfg) text requireComplete = stringIntegerExact cfg text requireComplete := rfl

/-- A string that is read as an integer is the same integer in both builds; any other string is no number without
floats. -/
theorem stringNumeric_builds (text : List UInt8) (requireComplete : Bool) :
    let withFloats := stringNumeric floats.toFloatConversions text requireComplete
    let without := stringNumeric others.toFloatConversions text requireComplete
    (withFloats.2.integerExact = true →
      withFloats.1 = true ∧ without.1 = true ∧ without.2.integer = withFloats.2.integer) ∧
    (withFloats.2.integerExact = false → without.1 = false) := by
  have disabled : (withoutFloats cfg).enableFloat = false := rfl
  intro withFloats without
  simp only [withFloats, without, stringNumeric, stringIntegerExact_withoutFloats]
  cases stringIntegerExact cfg text requireComplete with
  | exact value trailing => simp [Numeric.ofInteger]
  | outOfRange digits negative trailing =>
    simp only [disabled]
    cases cfg.enableFloat <;> simp
  | none =>
    simp only [disabled]
    cases (floatingStringNumber text requireComplete).filter fun _ => cfg.enableFloat <;> simp

/-- An operand that is an integer is the same integer in both builds; any other operand is no number without
floats. -/
theorem operandNumeric_builds {operand : PValue cfg} (noFloat : operand.isFloat = false) :
    ((operandNumeric floats operand).2.integerExact = true →
      (operandNumeric floats operand).1 = true ∧ (operandNumeric others operand.rebuilt).1 = true ∧
        (operandNumeric others operand.rebuilt).2.integer = (operandNumeric floats operand).2.integer) ∧
    ((operandNumeric floats operand).2.integerExact = false → (operandNumeric others operand.rebuilt).1 = false) := by
  cases operand with
  | float bits => exact absurd noFloat (by simp [PValue.isFloat])
  | string s => exact stringNumeric_builds floats others s.bytes false
  | null | ptFalse | ptTrue | int | array | object | closure | resource =>
    simp [operandNumeric, PValue.rebuilt, pvToNumeric, Numeric.ofInteger, Numeric.zero]

/-! ## Strings -/

theorem pvToString_builds (memory : Bool) {operand : PValue cfg} (noFloat : operand.isFloat = false) :
    pvToString others memory operand.rebuilt = pvToString floats memory operand := by
  cases operand with
  | float bits => exact absurd noFloat (by simp [PValue.isFloat])
  | null | ptFalse | ptTrue | int | string | array | object | closure | resource => rfl

theorem concatenate_builds (memory : ConcatMemory) {left right : PValue cfg} (leftFloat : left.isFloat = false)
    (rightFloat : right.isFloat = false) :
    Carries (concatenate floats memory left right) (concatenate others memory left.rebuilt right.rebuilt) := by
  simp only [concatenate, pvToString_builds floats others _ leftFloat, pvToString_builds floats others _ rightFloat]
  cases pvToString floats memory.left left with
  | none => exact ⟨_, rfl⟩
  | some leftString =>
    cases pvToString floats memory.right right with
    | none => exact ⟨_, rfl⟩
    | some rightString =>
      dsimp only
      split
      · exact ⟨_, rfl⟩
      · split
        · exact ⟨_, rfl⟩
        · cases (if memory.joined = true then psNew (leftString.bytes ++ rightString.bytes) else none) with
          | none => exact ⟨_, rfl⟩
          | some joined => rfl

/-! ## Integers -/

theorem integerPowerLoop_withoutFloats (value base : Int) (exponent : Nat) :
    integerPowerLoop (withoutFloats cfg) value base exponent = integerPowerLoop cfg value base exponent := by
  induction exponent using Nat.strong_induction_on generalizing value base with
  | h exponent ih =>
    have multiply : integerMultiply (withoutFloats cfg) = integerMultiply cfg := rfl
    rw [integerPowerLoop, integerPowerLoop, multiply]
    by_cases done : exponent = 0
    · rw [if_pos done, if_pos done]
    · have next (value base : Int) := ih (exponent / 2) (by omega) value base
      simp only [next]

@[simp] theorem integerPower_withoutFloats (base exponent : Int) :
    integerPower (withoutFloats cfg) base exponent = integerPower cfg base exponent := by
  simp only [integerPower, integerPowerLoop_withoutFloats]

theorem integerOr_carries (result : Option Int) (number : PFloat cfg) :
    Carries
      (.ok (match result with | some i => .int i | none => .float number) : Except (List UInt8) (PValue cfg))
      (integerResult result) := by
  cases result with
  | none => trivial
  | some i => rfl

theorem integerBinary_builds (operation : Operation) (proper : operation ≠ .concat) (left right : Int) :
    Carries (integerBinaryFloat floats operation left right) (integerBinary operation left right) ↔
      ¬ (operation = .mod ∧ left = cfg.intMin ∧ right = -1) := by
  have overflows :
      integerDivisionOverflows (withoutFloats cfg) left right = integerDivisionOverflows cfg left right := rfl
  cases operation with
  | add => exact iff_of_true (integerOr_carries _ _) (by simp)
  | sub => exact iff_of_true (integerOr_carries _ _) (by simp)
  | mul => exact iff_of_true (integerOr_carries _ _) (by simp)
  | div =>
    refine iff_of_true ?_ (by simp)
    simp only [integerBinaryFloat, integerBinary, overflows]
    split
    · exact ⟨_, rfl⟩
    · cases divided : integerDivisionOverflows cfg left right with
      | true => trivial
      | false =>
        by_cases whole : left.tmod right = 0
        · simp [whole, Carries, PValue.rebuilt]
        · simp [whole, Carries]
  | mod =>
    simp only [integerBinaryFloat, integerBinary, overflows, true_and]
    split
    · rename_i zero
      refine iff_of_true ⟨_, rfl⟩ ?_
      omega
    · cases divided : integerDivisionOverflows cfg left right with
      | true =>
        refine iff_of_false ?_ (not_not_intro ?_)
        · simp [Carries, integerResult]
        · simpa [integerDivisionOverflows] using divided
      | false =>
        refine iff_of_true rfl ?_
        simpa [integerDivisionOverflows] using divided
  | pow =>
    refine iff_of_true ?_ (by simp)
    simp only [integerBinaryFloat, integerBinary, integerPower_withoutFloats]
    by_cases negative : right < 0
    · rw [if_pos negative, if_neg (by omega)]
      trivial
    · rw [if_neg negative, if_pos (by omega)]
      exact integerOr_carries _ _
  | concat => exact absurd rfl proper
  | band => exact iff_of_true rfl (by simp)
  | bor => exact iff_of_true rfl (by simp)
  | bxor => exact iff_of_true rfl (by simp)
  | shl => exact iff_of_true rfl (by simp)
  | shr => exact iff_of_true rfl (by simp)

/-! ## Floats -/

/-- A result of the build with floats that the other build, which has an error, does not carry. -/
theorem carries_error (withFloats : Except (List UInt8) (PValue cfg)) (text : List UInt8)
    (number : ∀ value, withFloats = .ok value → value.isFloat = true ∨ ∃ i, value = .int i) :
    Carries withFloats (.error text) ↔ ¬ ∃ i, withFloats = .ok (.int i) := by
  cases withFloats with
  | error other => exact iff_of_true ⟨_, rfl⟩ (by simp)
  | ok value =>
    cases number value rfl with
    | inl isFloat =>
      cases value with
      | float bits => exact iff_of_true trivial (by simp)
      | _ => cases isFloat
    | inr isInt =>
      obtain ⟨i, rfl⟩ := isInt
      exact iff_of_false (by simp [Carries]) (not_not_intro ⟨i, rfl⟩)

theorem numericResult_int (number : PFloat cfg) (integers : Bool) :
    (∃ i, (.ok (numericResult floats number integers) : Except (List UInt8) (PValue cfg)) = .ok (.int i)) ↔
      integers = true ∧ (floats.toInteger number true).isSome = true := by
  unfold numericResult
  cases floats.toInteger number true with
  | none => simp
  | some i =>
    cases integers with
    | false => simp
    | true => exact iff_of_true ⟨i, rfl⟩ ⟨rfl, rfl⟩

theorem floatBinary_number (operation : Operation) (left right : Numeric cfg) (value : PValue cfg)
    (result : floatBinary floats operation left right = .ok value) : value.isFloat = true ∨ ∃ i, value = .int i := by
  have numeric (number : PFloat cfg) (integers : Bool) :
      (numericResult floats number integers).isFloat = true ∨ ∃ i, numericResult floats number integers = .int i := by
    unfold numericResult
    split
    · exact .inr ⟨_, rfl⟩
    · exact .inl rfl
  unfold floatBinary at result
  dsimp only at result
  repeat' split at result
  all_goals
    first
    | cases result; exact numeric _ _
    | cases result; exact .inr ⟨_, rfl⟩
    | cases result

theorem floatBinary_int (operation : Operation) (left right : Numeric cfg) :
    (∃ i, floatBinary floats operation left right = .ok (.int i)) ↔ YieldsInteger floats operation left right := by
  cases operation with
  | add => exact numericResult_int floats _ _
  | sub => exact numericResult_int floats _ _
  | mul => exact numericResult_int floats _ _
  | div =>
    simp only [floatBinary, YieldsInteger]
    cases floatIsZero right.number with
    | true => simp
    | false =>
      rw [← Bool.and_eq_true, eq_self, true_and]
      exact numericResult_int floats (floats.div left.number right.number) _
  | mod =>
    simp only [floatBinary, YieldsInteger]
    cases floatIsZero right.number with
    | true => simp
    | false =>
      cases numericToInteger floats left false with
      | none => simp
      | some dividend =>
        cases numericToInteger floats right false with
        | none => simp
        | some divisor =>
          by_cases zero : divisor = 0
          · simp [zero]
          · cases overflows : integerDivisionOverflows cfg dividend divisor <;> simp [zero, overflows]
  | pow =>
    refine iff_of_false ?_ id
    exact fun some => Bool.false_ne_true ((numericResult_int floats _ false).mp some).1
  | concat => exact iff_of_false (by simp [floatBinary]) id
  | band | bor | bxor | shl | shr =>
    simp only [floatBinary, YieldsInteger, integerBinaryBits]
    cases numericToInteger floats left false with
    | none => simp
    | some dividend => cases numericToInteger floats right false <;> simp

/-! ## The builds -/

/-- **A build without floats computes what the build with floats does, errors included, on exactly the operands that
do not diverge.** -/
theorem pvBinaryOperation_carries_iff (enabled : cfg.enableFloat = true) (memory : ConcatMemory) (operation : Operation)
    (left right : PValue cfg) (leftFloat : left.isFloat = false) (rightFloat : right.isFloat = false) :
    Carries (pvBinaryOperation floats memory operation left right).result
        (pvBinaryOperation others memory operation left.rebuilt right.rebuilt).result ↔
      ¬ Diverges floats operation left right := by
  have disabled : (withoutFloats cfg).enableFloat = false := rfl
  by_cases concat : operation = .concat
  · subst concat
    refine iff_of_true (concatenate_builds floats others memory leftFloat rightFloat) ?_
    simp [Diverges, YieldsInteger]
  · simp only [pvBinaryOperation, concat, if_false, enabled, disabled, if_true, Diverges]
    obtain ⟨leftSame, leftNone⟩ := operandNumeric_builds floats others leftFloat
    obtain ⟨rightSame, rightNone⟩ := operandNumeric_builds floats others rightFloat
    generalize operandNumeric floats left = l at leftSame leftNone ⊢
    generalize operandNumeric floats right = r at rightSame rightNone ⊢
    generalize operandNumeric others left.rebuilt = l' at leftSame leftNone ⊢
    generalize operandNumeric others right.rebuilt = r' at rightSame rightNone ⊢
    by_cases exact : l.2.integerExact = true ∧ r.2.integerExact = true
    · obtain ⟨leftExact, rightExact⟩ := exact
      obtain ⟨leftConverted, leftConverted', leftInteger⟩ := leftSame leftExact
      obtain ⟨rightConverted, rightConverted', rightInteger⟩ := rightSame rightExact
      simp only [leftConverted, rightConverted, leftConverted', rightConverted', leftExact, rightExact, leftInteger,
        rightInteger, Bool.not_true, Bool.or_false, Bool.and_self, if_true, Bool.false_eq_true, if_false, and_self]
      exact integerBinary_builds floats operation concat l.2.integer r.2.integer
    · have unread : (!l'.1 || !r'.1) = true := by
        rw [not_and_or, Bool.not_eq_true, Bool.not_eq_true] at exact
        cases exact with
        | inl none => simp [leftNone none]
        | inr none => simp [rightNone none]
      have both : (l.2.integerExact && r.2.integerExact) = false := by simpa using exact
      simp only [unread, if_true, if_neg exact, both, Bool.false_eq_true, if_false]
      by_cases converted : l.1 = true ∧ r.1 = true
      · simp only [converted.1, converted.2, Bool.not_true, Bool.or_self, Bool.false_eq_true, if_false, true_and]
        rw [carries_error _ _ (floatBinary_number floats operation l.2 r.2), floatBinary_int]
      · have failed : (!l.1 || !r.1) = true := by
          rw [not_and_or, Bool.not_eq_true, Bool.not_eq_true] at converted
          cases converted with
          | inl none => simp [none]
          | inr none => simp [none]
        rw [if_pos failed]
        exact iff_of_true ⟨_, rfl⟩ (fun both => converted ⟨both.1, both.2.1⟩)

end Builds

/-- A build with 64-bit integers and doubles. -/
def wideBuild : Config := ⟨true, true, true, false, false⟩

/-- Floats for operands that are one: the double 1.0. -/
def oneAsFloat (cfg : Config) : FloatOperations cfg :=
  let one : PFloat cfg := BitVec.ofNat _ 0x3ff0000000000000
  ⟨⟨fun _ => one, fun _ => one, fun _ => one, id, fun _ _ => some 1⟩, fun _ _ => one, fun _ _ => one, fun _ _ => one,
    fun _ _ => one, fun _ _ => 0, fun _ _ => one, fun _ => some (ascii "1")⟩

/-- Memory for a concatenation. -/
def enoughMemory : ConcatMemory := ⟨true, true, true, true⟩

/-- A true shifted by 1 is 2 in both builds. -/
theorem pvBinaryOperation_carries_shift :
    Carries (pvBinaryOperation (oneAsFloat wideBuild) enoughMemory .shl .ptTrue (.int 1)).result
      (pvBinaryOperation (oneAsFloat (withoutFloats wideBuild)) enoughMemory .shl .ptTrue (.int 1)).result := by
  refine (pvBinaryOperation_carries_iff (oneAsFloat wideBuild) (oneAsFloat (withoutFloats wideBuild)) rfl
    enoughMemory .shl .ptTrue (.int 1) rfl rfl).mpr ?_
  intro differ
  have same : Operation.shl = .mod := differ.1
  cases same

/-- The least integer modulo -1 is 0 with floats and an error without. -/
theorem least_modulo_differs : ¬ Carries
      (pvBinaryOperation (oneAsFloat wideBuild) enoughMemory .mod (.int (-9223372036854775808)) (.int (-1))).result
      (pvBinaryOperation (oneAsFloat (withoutFloats wideBuild)) enoughMemory .mod (.int (-9223372036854775808))
        (.int (-1))).result := by
  intro carried
  have differ : integerResult none = .ok (.int 0 : PValue (withoutFloats wideBuild)) := carried
  cases differ

end PhpPico.Value
