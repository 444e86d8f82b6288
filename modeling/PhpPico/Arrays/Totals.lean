import PhpPico.Value.Arithmetic
import PhpPico.Value.NumericPrefix

/-!
# Sums and products of arrays

`array_sum` and `array_product` keep an integer and a float side by side and choose one of them at the end; the
operators convert the exact total where the integers end. A build without floats passes over strings that are numbers
only as floats, where the operators fail.
-/

namespace PhpPico.Arrays
open List Value Value.NumericPrefix

/-! ## The loops -/

section Loops
variable {cfg : Config} (floats : FloatOperations cfg)

/-- What the loops keep; a build without floats has the integer only. -/
structure Totals (cfg : Config) where
  number : PFloat cfg
  integer : Int
  allInteger : Bool

/-- The next integer, if there is one. -/
def Totals.keep (totals : Totals cfg) : Option Int → Totals cfg
  | some i => { totals with integer := i }
  | none => { totals with allInteger := false }

/-- An item in a build with floats. -/
def Totals.take (number : PFloat cfg → PFloat cfg → PFloat cfg) (integer : Int → Int → Option Int) (totals : Totals cfg)
    (numeric : Numeric cfg) : Totals cfg :=
  let next : Totals cfg := { totals with number := number totals.number numeric.number }
  if totals.allInteger then
    next.keep (if numeric.integerExact then integer totals.integer numeric.integer else none)
  else next

/-- An item: what is not a number at all is left to `other`. -/
def Totals.item (number : PFloat cfg → PFloat cfg → PFloat cfg) (integer : Int → Int → Option Int)
    (checked : Numeric cfg → Bool) (other : Totals cfg → Totals cfg) (totals : Totals cfg) (item : PValue cfg) :
    Except (List UInt8) (Totals cfg) :=
  let numeric := pvToNumeric floats.toFloatConversions item true
  if numeric.1 then
    if cfg.enableFloat then
      let next := totals.take number integer numeric.2
      .ok { next with allInteger := next.allInteger && checked numeric.2 }
    else
      match integer totals.integer numeric.2.integer with
      | some i => .ok { totals with integer := i }
      | none => .error (ascii "integer overflow requires float support")
  else if numeric.2.isInteger < 0 then .error (ascii "integer overflow requires float support")
  else .ok (other totals)

/-- The loop over the items. -/
def totalsLoop (item : Totals cfg → PValue cfg → Except (List UInt8) (Totals cfg)) :
    Entries cfg → Totals cfg → Except (List UInt8) (Totals cfg)
  | .nil, totals => .ok totals
  | .cons _ value rest, totals =>
    match item totals value with
    | .ok totals => totalsLoop item rest totals
    | .error message => .error message

/-- The result of the loops. -/
def Totals.result (totals : Totals cfg) : PValue cfg :=
  if cfg.enableFloat then if totals.allInteger then .int totals.integer else .float totals.number
  else .int totals.integer

/-- The body of the loop of `array_sum`. -/
def sumItem : Totals cfg → PValue cfg → Except (List UInt8) (Totals cfg) :=
  Totals.item floats floats.add (integerAdd cfg) (fun _ => true) id

/-- The body of the loop of `call_array_product`: what is not a number makes the product zero. -/
def productItem : Totals cfg → PValue cfg → Except (List UInt8) (Totals cfg) :=
  Totals.item floats floats.mul (integerMultiply cfg) (fun numeric => numeric.isInteger != 0)
    fun totals => { totals with number := floats.ofInt 0, integer := 0 }

/-- `array_sum`. -/
def callArraySum (arguments : List (PValue cfg)) : Except (List UInt8) (PValue cfg) :=
  match arguments with
  | [.array entries] => (totalsLoop (sumItem floats) entries ⟨floats.ofInt 0, 0, true⟩).map Totals.result
  | _ => .error (ascii "array_sum() expects one array")

/-- `call_array_product`. -/
def callArrayProduct (arguments : List (PValue cfg)) : Except (List UInt8) (PValue cfg) :=
  match arguments with
  | [.array entries] => (totalsLoop (productItem floats) entries ⟨floats.ofInt 1, 1, true⟩).map Totals.result
  | _ => .error (ascii "array_product() received invalid arguments")

/-! ## The operators -/

/-- The items one after the other, with an operator of the virtual machine. -/
def operatorFold (memory : ConcatMemory) (operation : Operation) :
    Entries cfg → PValue cfg → Except (List UInt8) (PValue cfg)
  | .nil, total => .ok total
  | .cons _ value rest, total =>
    match (pvBinaryOperation floats memory operation total value).result with
    | .ok total => operatorFold memory operation rest total
    | .error message => .error message

/-- Both fail, or both give the same value. -/
def Same (a b : Except (List UInt8) (PValue cfg)) : Prop := a.toOption = b.toOption

/-! ## Where they agree -/

/-- The items of an array. -/
def items : Entries cfg → List (PValue cfg)
  | .nil => []
  | .cons _ value rest => value :: items rest

/-- A numeric string: a number, with space around it. -/
def NumericString (text : List UInt8) : Prop := (pieces text).HasDigits ∧ (pieces text).rest = []

/-- Integers, floats and numeric strings. -/
def Summand : PValue cfg → Prop
  | .int _ => True
  | .float _ => cfg.enableFloat = true
  | .string s => NumericString s.bytes
  | _ => False

/-- An item as a number. -/
def reading (value : PValue cfg) : Bool × Numeric cfg := pvToNumeric floats.toFloatConversions value true

/-- The exact total of integers, if all of them are exact and no total on the way leaves the range. -/
def exactTotal (p : Promoted) : Int → List (Numeric cfg) → Option Int
  | total, [] => some total
  | total, numeric :: rest =>
    (if numeric.integerExact then Checked.exact cfg (p.exact total numeric.integer) else none).bind fun total =>
      exactTotal p total rest

/-- One number more, as floats. -/
def onto (p : Promoted) (total : PFloat cfg) (numeric : Numeric cfg) : PFloat cfg :=
  p.onFloats floats total numeric.number

/-- **Where the integers end, it does not matter for the total whether they have been rounded one by one**: the float
next to their exact total leads to the same. -/
def Steady (p : Promoted) (start : Int) (numbers : List (Numeric cfg)) : Prop :=
  ∀ front item back total, numbers = front ++ item :: back → exactTotal p start front = some total →
    exactTotal p start (front ++ [item]) = none →
    (item :: back).foldl (onto floats p) (front.foldl (onto floats p) (floats.ofInt start)) =
      (item :: back).foldl (onto floats p) (floats.ofInt total)

/-- A string that is a number only as a float, in a build without floats. -/
def IsFraction (numeric : Bool × Numeric cfg) : Prop := numeric.1 = false ∧ ¬ numeric.2.isInteger < 0

/-- A string that is an integer out of range, in a build without floats. -/
def IsOutside (numeric : Bool × Numeric cfg) : Prop := numeric.1 = false ∧ numeric.2.isInteger < 0

/-- There are no fractions, or the integers alone are refused already. -/
def Whole (p : Promoted) (start : Int) (numbers kept : List (Bool × Numeric cfg)) : Prop :=
  (∀ numeric ∈ numbers, ¬ IsFraction numeric) ∨ (∃ numeric ∈ numbers, IsOutside numeric) ∨
    exactTotal p start (kept.map Prod.snd) = none

/-- Where `array_sum` agrees with `+`. -/
def SumAgrees (values : List (PValue cfg)) : Prop :=
  let numbers := values.map (reading floats)
  if cfg.enableFloat then Steady floats .add 0 (numbers.map Prod.snd)
  else Whole .add 0 numbers (numbers.filter Prod.fst)

/-- Where `array_product` agrees with `*`: behind a fraction the product is zero. -/
def ProductAgrees (values : List (PValue cfg)) : Prop :=
  let numbers := values.map (reading floats)
  if cfg.enableFloat then Steady floats .mul 1 (numbers.map Prod.snd)
  else Whole .mul 1 numbers (numbers.takeWhile Prod.fst)

end Loops

/-! ## Items -/

section Items
variable {cfg : Config} {floats : FloatOperations cfg}

/-- What is known of an item as a number. -/
structure Reads (floats : FloatOperations cfg) (value : PValue cfg) (numeric : Bool × Numeric cfg) : Prop where
  operand : operandNumeric floats value = numeric
  exact : numeric.2.integerExact = true → numeric.2.isInteger = 1 ∧ numeric.2.number = floats.ofInt numeric.2.integer
  inexact : numeric.2.integerExact = false → numeric.2.isInteger ≤ 0
  accepted : cfg.enableFloat = true → numeric.1 = true ∧ 0 ≤ numeric.2.isInteger
  whole : cfg.enableFloat = false → numeric.1 = true → numeric.2.integerExact = true

theorem not_integer_of_stops {text : List UInt8} (numeric : NumericString text)
    (gives_up : (pieces text).whole = [] ∨ Stops (behindDigits text)) :
    ((pieces text).fraction == [] && (pieces text).exponent == []) = false := by
  rw [Bool.and_eq_false_iff]
  by_contra both
  rw [not_or, Bool.not_eq_false, Bool.not_eq_false, beq_iff_eq, beq_iff_eq] at both
  obtain ⟨no_fraction, no_exponent⟩ := both
  rcases gives_up with no_digits | stops
  · exact numeric.1 ⟨no_digits, by rw [no_fraction, tail_nil]⟩
  · have split := behindDigits_eq text
    rw [no_fraction, no_exponent, numeric.2, nil_append, nil_append, append_nil] at split
    rw [split] at stops
    exact not_stops_space _ stops

theorem reads_string {s : PString} (numeric : NumericString s.bytes) :
    Reads floats (.string s) (reading floats (.string s)) := by
  have operand : operandNumeric floats (.string s) = stringNumeric floats.toFloatConversions s.bytes false := rfl
  have read : reading floats (.string s) = stringNumeric floats.toFloatConversions s.bytes true := rfl
  rw [read]
  by_cases gives_up : (pieces s.bytes).whole = [] ∨ Stops (behindDigits s.bytes)
  · have found (complete : Bool) : (pieces s.bytes).float complete = some ⟨(pieces s.bytes).sign ++
        ((pieces s.bytes).whole ++ ((pieces s.bytes).fraction ++ (pieces s.bytes).exponent)), false, false⟩ := by
      unfold Pieces.float
      rw [if_neg numeric.1, if_neg fun h => h.2 numeric.2, not_integer_of_stops numeric gives_up, numeric.2]
      rfl
    cases enabled : cfg.enableFloat with
    | true =>
      have number (complete : Bool) := stringNumeric_of_float floats.toFloatConversions enabled complete gives_up
      simp only [found] at number
      rw [number]
      refine ⟨operand.trans (number false), fun exact => (by cases exact), fun _ => le_rfl, fun _ => ⟨rfl, le_rfl⟩,
        fun without => by cases enabled.symm.trans without⟩
    | false =>
      have number (complete : Bool) : stringNumeric floats.toFloatConversions s.bytes complete =
          (false, ⟨0, 0, 0, false, false, .invalid⟩) := by
        unfold stringNumeric
        rw [stringIntegerExact_of_stops cfg complete gives_up, floatingStringNumber_eq, found, enabled]
        rfl
      rw [number]
      refine ⟨operand.trans (number false), fun exact => (by cases exact), fun _ => le_rfl,
        fun with_floats => (by cases enabled.symm.trans with_floats), fun _ accepted => by cases accepted⟩
  · obtain ⟨digits_there, goes_on⟩ := not_or.mp gives_up
    have one : (0 : Int) ≤ 1 := by decide
    have minus_one : (-1 : Int) ≤ 0 := by decide
    have found (complete : Bool) : stringIntegerExact cfg s.bytes complete =
        if !((pieces s.bytes).magnitude cfg).inRange then
          .outOfRange (pieces s.bytes).whole ((pieces s.bytes).sign == [45]) false
        else .exact ((pieces s.bytes).value cfg) false := by
      rw [stringIntegerExact_eq cfg complete digits_there goes_on, Pieces.integer, if_neg fun h => h.2 numeric.2,
        numeric.2]
      rfl
    cases in_range : ((pieces s.bytes).magnitude cfg).inRange with
    | true =>
      have number (complete : Bool) : stringNumeric floats.toFloatConversions s.bytes complete =
          (true, .ofInteger floats.toFloatConversions ((pieces s.bytes).value cfg) .exact) := by
        unfold stringNumeric
        rw [found, in_range]
        rfl
      rw [number]
      exact ⟨operand.trans (number false), fun _ => ⟨rfl, rfl⟩, fun inexact => (by cases inexact),
        fun _ => ⟨rfl, one⟩, fun _ _ => rfl⟩
    | false =>
      cases enabled : cfg.enableFloat with
      | true =>
        have number (complete : Bool) : stringNumeric floats.toFloatConversions s.bytes complete =
            (true, ⟨if (pieces s.bytes).sign == [45] then floats.neg (floats.ofDigits (pieces s.bytes).whole)
              else floats.ofDigits (pieces s.bytes).whole, 0, 0, false, true, .exact⟩) := by
          unfold stringNumeric
          rw [found, in_range]
          simp only [Bool.not_false, if_true, enabled]
          rfl
        rw [number]
        exact ⟨operand.trans (number false), fun exact => (by cases exact), fun _ => le_rfl, fun _ => ⟨rfl, le_rfl⟩,
          fun without => by cases enabled.symm.trans without⟩
      | false =>
        have number (complete : Bool) : stringNumeric floats.toFloatConversions s.bytes complete =
            (false, ⟨0, 0, -1, false, false, .exact⟩) := by
          unfold stringNumeric
          rw [found, in_range]
          simp only [Bool.not_false, if_true, enabled]
          rfl
        rw [number]
        exact ⟨operand.trans (number false), fun exact => (by cases exact), fun _ => minus_one,
          fun with_floats => (by cases enabled.symm.trans with_floats), fun _ accepted => by cases accepted⟩

/-- **The items as numbers**: a string need not be complete to be an operand, but a numeric string is. -/
theorem reads_item {value : PValue cfg} (summand : Summand value) : Reads floats value (reading floats value) := by
  cases value with
  | int i =>
    have one : (0 : Int) ≤ 1 := by decide
    exact ⟨rfl, fun _ => ⟨rfl, rfl⟩, fun inexact => (by cases inexact), fun _ => ⟨rfl, one⟩, fun _ _ => rfl⟩
  | float bits =>
    exact ⟨rfl, fun exact => (by cases exact), fun _ => le_rfl, fun _ => ⟨rfl, le_rfl⟩,
      fun without => by cases summand.symm.trans without⟩
  | string s => exact reads_string summand
  | _ => exact absurd summand not_false

/-! ## With floats -/

section Steps
variable {memory : ConcatMemory} {value : PValue cfg} {numeric : Bool × Numeric cfg}

theorem pvBinaryOperation_promoted (p : Promoted) (left right : PValue cfg) :
    (pvBinaryOperation floats memory p.operation left right).result =
      if !(operandNumeric floats left).1 || !(operandNumeric floats right).1 then
        .error (if (operandNumeric floats left).2.isInteger < 0 ∨ (operandNumeric floats right).2.isInteger < 0 then
          ascii "integer overflow requires float support" else ascii "unsupported operand types")
      else if cfg.enableFloat then
        if (operandNumeric floats left).2.integerExact && (operandNumeric floats right).2.integerExact then
          integerBinaryFloat floats p.operation (operandNumeric floats left).2.integer
            (operandNumeric floats right).2.integer
        else floatBinary floats p.operation (operandNumeric floats left).2 (operandNumeric floats right).2
      else integerBinary p.operation (operandNumeric floats left).2.integer
        (operandNumeric floats right).2.integer := by
  unfold pvBinaryOperation
  cases p with
  | add => rw [if_neg (by decide)]
  | sub => rw [if_neg (by decide)]
  | mul => rw [if_neg (by decide)]

theorem floatBinary_promoted (p : Promoted) {left right : Numeric cfg} (not_both : bothIntegers left right = false) :
    floatBinary floats p.operation left right = .ok (.float (p.onFloats floats left.number right.number)) := by
  have kept (number : PFloat cfg) : numericResult floats number (bothIntegers left right) = .float number := by
    rw [not_both]
    unfold numericResult
    cases floats.toInteger number true with
    | none => rfl
    | some i => rfl
  cases p with
  | add => exact congrArg Except.ok (kept _)
  | sub => exact congrArg Except.ok (kept _)
  | mul => exact congrArg Except.ok (kept _)

theorem step_float (enabled : cfg.enableFloat = true) (p : Promoted) (reads : Reads floats value numeric)
    (total : PFloat cfg) : (pvBinaryOperation floats memory p.operation (.float total) value).result =
      .ok (.float (onto floats p total numeric.2)) := by
  have left : operandNumeric floats (.float total) = (true, { Numeric.zero cfg with number := total }) := rfl
  rw [pvBinaryOperation_promoted, reads.operand, left, (reads.accepted enabled).1, enabled]
  exact floatBinary_promoted p rfl

theorem step_int (enabled : cfg.enableFloat = true) (p : Promoted) (reads : Reads floats value numeric) {total : Int}
    (fits : Checked.Fits cfg total) : (pvBinaryOperation floats memory p.operation (.int total) value).result =
      .ok (match if numeric.2.integerExact then Checked.exact cfg (p.exact total numeric.2.integer) else none with
        | some i => .int i
        | none => .float (onto floats p (floats.ofInt total) numeric.2)) := by
  have left : operandNumeric floats (.int total) = (true, .ofInteger floats.toFloatConversions total .exact) := rfl
  obtain ⟨accepted, signed⟩ := reads.accepted enabled
  rw [pvBinaryOperation_promoted, reads.operand, left, accepted, enabled]
  cases exact : numeric.2.integerExact with
  | true =>
    have code : (integerBinaryFloat floats p.operation total numeric.2.integer) =
      .ok (Checked.integerOr floats total numeric.2.integer (Checked.exact cfg (p.exact total numeric.2.integer))
        (p.onFloats floats)) := integerBinaryFloat_promoted p fits
    refine code.trans (congrArg Except.ok ?_)
    unfold Checked.integerOr onto
    rw [(reads.exact exact).2]
    rfl
  | false =>
    have inexact := reads.inexact exact
    apply floatBinary_promoted p
    have zero : numeric.2.isInteger = 0 := by omega
    unfold bothIntegers
    rw [zero]
    exact Bool.and_false _

end Steps

/-! ## Runs -/

theorem totalsLoop_eq (item : Totals cfg → PValue cfg → Except (List UInt8) (Totals cfg)) :
    ∀ (entries : Entries cfg) (totals : Totals cfg), totalsLoop item entries totals = (items entries).foldlM item totals
  | .nil, _ => rfl
  | .cons _ value rest, totals => by
    rw [totalsLoop, items, foldlM_cons]
    cases item totals value with
    | ok totals => exact totalsLoop_eq item rest totals
    | error message => rfl

theorem operatorFold_eq (memory : ConcatMemory) (operation : Operation) :
    ∀ (entries : Entries cfg) (total : PValue cfg), operatorFold floats memory operation entries total =
      (items entries).foldlM (fun total value => (pvBinaryOperation floats memory operation total value).result) total
  | .nil, _ => rfl
  | .cons _ value rest, total => by
    rw [operatorFold, items, foldlM_cons]
    cases (pvBinaryOperation floats memory operation total value).result with
    | ok total => exact operatorFold_eq memory operation rest total
    | error message => rfl

theorem foldlM_of_error {A B : Type} {step : A → B → Except (List UInt8) A} {a : A} {b : B} {rest : List B}
    (fails : ∃ message, step a b = .error message) : ((b :: rest).foldlM step a).toOption = none := by
  obtain ⟨message, failed⟩ := fails
  rw [foldlM_cons, failed]
  rfl

section Runs
variable {p : Promoted} {integer : Int → Int → Option Int} {checked : Numeric cfg → Bool}
  {other : Totals cfg → Totals cfg} {values : List (PValue cfg)} {memory : ConcatMemory}

/-- The numbers of the items. -/
def numbersOf (floats : FloatOperations cfg) (values : List (PValue cfg)) : List (Numeric cfg) :=
  (values.map (reading floats)).map Prod.snd

/-- The helper of the code computes exactly or refuses. -/
def Computes (cfg : Config) (p : Promoted) (integer : Int → Int → Option Int) : Prop :=
  ∀ a b, Checked.Fits cfg a → integer a b = Checked.exact cfg (p.exact a b)

theorem exact_fits {i j : Int} (h : Checked.exact cfg i = some j) : Checked.Fits cfg j := by
  by_cases fits : Checked.Fits cfg i
  · rw [Checked.exact, Signed.exact_of_fits fits] at h
    exact Option.some.inj h ▸ fits
  · rw [Checked.exact, Signed.exact_of_not_fits fits] at h
    cases h

/-- An item in a build with floats. -/
theorem item_float (enabled : cfg.enableFloat = true) {value : PValue cfg} (summand : Summand value)
    (totals : Totals cfg) : Totals.item floats (p.onFloats floats) integer checked other totals value =
      .ok { totals.take (p.onFloats floats) integer (reading floats value).2 with
        allInteger := (totals.take (p.onFloats floats) integer (reading floats value).2).allInteger &&
          checked (reading floats value).2 } := by
  have accepted : (pvToNumeric floats.toFloatConversions value true).1 = true :=
    ((reads_item summand).accepted enabled).1
  unfold Totals.item
  dsimp only
  rw [accepted, if_pos rfl, enabled]
  rfl

theorem loop_float (enabled : cfg.enableFloat = true) (summands : ∀ v ∈ values, Summand v) (x : PFloat cfg) (i : Int) :
    (values.foldlM (Totals.item floats (p.onFloats floats) integer checked other) ⟨x, i, false⟩).map Totals.result =
      .ok (.float ((numbersOf floats values).foldl (onto floats p) x)) := by
  induction values generalizing x with
  | nil =>
    change Except.ok (Totals.result ⟨x, i, false⟩) = _
    unfold Totals.result
    rw [enabled]
    rfl
  | cons value rest ih =>
    rw [foldlM_cons, item_float enabled (summands value mem_cons_self)]
    exact ih (fun v listed => summands v (.tail _ listed)) _

/-- **The loop keeps the exact total of the integers, and adds up all numbers as floats beside it.** -/
theorem loop_int (enabled : cfg.enableFloat = true) (computes : Computes cfg p integer)
    (checks : ∀ numeric : Numeric cfg, numeric.isInteger = 1 → checked numeric = true)
    (summands : ∀ v ∈ values, Summand v) (x : PFloat cfg) {i : Int} (fits : Checked.Fits cfg i) :
    (values.foldlM (Totals.item floats (p.onFloats floats) integer checked other) ⟨x, i, true⟩).map Totals.result =
      .ok (match exactTotal p i (numbersOf floats values) with
        | some total => .int total
        | none => .float ((numbersOf floats values).foldl (onto floats p) x)) := by
  induction values generalizing x i with
  | nil =>
    change Except.ok (Totals.result ⟨x, i, true⟩) = _
    unfold Totals.result
    rw [enabled]
    rfl
  | cons value rest ih =>
    have summand := summands value (.head _)
    have others : ∀ v ∈ rest, Summand v := fun v listed => summands v (.tail _ listed)
    have numbers : numbersOf floats (value :: rest) = (reading floats value).2 :: numbersOf floats rest := rfl
    rw [foldlM_cons, item_float enabled summand, numbers, exactTotal, foldl_cons]
    generalize more : (if (reading floats value).2.integerExact then
      Checked.exact cfg (p.exact i (reading floats value).2.integer) else none) = next
    have taken : (⟨x, i, true⟩ : Totals cfg).take (p.onFloats floats) integer (reading floats value).2 =
        (⟨onto floats p x (reading floats value).2, i, true⟩ : Totals cfg).keep next := by
      have code : (⟨x, i, true⟩ : Totals cfg).take (p.onFloats floats) integer (reading floats value).2 =
        (⟨onto floats p x (reading floats value).2, i, true⟩ : Totals cfg).keep
          (if (reading floats value).2.integerExact then integer i (reading floats value).2.integer else none) := rfl
      rw [code, computes i _ fits, more]
    rw [taken]
    cases next with
    | some j =>
      cases exact : (reading floats value).2.integerExact with
      | true =>
        rw [exact, if_pos rfl] at more
        have good := checks _ ((reads_item summand).exact exact).1
        rw [good]
        exact ih others _ (exact_fits more)
      | false =>
        rw [exact] at more
        cases more
    | none => exact loop_float enabled others _ i

theorem fold_float (enabled : cfg.enableFloat = true) (summands : ∀ v ∈ values, Summand v) (x : PFloat cfg) :
    values.foldlM (fun total value => (pvBinaryOperation floats memory p.operation total value).result) (.float x) =
      .ok (.float ((numbersOf floats values).foldl (onto floats p) x)) := by
  induction values generalizing x with
  | nil => rfl
  | cons value rest ih =>
    rw [foldlM_cons, step_float enabled p (reads_item (summands value mem_cons_self))]
    exact ih (fun v listed => summands v (.tail _ listed)) _

/-- **The operators keep the exact total of the integers, and convert it where they end.** -/
theorem fold_int (memory : ConcatMemory) (enabled : cfg.enableFloat = true) (summands : ∀ v ∈ values, Summand v)
    {i : Int} (fits : Checked.Fits cfg i) : (∀ total, exactTotal p i (numbersOf floats values) = some total →
      values.foldlM (fun total value => (pvBinaryOperation floats memory p.operation total value).result) (.int i) =
        .ok (.int total)) ∧
    ∀ front item back total, numbersOf floats values = front ++ item :: back → exactTotal p i front = some total →
      exactTotal p i (front ++ [item]) = none →
      values.foldlM (fun total value => (pvBinaryOperation floats memory p.operation total value).result) (.int i) =
        .ok (.float ((item :: back).foldl (onto floats p) (floats.ofInt total))) := by
  induction values generalizing i with
  | nil =>
    refine ⟨fun total exact => ?_, fun front item back total split => ?_⟩
    · cases exact
      rfl
    · exact absurd split.symm (append_ne_nil_of_right_ne_nil front (cons_ne_nil item back))
  | cons value rest ih =>
    have summand := summands value (.head _)
    have others : ∀ v ∈ rest, Summand v := fun v listed => summands v (.tail _ listed)
    have numbers : numbersOf floats (value :: rest) = (reading floats value).2 :: numbersOf floats rest := rfl
    rw [foldlM_cons, step_int enabled p (reads_item summand) fits, numbers]
    generalize more : (if (reading floats value).2.integerExact then
      Checked.exact cfg (p.exact i (reading floats value).2.integer) else none) = next
    have inside : ∀ j, next = some j → Checked.Fits cfg j := by
      rintro j rfl
      split at more
      · exact exact_fits more
      · cases more
    constructor
    · intro total exact
      rw [exactTotal, more] at exact
      obtain ⟨j, rfl, exact⟩ := Option.bind_eq_some_iff.mp exact
      exact (ih others (inside j rfl)).1 total exact
    · intro front item back total split exact ends
      cases front with
      | nil =>
        obtain ⟨rfl, rfl⟩ := cons.inj split
        cases exact
        rw [nil_append, exactTotal, more] at ends
        cases next with
        | some j => cases ends
        | none => exact fold_float enabled others _
      | cons first front =>
        obtain ⟨rfl, behind⟩ := cons.inj split
        rw [exactTotal, more] at exact
        obtain ⟨j, rfl, exact⟩ := Option.bind_eq_some_iff.mp exact
        rw [cons_append, exactTotal, more] at ends
        exact (ih others (inside j rfl)).2 front item back total behind exact ends

/-- Where integers have ended they have ended. -/
theorem exactTotal_append {i : Int} {front : List (Numeric cfg)} (ends : exactTotal p i front = none)
    (back : List (Numeric cfg)) : exactTotal p i (front ++ back) = none := by
  induction front generalizing i with
  | nil => cases ends
  | cons numeric rest ih =>
    rw [exactTotal] at ends
    rw [cons_append, exactTotal]
    generalize (if numeric.integerExact then Checked.exact cfg (p.exact i numeric.integer) else none) = next at ends ⊢
    cases next with
    | none => rfl
    | some j => exact ih ends

theorem exists_end {i : Int} {numbers : List (Numeric cfg)} (ends : exactTotal p i numbers = none) :
    ∃ front item back total, numbers = front ++ item :: back ∧ exactTotal p i front = some total ∧
      exactTotal p i (front ++ [item]) = none := by
  induction numbers generalizing i with
  | nil => cases ends
  | cons numeric rest ih =>
    rw [exactTotal] at ends
    generalize more : (if numeric.integerExact then Checked.exact cfg (p.exact i numeric.integer) else none) = next
      at ends
    cases next with
    | none =>
      refine ⟨[], numeric, rest, i, rfl, rfl, ?_⟩
      rw [nil_append, exactTotal, more]
      rfl
    | some j =>
      obtain ⟨front, item, back, total, split, exact, out⟩ := ih ends
      refine ⟨numeric :: front, item, back, total, congrArg (numeric :: ·) split, ?_, ?_⟩
      · rw [exactTotal, more]
        exact exact
      · rw [cons_append, exactTotal, more]
        exact out

/-- **With floats the loop and the operators agree exactly where the rounding on the way does not matter.** -/
theorem same_iff_steady (enabled : cfg.enableFloat = true) (computes : Computes cfg p integer)
    (checks : ∀ numeric : Numeric cfg, numeric.isInteger = 1 → checked numeric = true)
    (summands : ∀ v ∈ values, Summand v) {start : Int} (fits : Checked.Fits cfg start) :
    Same ((values.foldlM (Totals.item floats (p.onFloats floats) integer checked other)
        ⟨floats.ofInt start, start, true⟩).map Totals.result)
      (values.foldlM (fun total value => (pvBinaryOperation floats memory p.operation total value).result)
        (.int start)) ↔ Steady floats p start (numbersOf floats values) := by
  unfold Same
  rw [loop_int enabled computes checks summands _ fits]
  obtain ⟨whole, promoted⟩ := fold_int memory (p := p) enabled summands fits
  constructor
  · intro same front item back total split exact ends
    have fold := promoted front item back total split exact ends
    have none_left : exactTotal p start (numbersOf floats values) = none := by
      rw [split, ← singleton_append, ← append_assoc]
      exact exactTotal_append ends back
    rw [none_left, fold] at same
    injection same with same
    injection same with same
    rw [← same, split, foldl_append]
  · intro steady
    cases ends : exactTotal p start (numbersOf floats values) with
    | some total => rw [whole total ends]
    | none =>
      obtain ⟨front, item, back, total, split, exact, out⟩ := exists_end ends
      rw [promoted front item back total split exact out, ← steady front item back total split exact out, split,
        foldl_append]

/-! ## Without floats -/

section Without
variable (without : cfg.enableFloat = false) (computes : Computes cfg p integer)

theorem integerBinary_promoted (p : Promoted) {left : Int} (fits : Checked.Fits cfg left) (right : Int) :
    (integerBinary p.operation left right : Except (List UInt8) (PValue cfg)) =
      integerResult (Checked.exact cfg (p.exact left right)) := by
  cases p with
  | add =>
    have code : (integerBinary .add left right : Except (List UInt8) (PValue cfg)) =
      integerResult (integerAdd cfg left right) := rfl
    exact code.trans (by rw [Checked.integerAdd_value fits]; rfl)
  | sub =>
    have code : (integerBinary .sub left right : Except (List UInt8) (PValue cfg)) =
      integerResult (integerSubtract cfg left right) := rfl
    exact code.trans (by rw [Checked.integerSubtract_value fits]; rfl)
  | mul =>
    have code : (integerBinary .mul left right : Except (List UInt8) (PValue cfg)) =
      integerResult (integerMultiply cfg left right) := rfl
    exact code.trans (by rw [Checked.integerMultiply_value]; rfl)

include without

theorem step_without (memory : ConcatMemory) {value : PValue cfg} (summand : Summand value) {i : Int}
    (fits : Checked.Fits cfg i) :
    ((reading floats value).1 = true → (pvBinaryOperation floats memory p.operation (.int i) value).result =
      integerResult (Checked.exact cfg (p.exact i (reading floats value).2.integer))) ∧
    ((reading floats value).1 = false →
      ∃ message, (pvBinaryOperation floats memory p.operation (.int i) value).result = .error message) := by
  have left : operandNumeric floats (.int i) = (true, .ofInteger floats.toFloatConversions i .exact) := rfl
  rw [pvBinaryOperation_promoted, (reads_item summand).operand, left, without]
  constructor
  · intro accepted
    rw [accepted]
    exact integerBinary_promoted p fits _
  · intro refused
    rw [refused]
    exact ⟨_, rfl⟩

include computes

theorem item_without (checked : Numeric cfg → Bool) (other : Totals cfg → Totals cfg) (value : PValue cfg)
    {totals : Totals cfg} (fits : Checked.Fits cfg totals.integer) :
    ((reading floats value).1 = true →
      (∀ j, Checked.exact cfg (p.exact totals.integer (reading floats value).2.integer) = some j →
        Totals.item floats (p.onFloats floats) integer checked other totals value =
          .ok { totals with integer := j }) ∧
      (Checked.exact cfg (p.exact totals.integer (reading floats value).2.integer) = none →
        ∃ message, Totals.item floats (p.onFloats floats) integer checked other totals value = .error message)) ∧
    (IsOutside (reading floats value) →
      ∃ message, Totals.item floats (p.onFloats floats) integer checked other totals value = .error message) ∧
    (IsFraction (reading floats value) →
      Totals.item floats (p.onFloats floats) integer checked other totals value = .ok (other totals)) := by
  have same : pvToNumeric floats.toFloatConversions value true = reading floats value := rfl
  unfold Totals.item
  dsimp only
  rw [same, without, computes _ _ fits]
  refine ⟨fun accepted => ?_, fun outside => ?_, fun fraction => ?_⟩
  · rw [accepted, if_pos rfl, if_neg Bool.false_ne_true]
    refine ⟨fun j exact => ?_, fun exact => ?_⟩
    · rw [exact]
    · rw [exact]
      exact ⟨_, rfl⟩
  · rw [outside.1, if_neg Bool.false_ne_true, if_pos outside.2]
    exact ⟨_, rfl⟩
  · rw [fraction.1, if_neg Bool.false_ne_true, if_neg fraction.2]

theorem same_of_whole (summands : ∀ v ∈ values, Summand v) (unbroken : ∀ v ∈ values, ¬ IsFraction (reading floats v))
    (totals : Totals cfg) (fits : Checked.Fits cfg totals.integer) :
    Same ((values.foldlM (Totals.item floats (p.onFloats floats) integer checked other) totals).map Totals.result)
      (values.foldlM (fun total value => (pvBinaryOperation floats memory p.operation total value).result)
        (.int totals.integer)) := by
  induction values generalizing totals with
  | nil =>
    change some totals.result = some (.int totals.integer)
    unfold Totals.result
    rw [without]
    rfl
  | cons value rest ih =>
    have others : ∀ v ∈ rest, Summand v := fun v listed => summands v (.tail _ listed)
    have unbroken' : ∀ v ∈ rest, ¬ IsFraction (reading floats v) := fun v listed => unbroken v (.tail _ listed)
    obtain ⟨next, outside, -⟩ := item_without without computes checked other value fits
    obtain ⟨step, refused⟩ := step_without without (p := p) memory (summands value (.head _)) fits
    cases accepted : (reading floats value).1 with
    | true =>
      cases exact : Checked.exact cfg (p.exact totals.integer (reading floats value).2.integer) with
      | some j =>
        rw [foldlM_cons, foldlM_cons, (next accepted).1 j exact, step accepted, exact]
        exact ih others unbroken' _ (exact_fits exact)
      | none =>
        have failed : ∃ message, (pvBinaryOperation floats memory p.operation (.int totals.integer) value).result =
            .error message := by
          rw [step accepted, exact]
          exact ⟨_, rfl⟩
        obtain ⟨message, stopped⟩ := (next accepted).2 exact
        unfold Same
        rw [foldlM_of_error failed, foldlM_cons, stopped]
        rfl
    | false =>
      have out : IsOutside (reading floats value) := by
        refine ⟨accepted, ?_⟩
        by_contra fraction
        exact unbroken value (.head _) ⟨accepted, fraction⟩
      obtain ⟨message, stopped⟩ := outside out
      unfold Same
      rw [foldlM_of_error (refused accepted), foldlM_cons, stopped]
      rfl

end Without

section Refused
variable (without : cfg.enableFloat = false)
include without

theorem fold_refused (summands : ∀ v ∈ values, Summand v) (some_refused : ∃ v ∈ values, (reading floats v).1 = false)
    {i : Int} (fits : Checked.Fits cfg i) :
    (values.foldlM (fun total value => (pvBinaryOperation floats memory p.operation total value).result)
      (.int i)).toOption = none := by
  induction values generalizing i with
  | nil =>
    obtain ⟨v, listed, -⟩ := some_refused
    cases listed
  | cons value rest ih =>
    obtain ⟨step, refused⟩ := step_without without (p := p) memory (summands value (.head _)) fits
    cases accepted : (reading floats value).1 with
    | true =>
      have later : ∃ v ∈ rest, (reading floats v).1 = false := by
        obtain ⟨v, listed, other⟩ := some_refused
        rcases mem_cons.mp listed with rfl | listed
        · rw [accepted] at other
          cases other
        · exact ⟨v, listed, other⟩
      cases exact : Checked.exact cfg (p.exact i (reading floats value).2.integer) with
      | some j =>
        rw [foldlM_cons, step accepted, exact]
        exact ih (fun v listed => summands v (.tail _ listed)) later (exact_fits exact)
      | none =>
        apply foldlM_of_error
        rw [step accepted, exact]
        exact ⟨_, rfl⟩
    | false => exact foldlM_of_error (refused accepted)

theorem exactTotal_cons {value : PValue cfg} (summand : Summand value) (accepted : (reading floats value).1 = true)
    (i : Int) (rest : List (Numeric cfg)) : exactTotal p i ((reading floats value).2 :: rest) =
      (Checked.exact cfg (p.exact i (reading floats value).2.integer)).bind fun j => exactTotal p j rest := by
  rw [exactTotal, if_pos ((reads_item summand).whole without accepted)]

/-- **The loop fails** at an integer out of range, or where the total of the items that count leaves the range. -/
theorem loop_fails (computes : Computes cfg p integer) (chosen : List (Bool × Numeric cfg) → List (Bool × Numeric cfg))
    (noItem : chosen [] = [])
    (taken : ∀ numeric rest, numeric.1 = true → chosen (numeric :: rest) = numeric :: chosen rest)
    (skipped : ∀ totals numeric (rest : List (PValue cfg)), numeric.1 = false → (∀ v ∈ rest, Summand v) →
      Checked.Fits cfg totals.integer → Checked.Fits cfg (other totals).integer ∧
      (exactTotal p (other totals).integer ((chosen (rest.map (reading floats))).map Prod.snd) = none ↔
        exactTotal p totals.integer ((chosen (numeric :: rest.map (reading floats))).map Prod.snd) = none))
    (summands : ∀ v ∈ values, Summand v) {totals : Totals cfg} (fits : Checked.Fits cfg totals.integer) :
    (values.foldlM (Totals.item floats (p.onFloats floats) integer checked other) totals).toOption = none ↔
      (∃ numeric ∈ values.map (reading floats), IsOutside numeric) ∨
        exactTotal p totals.integer ((chosen (values.map (reading floats))).map Prod.snd) = none := by
  induction values generalizing totals with
  | nil =>
    refine iff_of_false (fun failed => by cases failed) ?_
    rw [map_nil, noItem]
    rintro (⟨numeric, listed, -⟩ | out)
    · cases listed
    · cases out
  | cons value rest ih =>
    have others : ∀ v ∈ rest, Summand v := fun v listed => summands v (.tail _ listed)
    obtain ⟨next, outside, fractional⟩ := item_without without computes checked other value fits
    rw [map_cons, exists_mem_cons_iff]
    cases accepted : (reading floats value).1 with
    | true =>
      have inside : ¬ IsOutside (reading floats value) := fun out => by cases accepted.symm.trans out.1
      rw [taken _ _ accepted, map_cons, exactTotal_cons without (summands value mem_cons_self) accepted,
        or_iff_right inside]
      cases exact : Checked.exact cfg (p.exact totals.integer (reading floats value).2.integer) with
      | some j =>
        rw [foldlM_cons, (next accepted).1 j exact]
        exact ih others (exact_fits exact)
      | none => exact iff_of_true (foldlM_of_error ((next accepted).2 exact)) (.inr rfl)
    | false =>
      by_cases out : IsOutside (reading floats value)
      · exact iff_of_true (foldlM_of_error (outside out)) (.inl (.inl out))
      · have fraction : IsFraction (reading floats value) := ⟨accepted, fun negative => out ⟨accepted, negative⟩⟩
        obtain ⟨otherFits, same⟩ := skipped totals _ rest accepted others fits
        rw [foldlM_cons, fractional fraction, or_iff_right out]
        exact (ih others otherFits).trans (or_congr_right same)

/-- **The loop of `array_sum` fails** at an integer out of range, or where the total leaves the range. -/
theorem sum_fails (computes : Computes cfg p integer) (summands : ∀ v ∈ values, Summand v) {totals : Totals cfg}
    (fits : Checked.Fits cfg totals.integer) :
    (values.foldlM (Totals.item floats (p.onFloats floats) integer checked id) totals).toOption = none ↔
      (∃ numeric ∈ values.map (reading floats), IsOutside numeric) ∨
        exactTotal p totals.integer (((values.map (reading floats)).filter Prod.fst).map Prod.snd) = none := by
  refine loop_fails without computes (List.filter Prod.fst) rfl (fun _ _ => filter_cons_of_pos) ?_ summands fits
  intro totals numeric rest accepted _ fits
  rw [filter_cons_of_neg (by rw [accepted]; decide)]
  exact ⟨fits, Iff.rfl⟩

theorem zero_stays (summands : ∀ v ∈ values, Summand v) :
    ¬ exactTotal .mul 0 (((values.map (reading floats)).takeWhile Prod.fst).map Prod.snd) = none := by
  induction values with
  | nil => exact fun out => by cases out
  | cons value rest ih =>
    rw [map_cons]
    cases accepted : (reading floats value).1 with
    | true =>
      have product : Checked.exact cfg (Promoted.mul.exact 0 (reading floats value).2.integer) = some 0 := by
        have zero : Promoted.mul.exact 0 (reading floats value).2.integer = 0 := Int.zero_mul _
        rw [zero]
        exact Signed.exact_of_fits (Checked.zero_in_range cfg)
      rw [takeWhile_cons_of_pos accepted, map_cons,
        exactTotal_cons without (summands value mem_cons_self) accepted, product]
      exact ih fun v listed => summands v (.tail _ listed)
    | false =>
      rw [takeWhile_cons_of_neg (by rw [accepted]; decide)]
      exact fun out => by cases out

/-- **The loop of `array_product` fails** at an integer out of range, or where the product leaves the range before a
fraction. -/
theorem product_fails (computes : Computes cfg .mul integer) (zero : ∀ totals, (other totals).integer = 0)
    (summands : ∀ v ∈ values, Summand v) {totals : Totals cfg} (fits : Checked.Fits cfg totals.integer) :
    (values.foldlM (Totals.item floats (Promoted.onFloats floats .mul) integer checked other) totals).toOption = none ↔
      (∃ numeric ∈ values.map (reading floats), IsOutside numeric) ∨
        exactTotal .mul totals.integer (((values.map (reading floats)).takeWhile Prod.fst).map Prod.snd) = none := by
  refine loop_fails (p := .mul) without computes (List.takeWhile Prod.fst) rfl
    (fun _ _ => takeWhile_cons_of_pos) ?_ summands fits
  -- from a fraction on the product is zero, which nothing leads out of the range
  intro totals numeric rest accepted others _
  rw [takeWhile_cons_of_neg (by rw [accepted]; decide), zero totals]
  exact ⟨Checked.zero_in_range cfg, iff_of_false (zero_stays without others) (by rintro ⟨⟩)⟩

/-- **Without floats the loop and the operators agree exactly where there are no fractions**, or both fail. -/
theorem same_iff_whole (computes : Computes cfg p integer) (summands : ∀ v ∈ values, Summand v) {start : Int}
    (fits : Checked.Fits cfg start) {kept : List (Bool × Numeric cfg)} {x : PFloat cfg}
    (fails : (values.foldlM (Totals.item floats (p.onFloats floats) integer checked other)
        ⟨x, start, true⟩).toOption = none ↔
      (∃ numeric ∈ values.map (reading floats), IsOutside numeric) ∨ exactTotal p start (kept.map Prod.snd) = none) :
    Same ((values.foldlM (Totals.item floats (p.onFloats floats) integer checked other)
        ⟨x, start, true⟩).map Totals.result)
      (values.foldlM (fun total value => (pvBinaryOperation floats memory p.operation total value).result)
        (.int start)) ↔ Whole p start (values.map (reading floats)) kept := by
  unfold Whole
  by_cases unbroken : ∀ numeric ∈ values.map (reading floats), ¬ IsFraction numeric
  · refine iff_of_true ?_ (.inl unbroken)
    exact same_of_whole without computes summands (fun v listed => unbroken _ (List.mem_map_of_mem listed))
      ⟨x, start, true⟩ fits
  · rw [or_iff_right unbroken, ← fails]
    have refused : ∃ v ∈ values, (reading floats v).1 = false := by
      push Not at unbroken
      obtain ⟨numeric, listed, fraction⟩ := unbroken
      obtain ⟨v, there, rfl⟩ := List.mem_map.mp listed
      exact ⟨v, there, fraction.1⟩
    unfold Same
    rw [fold_refused without summands refused fits]
    cases values.foldlM (Totals.item floats (p.onFloats floats) integer checked other) ⟨x, start, true⟩ with
    | ok totals => exact iff_of_false (fun same => by cases same) fun same => by cases same
    | error message => exact iff_of_true rfl rfl

end Refused

end Runs

end Items

/-! ## The totals -/

section Results
variable {cfg : Config}

theorem computes_sum : Computes cfg .add (integerAdd cfg) := fun _ _ fits => Checked.integerAdd_value fits

theorem computes_product : Computes cfg .mul (integerMultiply cfg) := fun a b _ => Checked.integerMultiply_value a b

theorem one_fits (cfg : Config) : Checked.Fits cfg 1 := by
  unfold Checked.Fits Signed.Fits Config.intMin Config.intMax
  split <;> omega

variable (floats : FloatOperations cfg) (memory : ConcatMemory) (entries : Entries cfg)

theorem sum_iff (summands : ∀ v ∈ items entries, Summand v) :
    Same (callArraySum floats [.array entries]) (operatorFold floats memory .add entries (.int 0)) ↔
      SumAgrees floats (items entries) := by
  have code : callArraySum floats [.array entries] =
    (totalsLoop (sumItem floats) entries ⟨floats.ofInt 0, 0, true⟩).map Totals.result := rfl
  have item : sumItem floats =
    Totals.item floats (Promoted.onFloats floats .add) (integerAdd cfg) (fun _ => true) id := rfl
  have zero := Checked.zero_in_range cfg
  rw [code, totalsLoop_eq, operatorFold_eq, item]
  unfold SumAgrees
  cases enabled : cfg.enableFloat with
  | true =>
    rw [if_pos rfl]
    exact same_iff_steady (p := .add) enabled computes_sum (fun _ _ => rfl) summands zero
  | false =>
    rw [if_neg Bool.false_ne_true]
    exact same_iff_whole (p := .add) enabled computes_sum summands zero
      (sum_fails enabled computes_sum summands zero)

theorem product_iff (summands : ∀ v ∈ items entries, Summand v) :
    Same (callArrayProduct floats [.array entries]) (operatorFold floats memory .mul entries (.int 1)) ↔
      ProductAgrees floats (items entries) := by
  have code : callArrayProduct floats [.array entries] =
    (totalsLoop (productItem floats) entries ⟨floats.ofInt 1, 1, true⟩).map Totals.result := rfl
  have item : productItem floats = Totals.item floats (Promoted.onFloats floats .mul) (integerMultiply cfg)
    (fun numeric => numeric.isInteger != 0) fun totals => { totals with number := floats.ofInt 0, integer := 0 } := rfl
  rw [code, totalsLoop_eq, operatorFold_eq, item]
  unfold ProductAgrees
  cases enabled : cfg.enableFloat with
  | true =>
    rw [if_pos rfl]
    refine same_iff_steady (p := .mul) enabled computes_product (fun numeric integer => ?_) summands (one_fits cfg)
    rw [integer]
    rfl
  | false =>
    rw [if_neg Bool.false_ne_true]
    exact same_iff_whole (p := .mul) enabled computes_product summands (one_fits cfg)
      (product_fails enabled computes_product (fun _ => rfl) summands (one_fits cfg))

end Results

/-! ## Integers between floats -/

/-- The array `[2 ** 53, 1, 1, 0.0]`. -/
def betweenFloats : Entries wideBuild :=
  .cons (.int 0) (.int 9007199254740992) (.cons (.int 1) (.int 1) (.cons (.int 2) (.int 1)
    (.cons (.int 3) (.float 0) .nil)))

/-- A sum of floats whose exact value is a whole number between 2^53 and 2^53 + 2. -/
theorem add_value {x y : PFloat wideBuild} {n k : Nat} (exactly : floatValue wideBuild x + floatValue wideBuild y = n)
    (rounded : n = 9007199254740992 + 2 * k ∧ k ≤ 1 ∨ n = 9007199254740993 ∧ k = 0) :
    floatValue wideBuild ((roundedFloats wideBuild).add x y) = (9007199254740992 + 2 * k : Nat) := by
  have rounds : Ieee.RoundsTo 64 52 (n : ℚ) ((roundedFloats wideBuild).add x y) := by
    rw [← exactly]
    exact Ieee.roundsTo_ofValue Ieee.binary64 _
  rcases rounded with ⟨rfl, small⟩ | ⟨rfl, rfl⟩
  · have cases : k = 0 ∨ k = 1 := by omega
    rcases cases with rfl | rfl
    · exact rounded_value rounds (by decide)
        (rounded_magnitude rounds (m := 1076 * 2 ^ 52 - 1) (by decide +kernel) (by decide +kernel) (by decide +kernel)
          (by decide +kernel) (by decide +kernel)) (by decide +kernel)
    · exact rounded_value rounds (by decide)
        (rounded_magnitude rounds (m := 1076 * 2 ^ 52) (by decide +kernel) (by decide +kernel) (by decide +kernel)
          (by decide +kernel) (by decide +kernel)) (by decide +kernel)
  · exact rounded_value rounds (by decide)
      (rounded_magnitude rounds (m := 1076 * 2 ^ 52 - 1) (by decide +kernel) (by decide +kernel) (by decide +kernel)
        (by decide +kernel) (by decide +kernel)) (by decide +kernel)

end PhpPico.Arrays
