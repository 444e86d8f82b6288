import PhpPico.Lib.FirstDifference
import PhpPico.Value.Compare

/-!
# Loose comparison

`==`, `!=`, `<`, `<=`, `>`, `>=` and `<=>` are `pv_compare` in loose mode. Arrays and objects of one class are
compared part by part, in the order of the left one; a part that the right array lacks makes the left one greater.
-/

namespace PhpPico.Value
open List

/-! ## The code -/

/-- `pa_get`, for a key that is normalised already. -/
def Entries.get {cfg : Config} (key : Key) : Entries cfg → Option (PValue cfg)
  | .nil => none
  | .cons k v rest => if k = key then some v else rest.get key

/-- The keys of an array. -/
def Entries.keys {cfg : Config} : Entries cfg → List Key
  | .nil => []
  | .cons k _ rest => k :: rest.keys

mutual

/-- No array in the value has a key twice. -/
def PValue.Proper {cfg : Config} : PValue cfg → Prop
  | .array xs => xs.Proper
  | _ => True

def Entries.Proper {cfg : Config} : Entries cfg → Prop
  | .nil => True
  | .cons k v rest => k ∉ rest.keys ∧ v.Proper ∧ rest.Proper

end

/-- The objects by their addresses: the address of the class entry, and the slots of the properties. -/
structure Objects (cfg : Config) where
  classEntry : Nat → Nat
  propertyCount : Nat → Nat
  slots : Nat → List (PValue cfg)
  full : ∀ address, (slots address).length = propertyCount (classEntry address)
  proper : ∀ address, ∀ v ∈ slots address, v.Proper

/-- The opcodes of `execute_compare` in loose mode. -/
inductive Comparison where
  | eq | ne | lt | le | gt | ge | cmp

/-- `pv_bool`. -/
def pvBool {cfg : Config} (truth : Bool) : PValue cfg := if truth then .ptTrue else .ptFalse

/-- What `execute_compare` pushes. -/
def Comparison.push {cfg : Config} (opcode : Comparison) (compared : Int) : PValue cfg :=
  match opcode with
  | .eq => pvBool (compared == 0)
  | .ne => pvBool (compared != 0)
  | .lt => pvBool (decide (compared < 0))
  | .le => pvBool (decide (compared ≤ 0))
  | .gt => pvBool (decide (0 < compared))
  | .ge => pvBool (decide (0 ≤ compared))
  | .cmp => .int compared

section Code
variable {cfg : Config} (floats : FloatConversions cfg) (objects : Objects cfg)

/-- The loop over the entries of the left array. -/
def compareFound (cmp : PValue cfg → PValue cfg → Option Int) : Entries cfg → Entries cfg → Option Int
  | .nil, _ => some 0
  | .cons k v rest, ys =>
    match ys.get k with
    | none => some 1
    | some w => (cmp v w).bind fun d => if d ≠ 0 then some d else compareFound cmp rest ys

/-- The loop over the slots of two objects of one class. -/
def compareSlots (cmp : PValue cfg → PValue cfg → Option Int) : List (PValue cfg) → List (PValue cfg) → Option Int
  | v :: vs, w :: ws => (cmp v w).bind fun d => if d ≠ 0 then some d else compareSlots cmp vs ws
  | _, _ => some 0

/-- `pv_compare` in loose mode, as deep as the stack allows. -/
def compareLoose : Nat → PValue cfg → PValue cfg → Option Int
  | 0, _, _ => none
  | depth + 1, l, r =>
    match l, r with
    | .array xs, .array ys =>
      if xs.size ≠ ys.size then some (if ys.size < xs.size then 1 else -1)
      else compareFound (compareLoose depth) xs ys
    | .object a, .object b =>
      if objects.classEntry a ≠ objects.classEntry b then
        some (if objects.classEntry b < objects.classEntry a then 1 else -1)
      else compareSlots (compareLoose depth) (objects.slots a) (objects.slots b)
    | l, r => some (compareScalars floats l r)

/-- `execute_compare` in loose mode. -/
def executeCompare (depth : Nat) (opcode : Comparison) (l r : PValue cfg) : Option (PValue cfg) :=
  (compareLoose floats objects depth l r).map opcode.push

end Code

/-! ## The rules -/

/-- An integer in decimal. -/
def printInteger (i : Int) : List UInt8 :=
  if i < 0 then 45 :: printUnsigned i.natAbs else printUnsigned i.natAbs

section Rules
variable {cfg : Config} (floats : FloatConversions cfg) (text : PFloat cfg → List UInt8) (objects : Objects cfg)

/-- A null or a boolean. -/
def PValue.IsTruth : PValue cfg → Prop
  | .null | .ptFalse | .ptTrue => True
  | _ => False

def PValue.IsString : PValue cfg → Prop
  | .string _ => True
  | _ => False

/-- A string that is a number. -/
def IsNumeral (s : PString) : Prop := (stringNumeric floats s.bytes true).1 = true

/-- An integer, or a float that is a number, and the string it becomes. -/
inductive NumberText : PValue cfg → List UInt8 → Prop
  | int (i : Int) : NumberText (.int i) (printInteger i)
  | float {x : PFloat cfg} (number : Ieee.isNaN (fractionBits cfg) x = false) : NumberText (.float x) (text x)

/-- A number, or a string that is one. -/
inductive IsNumber : PValue cfg → Prop
  | int (i : Int) : IsNumber (.int i)
  | float {x : PFloat cfg} (number : Ieee.isNaN (fractionBits cfg) x = false) : IsNumber (.float x)
  | string {s : PString} (numeral : IsNumeral floats s) : IsNumber (.string s)

/-- A number or a string. -/
def PValue.IsScalar : PValue cfg → Prop
  | .int _ | .float _ | .string _ => True
  | _ => False

/-- What the comparison of two values, other than two arrays or objects, is to say. -/
inductive ScalarRule : PValue cfg → PValue cfg → Int → Prop
  | nullString (s : PString) : ScalarRule .null (.string s) (compareBytes [] s.bytes)
  | stringNull (s : PString) : ScalarRule (.string s) .null (compareBytes s.bytes [])
  | truths {l r : PValue cfg} (truth : l.IsTruth ∨ r.IsTruth) (left : l = .null → ¬ r.IsString)
      (right : r = .null → ¬ l.IsString) :
      ScalarRule l r (sign (pvIsTruthy l && !pvIsTruthy r) (!pvIsTruthy l && pvIsTruthy r))
  | numbers {l r : PValue cfg} (left : IsNumber floats l) (right : IsNumber floats r) :
      ScalarRule l r (compareNumeric (pvToNumeric floats l true).2 (pvToNumeric floats r true).2)
  | numberString {v : PValue cfg} {t : List UInt8} {s : PString} (number : NumberText text v t)
      (no_numeral : ¬ IsNumeral floats s) : ScalarRule v (.string s) (compareBytes t s.bytes)
  | stringNumber {v : PValue cfg} {t : List UInt8} {s : PString} (number : NumberText text v t)
      (no_numeral : ¬ IsNumeral floats s) : ScalarRule (.string s) v (compareBytes s.bytes t)
  | strings {s t : PString} (not_both : ¬ (IsNumeral floats s ∧ IsNumeral floats t)) :
      ScalarRule (.string s) (.string t) (compareBytes s.bytes t.bytes)
  | arrayScalar (xs : Entries cfg) {v : PValue cfg} (scalar : v.IsScalar) : ScalarRule (.array xs) v 1
  | scalarArray (xs : Entries cfg) {v : PValue cfg} (scalar : v.IsScalar) : ScalarRule v (.array xs) (-1)
  | objectOther (a : Nat) {v : PValue cfg} (other : v.IsScalar ∨ ∃ xs, v = .array xs) : ScalarRule (.object a) v 1
  | otherObject (a : Nat) {v : PValue cfg} (other : v.IsScalar ∨ ∃ xs, v = .array xs) : ScalarRule v (.object a) (-1)

/-- The values of an array, each with the one that another array has under the same key. -/
def Entries.against (ys : Entries cfg) : Entries cfg → List (PValue cfg × Option (PValue cfg))
  | .nil => []
  | .cons k v rest => (v, ys.get k) :: against ys rest

/-- The slots of two objects. -/
def slotPairs (vs ws : List (PValue cfg)) : List (PValue cfg × Option (PValue cfg)) :=
  (vs.zip ws).map fun pair => (pair.1, some pair.2)

mutual

/-- **What the comparison is to say.** Arrays are compared by count and then key by key, and are not comparable
where a key is missing; so are different objects of one class, property by property. -/
inductive Ruled : PValue cfg → PValue cfg → Int → Prop
  | scalar {l r : PValue cfg} {d : Int} (rule : ScalarRule floats text l r d) : Ruled l r d
  | counts {xs ys : Entries cfg} (counts : xs.size ≠ ys.size) :
      Ruled (.array xs) (.array ys) (if ys.size < xs.size then 1 else -1)
  | arrays {xs ys : Entries cfg} {d : Int} (counts : xs.size = ys.size) (entries : RuledAll (ys.against xs) d) :
      Ruled (.array xs) (.array ys) d
  | same (a : Nat) : Ruled (.object a) (.object a) 0
  | objects {a b : Nat} {d : Int} (distinct : a ≠ b) (oneClass : objects.classEntry a = objects.classEntry b)
      (slots : RuledAll (slotPairs (objects.slots a) (objects.slots b)) d) : Ruled (.object a) (.object b) d

/-- The first difference of the parts. -/
inductive RuledAll : List (PValue cfg × Option (PValue cfg)) → Int → Prop
  | nil : RuledAll [] 0
  | same {v w : PValue cfg} {rest : List (PValue cfg × Option (PValue cfg))} {d : Int} (equal : Ruled v w 0)
      (others : RuledAll rest d) : RuledAll ((v, some w) :: rest) d
  | differ {v w : PValue cfg} {d : Int} (rest : List (PValue cfg × Option (PValue cfg))) (verdict : Ruled v w d)
      (differs : d ≠ 0) : RuledAll ((v, some w) :: rest) d

end

/-! ## The laws -/

/-- The operator ends with the result. -/
def Gives (opcode : Comparison) (l r result : PValue cfg) : Prop :=
  ∃ depth, executeCompare floats objects depth opcode l r = some result

/-- Equality and order do not depend on the side, and agree with `<=>`. -/
structure Laws (l r : PValue cfg) : Prop where
  eq_symm : Gives floats objects .eq l r .ptTrue ↔ Gives floats objects .eq r l .ptTrue
  eq_cmp : Gives floats objects .eq l r .ptTrue ↔ Gives floats objects .cmp l r (.int 0)
  lt_gt : Gives floats objects .lt l r .ptTrue ↔ Gives floats objects .gt r l .ptTrue
  lt_cmp : Gives floats objects .lt l r .ptTrue ↔ ∃ d < 0, Gives floats objects .cmp l r (.int d)

/-- Where the comparison is defined, the operators follow the rules; where it is so both ways, the laws hold. -/
structure Lawful (l r : PValue cfg) : Prop where
  follows : ∀ d, Ruled floats text objects l r d → ∀ opcode, Gives floats objects opcode l r (opcode.push d)
  laws : (∃ d, Ruled floats text objects l r d) → (∃ d, Ruled floats text objects r l d) → Laws floats objects l r

/-- The parts that are compared one by one. -/
def parts : PValue cfg → PValue cfg → List (PValue cfg × Option (PValue cfg))
  | .array xs, .array ys => if xs.size = ys.size then ys.against xs else []
  | .object a, .object b =>
    if a ≠ b ∧ objects.classEntry a = objects.classEntry b then slotPairs (objects.slots a) (objects.slots b) else []
  | _, _ => []

/-- A comparison made on the way, when the two are compared in either order: of the two, or of two parts with no
difference before. -/
inductive OnTheWay : PValue cfg → PValue cfg → PValue cfg → PValue cfg → Prop
  | here (l r : PValue cfg) : OnTheWay l r l r
  | swap {l r v w : PValue cfg} (h : OnTheWay r l v w) : OnTheWay l r v w
  | part {l r v w x y : PValue cfg} {before after : List (PValue cfg × Option (PValue cfg))}
      (split : parts objects l r = before ++ (v, some w) :: after) (same : RuledAll floats text objects before 0)
      (h : OnTheWay v w x y) : OnTheWay l r x y

/-- The two results are of opposite directions. -/
def Opposite (d e : Int) : Prop := (d = 0 ↔ e = 0) ∧ (d < 0 ↔ 0 < e)

/-- One value is in an array or a property of the other. -/
def Holds (part : PValue cfg) : PValue cfg → Prop
  | .array xs => ∃ k, xs.get k = some part
  | .object a => part ∈ objects.slots a
  | _ => False

/-- A comparison that goes wrong: of a null with "0"; of a number with a string that is none, unless the number, as a
string, is below it; of two arrays whose first differences in the order of the one and the other go the same way; and
of an object with itself, where its properties lead on without an end. -/
inductive Misjudged : PValue cfg → PValue cfg → Prop
  | nullZero {s : PString} (zero : s.bytes = [48]) : Misjudged .null (.string s)
  | zeroNull {s : PString} (zero : s.bytes = [48]) : Misjudged (.string s) .null
  | numberString {v : PValue cfg} {t : List UInt8} {s : PString} (number : NumberText text v t)
      (no_numeral : ¬ IsNumeral floats s) (not_below : compareBytes t s.bytes ≠ -1) : Misjudged v (.string s)
  | stringNumber {v : PValue cfg} {t : List UInt8} {s : PString} (number : NumberText text v t)
      (no_numeral : ¬ IsNumeral floats s) (not_above : compareBytes s.bytes t ≠ 1) : Misjudged (.string s) v
  | orders {xs ys : Entries cfg} {d e : Int} (counts : xs.size = ys.size)
      (left : RuledAll floats text objects (ys.against xs) d) (right : RuledAll floats text objects (xs.against ys) e)
      (contrary : ¬ Opposite d e) : Misjudged (.array xs) (.array ys)
  | endless {a : Nat} (cyclic : ¬ Acc (Holds objects) (.object a)) : Misjudged (.object a) (.object a)

end Rules

/-! ## One comparison -/

variable {cfg : Config} {floats : FloatConversions cfg} {text : PFloat cfg → List UInt8} {objects : Objects cfg}

/-- Two arrays or two objects. -/
def Structured : PValue cfg → PValue cfg → Prop
  | .array _, .array _ | .object _, .object _ => True
  | _, _ => False

variable (depth : Nat) {l r v : PValue cfg} {s : PString} {t : List UInt8} {d : Int} {xs ys : Entries cfg}

theorem compareLoose_scalar (plain : ¬ Structured l r) :
    compareLoose floats objects (depth + 1) l r = some (compareScalars floats l r) := by
  cases l <;> cases r <;> first | rfl | exact absurd trivial plain

theorem truth_iff : v.IsTruth ↔ v.type ≤ 2 := by
  cases v <;> simp [PValue.IsTruth, PValue.type]

theorem not_truth_of_scalar (scalar : v.IsScalar) : ¬ v.IsTruth := by
  cases v <;> first | exact id | exact scalar.elim

theorem truth_tests (l r : PValue cfg) :
    (l.type = 1 ∨ l.type = 2 ∨ r.type = 1 ∨ r.type = 2) ∨ l.type = 0 ∨ r.type = 0 ↔ l.IsTruth ∨ r.IsTruth := by
  rw [truth_iff, truth_iff]
  omega

theorem compareScalars_truth (truth : l.IsTruth ∨ r.IsTruth) :
    compareScalars floats l r = sign (pvIsTruthy l && !pvIsTruthy r) (!pvIsTruthy l && pvIsTruthy r) := by
  unfold compareScalars
  exact if_pos ((truth_tests l r).mpr truth)

theorem compareScalars_numeric (others : ¬ (l.IsTruth ∨ r.IsTruth))
    (left : (pvToNumeric floats l true).1 = true) (right : (pvToNumeric floats r true).1 = true) :
    compareScalars floats l r = compareNumeric (pvToNumeric floats l true).2 (pvToNumeric floats r true).2 := by
  have both : ((pvToNumeric floats l true).1 && (pvToNumeric floats r true).1) = true := by rw [left, right]; rfl
  unfold compareScalars
  rw [if_neg (mt (truth_tests l r).mp others)]
  exact if_pos both

theorem compareScalars_strings {t : PString} (not_both : ¬ (IsNumeral floats s ∧ IsNumeral floats t)) :
    compareScalars floats (.string s) (.string t) = compareBytes s.bytes t.bytes := by
  have not_numbers : ¬ ((stringNumeric floats s.bytes true).1 && (stringNumeric floats t.bytes true).1) = true := by
    rw [Bool.and_eq_true]
    exact not_both
  have code : compareScalars floats (.string s) (.string t) =
      if (stringNumeric floats s.bytes true).1 && (stringNumeric floats t.bytes true).1 then
        compareNumeric (stringNumeric floats s.bytes true).2 (stringNumeric floats t.bytes true).2
      else compareBytes s.bytes t.bytes := rfl
  rw [code, if_neg not_numbers]

theorem compareScalars_types (others : ¬ (l.IsTruth ∨ r.IsTruth))
    (not_numbers : ¬ ((pvToNumeric floats l true).1 = true ∧ (pvToNumeric floats r true).1 = true))
    (not_strings : ¬ (l.IsString ∧ r.IsString)) :
    compareScalars floats l r = sign (r.type < l.type) (l.type < r.type) := by
  have not_both : ¬ ((pvToNumeric floats l true).1 && (pvToNumeric floats r true).1) = true := by
    rw [Bool.and_eq_true]
    exact not_numbers
  unfold compareScalars
  rw [if_neg (mt (truth_tests l r).mp others)]
  refine (if_neg not_both).trans ?_
  split
  · exact absurd ⟨trivial, trivial⟩ not_strings
  · rfl

theorem IsNumber.numeric (h : IsNumber floats v) : (pvToNumeric floats v true).1 = true := by
  cases h with
  | int i => rfl
  | float number => rfl
  | string numeral => exact numeral

theorem IsNumber.scalar (h : IsNumber floats v) : v.IsScalar := by
  cases h <;> trivial

theorem compareBytes_nil {bs : List UInt8} : compareBytes [] bs = if bs = [] then 0 else -1 := by
  cases bs <;> rfl

theorem compareBytes_nil_right {bs : List UInt8} : compareBytes bs [] = if bs = [] then 0 else 1 := by
  cases bs <;> rfl

theorem compareScalars_null_string (s : PString) :
    compareScalars floats .null (.string s) = if s.bytes = [] ∨ s.bytes = [48] then 0 else -1 := by
  have code : compareScalars floats .null (.string s) = sign false (s.bytes != [] && s.bytes != [48]) := by
    have null : (PValue.null : PValue cfg).IsTruth := trivial
    rw [compareScalars_truth (.inl null)]
    rfl
  rw [code]
  by_cases falsy : s.bytes = [] ∨ s.bytes = [48]
  · rw [if_pos falsy]
    rcases falsy with h | h <;> rw [h] <;> decide
  · obtain ⟨not_empty, not_zero⟩ := not_or.mp falsy
    rw [if_neg falsy, bne_iff_ne.mpr not_empty, bne_iff_ne.mpr not_zero]
    rfl

theorem compareScalars_string_null (s : PString) :
    compareScalars floats (.string s) .null = if s.bytes = [] ∨ s.bytes = [48] then 0 else 1 := by
  have code : compareScalars floats (.string s) .null =
      sign ((s.bytes != [] && s.bytes != [48]) && true) (!(s.bytes != [] && s.bytes != [48]) && false) := by
    have null : (PValue.null : PValue cfg).IsTruth := trivial
    rw [compareScalars_truth (.inr null)]
    rfl
  rw [code]
  by_cases falsy : s.bytes = [] ∨ s.bytes = [48]
  · rw [if_pos falsy]
    rcases falsy with h | h <;> rw [h] <;> decide
  · obtain ⟨not_empty, not_zero⟩ := not_or.mp falsy
    rw [if_neg falsy, bne_iff_ne.mpr not_empty, bne_iff_ne.mpr not_zero]
    rfl

theorem type_of_scalar (scalar : v.IsScalar) : 3 ≤ v.type ∧ v.type ≤ 5 := by
  cases v <;> simp [PValue.IsScalar, PValue.type] at *

theorem NumberText.type (h : NumberText text v t) : 3 ≤ v.type ∧ v.type < 5 := by
  cases h <;> simp [PValue.type]

/-- The value of the greater type is greater. -/
theorem compareScalars_above (right : 3 ≤ r.type) (above : r.type < l.type)
    (not_numbers : (pvToNumeric floats l true).1 = false ∨ (pvToNumeric floats r true).1 = false) :
    compareScalars floats l r = 1 := by
  rw [compareScalars_types, decide_eq_true above, decide_eq_false (by omega)]
  · rfl
  · rw [truth_iff, truth_iff]
    omega
  · rintro ⟨h, h'⟩
    rcases not_numbers with h'' | h'' <;> simp_all
  · rintro ⟨h, h'⟩
    cases l <;> first | exact h.elim | skip
    cases r <;> first | exact h'.elim | exact absurd above (lt_irrefl _)

theorem compareScalars_below (left : 3 ≤ l.type) (below : l.type < r.type)
    (not_numbers : (pvToNumeric floats l true).1 = false ∨ (pvToNumeric floats r true).1 = false) :
    compareScalars floats l r = -1 := by
  rw [compareScalars_types, decide_eq_true below, decide_eq_false (by omega)]
  · rfl
  · rw [truth_iff, truth_iff]
    omega
  · rintro ⟨h, h'⟩
    rcases not_numbers with h'' | h'' <;> simp_all
  · rintro ⟨h, h'⟩
    cases l <;> first | exact h.elim | skip
    cases r <;> first | exact h'.elim | exact absurd below (lt_irrefl _)

theorem compareScalars_number_string (number : NumberText text v t)
    (no_numeral : ¬ IsNumeral floats s) : compareScalars floats v (.string s) = -1 :=
  compareScalars_below number.type.1 number.type.2 (.inr (Bool.eq_false_iff.mpr no_numeral))

theorem compareScalars_string_number (number : NumberText text v t)
    (no_numeral : ¬ IsNumeral floats s) : compareScalars floats (.string s) v = 1 :=
  compareScalars_above number.type.1 number.type.2 (.inl (Bool.eq_false_iff.mpr no_numeral))

/-- **One comparison** of values that are not both arrays or objects goes as the rules say, unless it is
misjudged. -/
theorem ScalarRule.compared (h : ScalarRule floats text l r d)
    (fine : ¬ Misjudged floats text objects l r) : compareScalars floats l r = d := by
  cases h with
  | nullString s =>
    have not_zero : s.bytes ≠ [48] := fun zero => fine (.nullZero zero)
    simp only [compareScalars_null_string, compareBytes_nil, not_zero, or_false]
  | stringNull s =>
    have not_zero : s.bytes ≠ [48] := fun zero => fine (.zeroNull zero)
    simp only [compareScalars_string_null, compareBytes_nil_right, not_zero, or_false]
  | truths truth left right => exact compareScalars_truth truth
  | numbers left right =>
    refine compareScalars_numeric ?_ left.numeric right.numeric
    rintro (h | h)
    · exact not_truth_of_scalar left.scalar h
    · exact not_truth_of_scalar right.scalar h
  | numberString number no_numeral =>
    rw [compareScalars_number_string number no_numeral]
    by_contra other
    exact fine (.numberString number no_numeral (Ne.symm other))
  | stringNumber number no_numeral =>
    rw [compareScalars_string_number number no_numeral]
    by_contra other
    exact fine (.stringNumber number no_numeral (Ne.symm other))
  | strings not_both => exact compareScalars_strings not_both
  | arrayScalar xs scalar =>
    have type := type_of_scalar scalar
    exact compareScalars_above type.1 (Nat.lt_succ_of_le type.2) (.inl rfl)
  | scalarArray xs scalar =>
    have type := type_of_scalar scalar
    exact compareScalars_below type.1 (Nat.lt_succ_of_le type.2) (.inr rfl)
  | objectOther a other =>
    rcases other with scalar | ⟨xs, rfl⟩
    · have type := type_of_scalar scalar
      exact compareScalars_above type.1 (Nat.lt_succ_of_le (Nat.le_succ_of_le type.2)) (.inl rfl)
    · exact compareScalars_above (Nat.le_add_left 3 3) (Nat.lt_succ_self 6) (.inl rfl)
  | otherObject a other =>
    rcases other with scalar | ⟨xs, rfl⟩
    · have type := type_of_scalar scalar
      exact compareScalars_below type.1 (Nat.lt_succ_of_le (Nat.le_succ_of_le type.2)) (.inr rfl)
    · exact compareScalars_below (Nat.le_add_left 3 3) (Nat.lt_succ_self 6) (.inr rfl)

theorem ScalarRule.not_structured (h : ScalarRule floats text l r d) : ¬ Structured l r := by
  cases h with
  | nullString | stringNull => exact id
  | truths truth => cases l <;> cases r <;> first | exact id | exact (or_self_iff.mp truth).elim
  | numbers left right => cases left <;> cases right <;> exact id
  | numberString number => cases number <;> exact id
  | stringNumber number => cases number <;> exact id
  | strings => exact id
  | arrayScalar xs scalar => cases r <;> first | exact id | exact scalar.elim
  | scalarArray xs scalar => cases l <;> first | exact id | exact scalar.elim
  | objectOther a other =>
    rcases other with scalar | ⟨xs, rfl⟩
    · cases r <;> first | exact id | exact scalar.elim
    · exact id
  | otherObject a other =>
    rcases other with scalar | ⟨xs, rfl⟩
    · cases l <;> first | exact id | exact scalar.elim
    · exact id

/-! ## Whole values -/

section Results
variable (floats objects)

/-- The comparison ends with the result. -/
def Returns (l r : PValue cfg) (d : Int) : Prop := ∃ depth, compareLoose floats objects depth l r = some d

/-- The comparison of one part; a part that is missing decides. -/
def comparePart (depth : Nat) : PValue cfg × Option (PValue cfg) → Option Int
  | (_, none) => some 1
  | (v, some w) => compareLoose floats objects depth v w

end Results

theorem compareFound_eq (xs ys : Entries cfg) : compareFound (compareLoose floats objects depth) xs ys =
      FirstDifference.first (comparePart floats objects depth) (ys.against xs) := by
  have walk : ∀ n (xs : Entries cfg), xs.size = n → compareFound (compareLoose floats objects depth) xs ys =
        FirstDifference.first (comparePart floats objects depth) (ys.against xs) := by
    intro n
    induction n with
    | zero =>
      intro xs size
      cases xs with
      | nil => rfl
      | cons k v rest => cases size
    | succ n ih =>
      intro xs size
      cases xs with
      | nil => rfl
      | cons k v rest =>
        rw [compareFound, Entries.against, FirstDifference.first]
        cases ys.get k with
        | none => rfl
        | some w =>
          refine congrArg (Option.bind _) (funext fun d => ?_)
          rw [← ih rest (Nat.succ.inj size)]
          by_cases zero : d = 0 <;> simp [zero]
  exact walk _ xs rfl

theorem compareSlots_eq (vs ws : List (PValue cfg)) : compareSlots (compareLoose floats objects depth) vs ws =
      FirstDifference.first (comparePart floats objects depth) (slotPairs vs ws) := by
  induction vs generalizing ws with
  | nil => rfl
  | cons v vs ih =>
    cases ws with
    | nil => rfl
    | cons w ws =>
      rw [compareSlots, slotPairs, zip_cons_cons, map_cons, FirstDifference.first]
      refine congrArg (Option.bind _) (funext fun d => ?_)
      rw [ih ws, slotPairs]
      by_cases zero : d = 0 <;> simp [zero]

theorem compareLoose_arrays (counts : xs.size = ys.size) :
    compareLoose floats objects (depth + 1) (.array xs) (.array ys) =
      FirstDifference.first (comparePart floats objects depth) (ys.against xs) := by
  rw [compareLoose, if_neg (not_not.mpr counts), compareFound_eq]

theorem compareLoose_objects {a b : Nat} (oneClass : objects.classEntry a = objects.classEntry b) :
    compareLoose floats objects (depth + 1) (.object a) (.object b) =
      FirstDifference.first (comparePart floats objects depth) (slotPairs (objects.slots a) (objects.slots b)) := by
  rw [compareLoose, if_neg (not_not.mpr oneClass), compareSlots_eq]

/-- More stack changes no result. -/
theorem compareLoose_succ : ∀ (l r : PValue cfg) (d : Int),
    compareLoose floats objects depth l r = some d → compareLoose floats objects (depth + 1) l r = some d := by
  induction depth with
  | zero =>
    intro l r d h
    cases h
  | succ depth ih =>
    have part : ∀ p d, comparePart floats objects depth p = some d →
        comparePart floats objects (depth + 1) p = some d := by
      rintro ⟨v, w⟩ d h
      cases w with
      | none => exact h
      | some w => exact ih v w d h
    intro l r d h
    by_cases structured : Structured l r
    · cases l <;> cases r <;> first | exact structured.elim | skip
      case array.array xs ys =>
        by_cases counts : xs.size = ys.size
        · rw [compareLoose_arrays _ counts] at h ⊢
          exact FirstDifference.first_mono part h
        · rw [compareLoose, if_pos counts] at h ⊢
          exact h
      case object.object a b =>
        by_cases oneClass : objects.classEntry a = objects.classEntry b
        · rw [compareLoose_objects _ oneClass] at h ⊢
          exact FirstDifference.first_mono part h
        · rw [compareLoose, if_pos oneClass] at h ⊢
          exact h
    · rw [compareLoose_scalar _ structured] at h ⊢
      exact h

theorem compareLoose_mono {depth deeper : Nat} (more : depth ≤ deeper)
    (h : compareLoose floats objects depth l r = some d) : compareLoose floats objects deeper l r = some d := by
  induction more with
  | refl => exact h
  | step more ih => exact compareLoose_succ _ l r d ih

theorem comparePart_settles : FirstDifference.Settles (comparePart floats objects) := by
  rintro ⟨v, w⟩ d depth deeper more h
  cases w with
  | none => exact h
  | some w => exact compareLoose_mono more h

/-- A comparison has one result. -/
theorem Returns.unique {e : Int} (h : Returns floats objects l r d) (h' : Returns floats objects l r e) : d = e := by
  obtain ⟨m, h⟩ := h
  obtain ⟨n, h'⟩ := h'
  have deep := compareLoose_mono (Nat.le_max_left m n) h
  have deep' := compareLoose_mono (Nat.le_max_right m n) h'
  exact Option.some.inj (deep.symm.trans deep')

/-- Parts are compared with a result: the first difference. -/
abbrev PartsReturn (floats : FloatConversions cfg) (objects : Objects cfg)
    (parts : List (PValue cfg × Option (PValue cfg))) (d : Int) : Prop :=
  FirstDifference.Verdict (fun p d => ∃ depth, comparePart floats objects depth p = some d) parts d

theorem returns_of_step {parts : List (PValue cfg × Option (PValue cfg))}
    (step : ∀ depth, compareLoose floats objects (depth + 1) l r =
      FirstDifference.first (comparePart floats objects depth) parts) :
    Returns floats objects l r d ↔ PartsReturn floats objects parts d := by
  rw [PartsReturn, ← FirstDifference.first_iff comparePart_settles]
  constructor
  · rintro ⟨depth, h⟩
    cases depth with
    | zero => cases h
    | succ depth => exact ⟨depth, (step depth).symm.trans h⟩
  · rintro ⟨depth, h⟩
    exact ⟨depth + 1, (step depth).trans h⟩

theorem returns_arrays (counts : xs.size = ys.size) :
    Returns floats objects (.array xs) (.array ys) d ↔ PartsReturn floats objects (ys.against xs) d :=
  returns_of_step fun depth => compareLoose_arrays depth counts

theorem returns_objects {a b : Nat} (oneClass : objects.classEntry a = objects.classEntry b) :
    Returns floats objects (.object a) (.object b) d ↔
      PartsReturn floats objects (slotPairs (objects.slots a) (objects.slots b)) d :=
  returns_of_step fun depth => compareLoose_objects depth oneClass

theorem returns_counts (counts : xs.size ≠ ys.size) :
    Returns floats objects (.array xs) (.array ys) (if ys.size < xs.size then 1 else -1) := by
  refine ⟨1, ?_⟩
  rw [compareLoose, if_pos counts]

theorem returns_scalar (plain : ¬ Structured l r) :
    Returns floats objects l r (compareScalars floats l r) := ⟨1, compareLoose_scalar 0 plain⟩

/-! ## A value and itself -/

theorem Entries.key_of_get {k : Key} {v : PValue cfg} :
    ∀ {xs : Entries cfg}, xs.get k = some v → k ∈ xs.keys
  | .cons k' v' rest, h => by
    rw [Entries.get] at h
    by_cases same : k' = k
    · exact same ▸ (.head _)
    · rw [if_neg same] at h
      exact .tail _ (key_of_get h)

theorem Entries.Proper.value {k : Key} {v : PValue cfg} :
    ∀ {xs : Entries cfg}, xs.Proper → xs.get k = some v → v.Proper
  | .cons k' v' rest, ⟨_, value, others⟩, h => by
    rw [Entries.get] at h
    by_cases same : k' = k
    · rw [if_pos same] at h
      cases h
      exact value
    · rw [if_neg same] at h
      exact Proper.value others h

theorem Entries.mem_against (ys : Entries cfg) {k : Key} {v : PValue cfg} :
    ∀ {xs : Entries cfg}, xs.get k = some v → (v, ys.get k) ∈ ys.against xs
  | .cons k' v' rest, h => by
    rw [Entries.get] at h
    by_cases same : k' = k
    · rw [if_pos same] at h
      cases h
      exact same ▸ (.head _)
    · rw [if_neg same] at h
      exact .tail _ (mem_against ys h)

/-- An array has its own values under its keys. -/
theorem Entries.against_of_proper (ys : Entries cfg) : ∀ {xs : Entries cfg}, xs.Proper →
    (∀ k v, xs.get k = some v → ys.get k = some v) → ∀ p ∈ ys.against xs, ∃ k v, ys.get k = some v ∧ p = (v, some v)
  | .nil, _, _, p, inside => absurd inside not_mem_nil
  | .cons k v rest, ⟨once, _, others⟩, within, p, inside => by
    rcases mem_cons.mp inside with rfl | inside
    · have found := within k v (if_pos rfl)
      exact ⟨k, v, found, Prod.ext rfl found⟩
    · refine against_of_proper ys others (fun k' v' h => ?_) p inside
      have different : k ≠ k' := fun same => once (same ▸ key_of_get h)
      exact within k' v' ((if_neg different).trans h)

theorem mem_slotPairs_self {vs : List (PValue cfg)} {p : PValue cfg × Option (PValue cfg)} :
    p ∈ slotPairs vs vs ↔ ∃ v ∈ vs, p = (v, some v) := by
  induction vs with
  | nil => simp [slotPairs]
  | cons v vs ih =>
    rw [slotPairs] at ih
    rw [slotPairs, zip_cons_cons, map_cons, mem_cons, ih]
    simp

theorem compareScalars_self (v : PValue cfg) : compareScalars floats v v = 0 := by
  by_cases truth : v.IsTruth
  · rw [compareScalars_truth (.inl truth)]
    cases pvIsTruthy v <;> rfl
  have others : ¬ (v.IsTruth ∨ v.IsTruth) := fun h => truth (or_self_iff.mp h)
  by_cases number : (pvToNumeric floats v true).1 = true
  · rw [compareScalars_numeric others number number, compareNumeric_self]
  by_cases string : v.IsString
  · cases v <;> first | exact string.elim | skip
    rw [compareScalars_strings fun both => number both.1, compareBytes_eq_zero.mpr rfl]
  · rw [compareScalars_types others (fun both => number both.1) fun both => string both.1]
    exact Int.sub_self _

/-- **A value equals itself**, where it ends. -/
theorem returns_self (ends : Acc (Holds objects) v) : v.Proper → Returns floats objects v v 0 := by
  induction ends with
  | intro v parts_end ih =>
    intro proper
    by_cases structured : Structured v v
    · cases v <;> first | exact structured.elim | skip
      case array xs =>
        refine (returns_arrays rfl).mpr (.all_same fun p inside => ?_)
        have own : xs.Proper := proper
        obtain ⟨k, w, found, rfl⟩ := xs.against_of_proper own (fun _ _ h => h) p inside
        exact ih w ⟨k, found⟩ (Entries.Proper.value proper found)
      case object a =>
        refine (returns_objects rfl).mpr (.all_same fun p inside => ?_)
        obtain ⟨w, within, rfl⟩ := mem_slotPairs_self.mp inside
        exact ih w within (objects.proper a w within)
    · have h : Returns floats objects v v _ := returns_scalar structured
      rwa [compareScalars_self] at h

/-- A value that is found equal to itself ends. -/
theorem ends_of_compared : ∀ v : PValue cfg, v.Proper →
    compareLoose floats objects depth v v = some 0 → Acc (Holds objects) v := by
  induction depth with
  | zero =>
    intro v _ h
    cases h
  | succ depth ih =>
    intro v proper h
    refine Acc.intro v fun part held => ?_
    cases v <;> first | exact held.elim | skip
    case array xs =>
      obtain ⟨k, found⟩ := held
      rw [compareLoose_arrays depth rfl] at h
      have same := FirstDifference.first_eq_zero h _ (xs.mem_against found)
      rw [found] at same
      exact ih part (Entries.Proper.value proper found) same
    case object a =>
      rw [compareLoose_objects depth rfl] at h
      have same := FirstDifference.first_eq_zero h _ (mem_slotPairs_self.mpr ⟨part, held, rfl⟩)
      exact ih part (objects.proper a part held) same

/-- **An object equals itself exactly where its properties end.** -/
theorem returns_same_iff (a : Nat) : Returns floats objects (.object a) (.object a) 0 ↔ Acc (Holds objects) (.object a) :=
  ⟨fun ⟨depth, h⟩ => ends_of_compared depth _ trivial h, fun ends => returns_self ends trivial⟩

end PhpPico.Value
