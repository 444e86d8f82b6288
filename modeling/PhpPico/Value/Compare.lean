import PhpPico.Value.Numeric

/-!
# Identity of values

`===` and `!==` are `pv_compare` in strict mode. Values of one type, other than arrays and references to objects, go
the way of the loose comparison, which reads strings as numbers.
-/

namespace PhpPico.Value
open List

/-! ## The code -/

section Comparison
variable {cfg : Config} (floats : FloatConversions cfg)

/-- `(left > right) - (left < right)`. -/
def sign (greater less : Bool) : Int := greater.toInt - less.toInt

/-- `memcmp` on the shorter length, and then the lengths. -/
def compareBytes : List UInt8 → List UInt8 → Int
  | [], [] => 0
  | [], _ :: _ => -1
  | _ :: _, [] => 1
  | a :: as, b :: bs => if a = b then compareBytes as bs else if b < a then 1 else -1

/-- Numbers, by their integers if both are exact. -/
def compareNumeric (l r : Numeric cfg) : Int :=
  if l.integerExact && r.integerExact then sign (r.integer < l.integer) (l.integer < r.integer)
  else sign (Ieee.lt (fractionBits cfg) r.number l.number) (Ieee.lt (fractionBits cfg) l.number r.number)

/-- The end of `pv_compare`, for values of which not both are arrays or objects. -/
def compareScalars (l r : PValue cfg) : Int :=
  if (l.type = 1 ∨ l.type = 2 ∨ r.type = 1 ∨ r.type = 2) ∨ l.type = 0 ∨ r.type = 0 then
    sign (pvIsTruthy l && !pvIsTruthy r) (!pvIsTruthy l && pvIsTruthy r)
  else
    let left := pvToNumeric floats l true
    let right := pvToNumeric floats r true
    if left.1 && right.1 then compareNumeric left.2 right.2
    else
      match l, r with
      | .string s, .string t => compareBytes s.bytes t.bytes
      | l, r => sign (r.type < l.type) (l.type < r.type)

/-- `pv_compare` on the keys of two entries, in strict mode. -/
def compareKeys (k k' : Key) : Int :=
  if (keyValue k : PValue cfg).type ≠ (keyValue k' : PValue cfg).type then
    if (keyValue k : PValue cfg).type < (keyValue k' : PValue cfg).type then -1 else 1
  else compareScalars floats (keyValue k) (keyValue k')

mutual

/-- `pv_compare` in strict mode. -/
def pvCompare (l r : PValue cfg) : Int :=
  if l.type ≠ r.type then if l.type < r.type then -1 else 1
  else
    match l, r with
    | .object a, .object b | .closure a, .closure b | .resource a, .resource b => if a = b then 0 else 1
    | .array xs, .array ys =>
      if xs.size ≠ ys.size then if ys.size < xs.size then 1 else -1 else compareEntries xs ys
    | l, r => compareScalars floats l r

/-- The loop over the entries of two arrays. -/
def compareEntries : Entries cfg → Entries cfg → Int
  | .cons k v rest, .cons k' v' rest' =>
    let keyResult := compareKeys floats k k'
    let valueResult := pvCompare v v'
    if keyResult ≠ 0 ∨ valueResult ≠ 0 then if keyResult ≠ 0 then keyResult else valueResult
    else compareEntries rest rest'
  | _, _ => 0

end

end Comparison

/-! ## Identity -/

variable {cfg : Config}

mutual

/-- The same type and the same value. -/
inductive Identical : PValue cfg → PValue cfg → Prop
  | null : Identical .null .null
  | ptFalse : Identical .ptFalse .ptFalse
  | ptTrue : Identical .ptTrue .ptTrue
  | int (i : Int) : Identical (.int i) (.int i)
  | float {x y : PFloat cfg} (same : Ieee.eq (fractionBits cfg) x y = true) : Identical (.float x) (.float y)
  | string (s : PString) : Identical (.string s) (.string s)
  | array {xs ys : Entries cfg} (entries : IdenticalEntries xs ys) : Identical (.array xs) (.array ys)
  | object (address : Nat) : Identical (.object address) (.object address)
  | closure (address : Nat) : Identical (.closure address) (.closure address)
  | resource (address : Nat) : Identical (.resource address) (.resource address)

/-- The same keys in the same order, with identical values. -/
inductive IdenticalEntries : Entries cfg → Entries cfg → Prop
  | nil : IdenticalEntries .nil .nil
  | cons (key : Key) {v v' : PValue cfg} {rest rest' : Entries cfg} (value : Identical v v')
      (others : IdenticalEntries rest rest') : IdenticalEntries (.cons key v rest) (.cons key v' rest')

end

/-! ## Places -/

mutual

/-- The values at the same places of two values, keys included. -/
def places : PValue cfg → PValue cfg → List (PValue cfg × PValue cfg)
  | .array xs, .array ys => if xs.size = ys.size then placesIn xs ys else [(.array xs, .array ys)]
  | l, r => [(l, r)]

def placesIn : Entries cfg → Entries cfg → List (PValue cfg × PValue cfg)
  | .cons k v rest, .cons k' v' rest' => (keyValue k, keyValue k') :: (places v v' ++ placesIn rest rest')
  | _, _ => []

end

section Places
variable (floats : FloatConversions cfg)

/-- Both strings are numerals, and not of different numbers. -/
def sameNumeral (s t : PString) : Bool :=
  (stringNumeric floats s.bytes true).1 && (stringNumeric floats t.bytes true).1 &&
    compareNumeric (stringNumeric floats s.bytes true).2 (stringNumeric floats t.bytes true).2 == 0

/-- Different strings that are numerals of one number, or a NaN. -/
def Confused : PValue cfg × PValue cfg → Prop
  | (.string s, .string t) => s ≠ t ∧ sameNumeral floats s t = true
  | (.float x, .float y) => Ieee.isNaN (fractionBits cfg) x = true ∨ Ieee.isNaN (fractionBits cfg) y = true
  | _ => False

/-- The two differ, other than by numerals or a NaN. -/
def Differ : PValue cfg × PValue cfg → Prop
  | (.null, .null) | (.ptFalse, .ptFalse) | (.ptTrue, .ptTrue) => False
  | (.int i, .int j) => i ≠ j
  | (.float x, .float y) =>
    Ieee.isNaN (fractionBits cfg) x = false ∧ Ieee.isNaN (fractionBits cfg) y = false ∧
      Ieee.eq (fractionBits cfg) x y = false
  | (.string s, .string t) => s ≠ t ∧ sameNumeral floats s t = false
  | (.object a, .object b) | (.closure a, .closure b) | (.resource a, .resource b) => a ≠ b
  | _ => True

/-! ## One place -/

variable {floats : FloatConversions cfg}

theorem sign_eq_zero {greater less : Bool} (exclusive : ¬ (greater = true ∧ less = true)) :
    sign greater less = 0 ↔ greater = false ∧ less = false := by
  revert exclusive
  cases greater <;> cases less <;> decide

theorem compareNumeric_self (n : Numeric cfg) : compareNumeric n n = 0 := by
  unfold compareNumeric sign
  split <;> exact Int.sub_self _

theorem compareBytes_eq_zero {as bs : List UInt8} : compareBytes as bs = 0 ↔ as = bs := by
  induction as generalizing bs with
  | nil => cases bs <;> simp [compareBytes]
  | cons a as ih =>
    cases bs with
    | nil => simp [compareBytes]
    | cons b bs =>
      rw [compareBytes]
      by_cases same : a = b
      · rw [if_pos same, ih, same, List.cons.injEq, and_iff_right rfl]
      · rw [if_neg same]
        split <;> simp [same]

theorem compareScalars_int (i j : Int) : compareScalars floats (.int i) (.int j) = 0 ↔ i = j := by
  have exclusive : ¬ (decide (j < i) = true ∧ decide (i < j) = true) := by
    simp only [decide_eq_true_eq]
    omega
  have number : compareScalars floats (.int i) (.int j) = sign (decide (j < i)) (decide (i < j)) := rfl
  rw [number, sign_eq_zero exclusive]
  simp only [decide_eq_false_iff_not]
  omega

theorem compareScalars_float (x y : PFloat cfg) : compareScalars floats (.float x) (.float y) = 0 ↔
    ¬ Differ floats (.float x, .float y) := by
  have exclusive : ¬ (Ieee.lt (fractionBits cfg) y x = true ∧ Ieee.lt (fractionBits cfg) x y = true) := by
    rintro ⟨greater, less⟩
    have := (Ieee.lt_iff.mp greater).2.2
    have := (Ieee.lt_iff.mp less).2.2
    omega
  have number : compareScalars floats (.float x) (.float y) =
      sign (Ieee.lt (fractionBits cfg) y x) (Ieee.lt (fractionBits cfg) x y) := rfl
  rw [number, sign_eq_zero exclusive, and_comm, Ieee.not_lt_iff, Differ]
  cases Ieee.isNaN (fractionBits cfg) x <;> cases Ieee.isNaN (fractionBits cfg) y <;> simp

theorem compareScalars_string (s t : PString) : compareScalars floats (.string s) (.string t) = 0 ↔
    ¬ Differ floats (.string s, .string t) := by
  have bytes : s.bytes = t.bytes ↔ s = t := by
    constructor
    · intro same
      cases s
      cases t
      cases same
      rfl
    · exact congrArg _
  have number : compareScalars floats (.string s) (.string t) =
      if (stringNumeric floats s.bytes true).1 && (stringNumeric floats t.bytes true).1 then
        compareNumeric (stringNumeric floats s.bytes true).2 (stringNumeric floats t.bytes true).2
      else compareBytes s.bytes t.bytes := rfl
  rw [number, Differ, sameNumeral]
  cases numerals : (stringNumeric floats s.bytes true).1 && (stringNumeric floats t.bytes true).1 with
  | false =>
    rw [if_neg Bool.false_ne_true, compareBytes_eq_zero, bytes, Bool.false_and]
    simp
  | true =>
    rw [if_pos rfl, Bool.true_and, beq_eq_false_iff_ne]
    refine ⟨fun same differ => differ.2 same, fun same => ?_⟩
    by_contra other
    refine same ⟨fun equal => ?_, other⟩
    rw [equal] at other
    exact other (compareNumeric_self _)

theorem differ_of_type {l r : PValue cfg} (type : l.type ≠ r.type) : Differ floats (l, r) := by
  cases l <;> cases r <;> trivial

/-- Two arrays. -/
def BothArrays (l r : PValue cfg) : Prop := ∃ xs ys, l = .array xs ∧ r = .array ys

theorem reference_eq_zero (a b : Nat) : (if a = b then (0 : Int) else 1) = 0 ↔ ¬ a ≠ b := by
  by_cases same : a = b <;> simp [same]

/-- **One place**: no difference is reported exactly where the two do not differ, other than by numerals or a
NaN. -/
theorem pvCompare_scalar {l r : PValue cfg} (scalar : ¬ BothArrays l r) :
    pvCompare floats l r = 0 ↔ ¬ Differ floats (l, r) := by
  by_cases type : l.type = r.type
  · cases l <;> cases r <;> try (simp [PValue.type] at type; done)
    case null.null => exact iff_of_true rfl id
    case ptFalse.ptFalse => exact iff_of_true rfl id
    case ptTrue.ptTrue => exact iff_of_true rfl id
    case int.int i j =>
      have code : pvCompare floats (.int i) (.int j) = compareScalars floats (.int i) (.int j) := rfl
      rw [code]
      exact (compareScalars_int i j).trans not_not.symm
    case float.float x y =>
      have code : pvCompare floats (.float x) (.float y) = compareScalars floats (.float x) (.float y) := rfl
      rw [code]
      exact compareScalars_float x y
    case string.string s t =>
      have code : pvCompare floats (.string s) (.string t) = compareScalars floats (.string s) (.string t) := rfl
      rw [code]
      exact compareScalars_string s t
    case array.array xs ys => exact absurd ⟨xs, ys, rfl, rfl⟩ scalar
    case object.object a b => exact reference_eq_zero a b
    case closure.closure a b => exact reference_eq_zero a b
    case resource.resource a b => exact reference_eq_zero a b
  · refine iff_of_false ?_ fun same => same (differ_of_type type)
    have code : pvCompare floats l r = if l.type < r.type then -1 else 1 := by
      unfold pvCompare
      rw [if_pos type]
    rw [code]
    split <;> decide

/-! ## All places -/

theorem places_scalar {l r : PValue cfg} (scalar : ¬ BothArrays l r) : places l r = [(l, r)] := by
  cases l <;> cases r <;> first | rfl | exact absurd ⟨_, _, rfl, rfl⟩ scalar

theorem compareKeys_eq (k k' : Key) : compareKeys floats k k' = pvCompare floats (keyValue k) (keyValue k') := by
  cases k <;> cases k' <;> rfl

theorem not_bothArrays_keys (k k' : Key) : ¬ BothArrays (keyValue k : PValue cfg) (keyValue k') := by
  rintro ⟨xs, ys, same, -⟩
  cases k <;> cases same

mutual

/-- No difference is reported exactly where the two differ in no place. -/
theorem pvCompare_eq_zero : ∀ l r : PValue cfg, pvCompare floats l r = 0 ↔ ∀ p ∈ places l r, ¬ Differ floats p
  | .array xs, r => by
    by_cases both : BothArrays (.array xs) r
    · obtain ⟨_, ys, ⟨⟩, rfl⟩ := both
      have code : pvCompare floats (.array xs) (.array ys) =
        if xs.size ≠ ys.size then if ys.size < xs.size then 1 else -1 else compareEntries floats xs ys := rfl
      rw [code, places]
      by_cases size : xs.size = ys.size
      · rw [if_neg (not_not.mpr size), if_pos size]
        exact compareEntries_eq_zero xs ys size
      · rw [if_pos size, if_neg size]
        refine iff_of_false (by split <;> decide) fun same => same _ (mem_singleton.mpr rfl) trivial
    · rw [pvCompare_scalar both, places_scalar both, forall_mem_singleton]
  | .null, r | .ptFalse, r | .ptTrue, r | .int _, r | .float _, r | .string _, r | .object _, r | .closure _, r
  | .resource _, r => by
    rw [pvCompare_scalar (by rintro ⟨_, _, ⟨⟩, -⟩), places_scalar (by rintro ⟨_, _, ⟨⟩, -⟩), forall_mem_singleton]

theorem compareEntries_eq_zero : ∀ xs ys : Entries cfg, xs.size = ys.size →
    (compareEntries floats xs ys = 0 ↔ ∀ p ∈ placesIn xs ys, ¬ Differ floats p)
  | .nil, .nil, _ => iff_of_true rfl fun _ mem => absurd mem not_mem_nil
  | .nil, .cons .., size => by cases size
  | .cons .., .nil, size => by cases size
  | .cons k v rest, .cons k' v' rest', size => by
    have keys : pvCompare floats (keyValue k) (keyValue k') = 0 ↔ _ := pvCompare_scalar (not_bothArrays_keys k k')
    have values := pvCompare_eq_zero v v'
    have others := compareEntries_eq_zero rest rest' (Nat.succ.inj size)
    rw [← compareKeys_eq] at keys
    rw [compareEntries, placesIn, forall_mem_cons, forall_mem_append, ← keys, ← values, ← others]
    by_cases key : compareKeys floats k k' = 0
    · by_cases value : pvCompare floats v v' = 0
      · simp [key, value]
      · simp [key, value]
    · simp [key]

end

/-! ## What is identical -/

theorem IdenticalEntries.size {xs ys : Entries cfg} : IdenticalEntries xs ys → xs.size = ys.size
  | .nil => rfl
  | .cons _ _ others => congrArg (· + 1) others.size

/-- Identical values neither differ nor are confused. -/
theorem identical_scalar {l r : PValue cfg} (scalar : ¬ BothArrays l r) :
    Identical l r ↔ ¬ Differ floats (l, r) ∧ ¬ Confused floats (l, r) := by
  constructor
  · intro same
    cases same with
    | float same =>
      obtain ⟨number, number', -⟩ := Ieee.eq_iff.mp same
      simp [Differ, Confused, same, number, number']
    | array entries => exact absurd ⟨_, _, rfl, rfl⟩ scalar
    | _ => simp [Differ, Confused]
  · rintro ⟨same, clear⟩
    cases l <;> cases r <;> try exact absurd trivial same
    case null.null => exact .null
    case ptFalse.ptFalse => exact .ptFalse
    case ptTrue.ptTrue => exact .ptTrue
    case int.int i j => exact not_not.mp same ▸ .int i
    case float.float x y =>
      simp only [Differ, Confused, not_or, Bool.not_eq_true] at same clear
      refine .float ?_
      by_contra other
      exact same ⟨clear.1, clear.2, Bool.not_eq_true _ ▸ other⟩
    case string.string s t =>
      simp only [Differ, Confused, not_and, Bool.not_eq_true, Bool.not_eq_false] at same clear
      have equal : s = t := by
        by_contra other
        exact absurd ((same other).symm.trans (clear other)) (by decide)
      exact equal ▸ .string s
    case object.object a b => exact not_not.mp same ▸ .object a
    case closure.closure a b => exact not_not.mp same ▸ .closure a
    case resource.resource a b => exact not_not.mp same ▸ .resource a

theorem identical_keys {k k' : Key} : Identical (keyValue k : PValue cfg) (keyValue k') ↔ k = k' := by
  constructor
  · intro same
    cases k <;> cases k' <;> cases same <;> rfl
  · rintro rfl
    cases k with
    | int i => exact .int i
    | string s => exact .string s

mutual

theorem identical_iff : ∀ l r : PValue cfg, Identical l r ↔ ∀ p ∈ places l r, ¬ Differ floats p ∧ ¬ Confused floats p
  | .array xs, r => by
    by_cases both : BothArrays (.array xs) r
    · obtain ⟨_, ys, ⟨⟩, rfl⟩ := both
      rw [places]
      by_cases size : xs.size = ys.size
      · rw [if_pos size, ← identicalEntries_iff xs ys size]
        exact ⟨fun same => by cases same; assumption, .array⟩
      · rw [if_neg size]
        refine iff_of_false (fun same => ?_) fun same => (same _ (mem_singleton.mpr rfl)).1 trivial
        cases same with
        | array entries => exact size entries.size
    · rw [identical_scalar both, places_scalar both, forall_mem_singleton]
  | .null, r | .ptFalse, r | .ptTrue, r | .int _, r | .float _, r | .string _, r | .object _, r | .closure _, r
  | .resource _, r => by
    rw [identical_scalar (by rintro ⟨_, _, ⟨⟩, -⟩), places_scalar (by rintro ⟨_, _, ⟨⟩, -⟩), forall_mem_singleton]

theorem identicalEntries_iff : ∀ xs ys : Entries cfg, xs.size = ys.size →
    (IdenticalEntries xs ys ↔ ∀ p ∈ placesIn xs ys, ¬ Differ floats p ∧ ¬ Confused floats p)
  | .nil, .nil, _ => iff_of_true .nil fun _ mem => absurd mem not_mem_nil
  | .nil, .cons .., size => by cases size
  | .cons .., .nil, size => by cases size
  | .cons k v rest, .cons k' v' rest', size => by
    have keys : Identical (keyValue k : PValue cfg) (keyValue k') ↔
        ¬ Differ floats (keyValue k, keyValue k') ∧ ¬ Confused floats (keyValue k, keyValue k') :=
      identical_scalar (not_bothArrays_keys k k')
    have values := identical_iff v v'
    have others := identicalEntries_iff rest rest' (Nat.succ.inj size)
    rw [placesIn, forall_mem_cons, forall_mem_append, ← keys, ← values, ← others, identical_keys]
    constructor
    · intro same
      cases same with
      | cons _ value others => exact ⟨rfl, value, others⟩
    · rintro ⟨rfl, value, others⟩
      exact .cons k value others

end

/-- **`===` is identity** for two values, if and only if they differ wherever they are confused: in some place,
if in any there are different numerals of one number or a NaN. -/
theorem strict_compare_iff (l r : PValue cfg) : (pvCompare floats l r = 0 ↔ Identical l r) ↔
    ((∃ p ∈ places l r, Confused floats p) → ∃ p ∈ places l r, Differ floats p) := by
  rw [pvCompare_eq_zero, identical_iff]
  constructor
  · rintro right ⟨p, mem, confused⟩
    by_contra none
    have alike : ∀ p ∈ places l r, ¬ Differ floats p := fun p mem differ => none ⟨p, mem, differ⟩
    exact (right.mp alike p mem).2 confused
  · intro differ
    refine ⟨fun alike p mem => ⟨alike p mem, fun confused => ?_⟩, fun same p mem => (same p mem).1⟩
    obtain ⟨q, mem', differ⟩ := differ ⟨p, mem, confused⟩
    exact alike q mem' differ

end Places

/-- A build of which only the integers matter. -/
def narrowBuild : Config := ⟨false, false, true, false, false⟩

/-- The numerals of ten with and without a zero in front are not identical, but reported to be. -/
theorem numerals_not_identical :
    ¬ (pvCompare (⟨fun _ => 0, fun _ => 0, fun _ => 0, id, fun _ _ => none⟩ : FloatConversions narrowBuild)
      (.string ⟨ascii "10", by decide⟩) (.string ⟨ascii "010", by decide⟩) = 0 ↔
      Identical (.string ⟨ascii "10", by decide⟩) (.string ⟨ascii "010", by decide⟩ : PValue narrowBuild)) := by
  intro right
  have same := right.mp (by decide +kernel)
  cases same

end PhpPico.Value
