import PhpPico.Proto
import Mathlib.Algebra.Order.Ring.Int
import Mathlib.Tactic.Ring
import Mathlib.Tactic.Linarith

/-!
# Keys of arrays

`normalize_key` turns a value into an integer key, or a string that does not read as one. A string reads as an integer
when it is a decimal number without superfluous zeros that fits `pphp_int`; "-0" is read as 0.
-/

namespace PhpPico
open List

/-- `PPHP_INT_MAXIMUM`. -/
def Config.intMax (cfg : Config) : Nat := if cfg.int64 then 9223372036854775807 else 2147483647

/-- `PPHP_INT_MINIMUM`. -/
def Config.intMin (cfg : Config) : Int := -(cfg.intMax : Int) - 1

/-- A normalised key. -/
inductive Key where
  | int (i : Int)
  | string (s : PString)
  deriving DecidableEq

/-- The empty string. -/
def emptyString : PString := ⟨[], Nat.zero_le _⟩

/-- A value where a key is expected; all types that are no keys are one. -/
inductive KeyValue (cfg : Config) where
  | null
  | bool (b : Bool)
  | int (i : Int)
  | float (bits : BitVec cfg.floatWidth)
  | string (s : PString)
  | other

/-- The digit loop of `numeric_string_key`. -/
def readDigits (limit : Nat) : Nat → List UInt8 → Option Nat
  | value, [] => some value
  | value, c :: rest =>
    if c < 48 ∨ 57 < c then none
    else
      let digit := c.toNat - 48
      if (limit - digit) / 10 < value then none else readDigits limit (value * 10 + digit) rest

/-- The part of `numeric_string_key` behind the sign. -/
def readUnsigned (limit : Nat) (digits : List UInt8) : Option Nat :=
  if digits.head? = some 48 ∧ 1 < digits.length then none else readDigits limit 0 digits

/-- `numeric_string_key`. -/
def numericStringKey (cfg : Config) (data : List UInt8) : Option Int :=
  match data with
  | [] => none
  | first :: rest =>
    if first = 45 then
      if rest = [] then none
      else
        match readUnsigned (cfg.intMax + 1) rest with
        | none => none
        | some value => some (if value = cfg.intMax + 1 then cfg.intMin else -(value : Int))
    else if first = 43 then none
    else (readUnsigned cfg.intMax (first :: rest)).map Int.ofNat

/-- `normalize_key`. The empty string a null stands for is allocated; `truncate` is the range test
and conversion of a float to `pphp_int`. -/
def normalizeKey (cfg : Config) (truncate : BitVec cfg.floatWidth → Option Int) (emptyKey : Bool) :
    KeyValue cfg → Option Key
  | .int i => some (.int i)
  | .float bits => if cfg.enableFloat then (truncate bits).map .int else none
  | .bool true => some (.int 1)
  | .bool false => some (.int 0)
  | .null => if emptyKey then some (.string emptyString) else none
  | .string s =>
    match numericStringKey cfg s.bytes with
    | some i => some (.int i)
    | none => some (.string s)
  | .other => none

/-! ## What the strings mean -/

/-- An ASCII digit. -/
def IsDigit (c : UInt8) : Prop := 48 ≤ c ∧ c ≤ 57

instance (c : UInt8) : Decidable (IsDigit c) := inferInstanceAs (Decidable (_ ∧ _))

/-- The number a list of digits writes, behind `value`. -/
def decimal (value : Nat) (digits : List UInt8) : Nat :=
  digits.foldl (fun v c => v * 10 + (c.toNat - 48)) value

/-- An integer in decimal: an optional minus sign, digits without a superfluous zero in front, and
a value that `pphp_int` holds. -/
structure IntegerLike (cfg : Config) (data : List UInt8) (n : Int) (digits : List UInt8) : Prop where
  sign : data = digits ∧ n = decimal 0 digits ∨ data = 45 :: digits ∧ n = -(decimal 0 digits : Int)
  nonempty : digits ≠ []
  allDigits : ∀ c ∈ digits, IsDigit c
  noZero : digits.head? = some 48 → digits.length = 1
  lower : cfg.intMin ≤ n
  upper : n ≤ cfg.intMax

theorem le_decimal (value : Nat) (digits : List UInt8) : value ≤ decimal value digits := by
  induction digits generalizing value with
  | nil => exact le_rfl
  | cons c rest ih =>
    have step : value ≤ value * 10 + (c.toNat - 48) := by omega
    exact step.trans (ih _)

theorem readDigits_eq_some {limit : Nat} (room : 9 ≤ limit) (value : Nat) (digits : List UInt8)
    (n : Nat) (low : value ≤ limit) : readDigits limit value digits = some n ↔
      (∀ c ∈ digits, IsDigit c) ∧ n = decimal value digits ∧ n ≤ limit := by
  induction digits generalizing value with
  | nil =>
    simp only [readDigits, Option.some.injEq, decimal, foldl_nil, not_mem_nil, false_implies, implies_true, true_and]
    constructor
    · rintro rfl; exact ⟨rfl, low⟩
    · rintro ⟨rfl, -⟩; rfl
  | cons c rest ih =>
    simp only [readDigits]
    by_cases digit : c < 48 ∨ 57 < c
    · rw [if_pos digit]
      constructor
      · intro h; cases h
      · rintro ⟨all, -⟩
        have ⟨lo, hi⟩ := all c (.head _)
        rcases digit with h | h
        · exact absurd h (UInt8.not_lt.mpr lo)
        · exact absurd h (UInt8.not_lt.mpr hi)
    · rw [if_neg digit]
      have isDigit : IsDigit c := ⟨UInt8.not_lt.mp fun h => digit (.inl h), UInt8.not_lt.mp fun h => digit (.inr h)⟩
      have small : c.toNat - 48 ≤ 9 := by
        have := UInt8.le_iff_toNat_le.mp isDigit.2
        have e : (57 : UInt8).toNat = 57 := rfl
        omega
      by_cases beyond : (limit - (c.toNat - 48)) / 10 < value
      · rw [if_pos beyond]
        constructor
        · intro h; cases h
        · rintro ⟨-, rfl, fits⟩
          have grow := le_decimal (value * 10 + (c.toNat - 48)) rest
          change decimal (value * 10 + (c.toNat - 48)) rest ≤ limit at fits
          omega
      · rw [if_neg beyond, ih _ (by omega)]
        simp only [mem_cons, forall_eq_or_imp, isDigit, true_and, decimal, foldl_cons]

theorem nine_le_intMax (cfg : Config) : 9 ≤ cfg.intMax := by
  unfold Config.intMax
  split <;> omega

theorem readUnsigned_eq_some {limit : Nat} (room : 9 ≤ limit) {digits : List UInt8} (nonempty : digits ≠ []) (n : Nat) :
    readUnsigned limit digits = some n ↔ (digits.head? = some 48 → digits.length = 1) ∧ (∀ c ∈ digits, IsDigit c) ∧
        n = decimal 0 digits ∧ n ≤ limit := by
  have long : 0 < digits.length := length_pos_of_ne_nil nonempty
  unfold readUnsigned
  by_cases zero : digits.head? = some 48 ∧ 1 < digits.length
  · rw [if_pos zero]
    constructor
    · intro h; cases h
    · rintro ⟨one, -⟩
      have := one zero.1
      omega
  · rw [if_neg zero, readDigits_eq_some room 0 digits n (Nat.zero_le _)]
    have one : digits.head? = some 48 → digits.length = 1 := by
      intro h
      by_contra more
      exact zero ⟨h, by omega⟩
    exact ⟨fun h => ⟨one, h⟩, fun h => h.2⟩

/-- **`numeric_string_key` accepts exactly the strings that write an integer**, and reads them. -/
theorem numericStringKey_eq_some (cfg : Config) (data : List UInt8) (n : Int) :
    numericStringKey cfg data = some n ↔ ∃ digits, IntegerLike cfg data n digits := by
  have room := nine_le_intMax cfg
  have noSign : ∀ digits : List UInt8, (∀ c ∈ digits, IsDigit c) → ∀ c rest, digits = c :: rest →
      c ≠ 45 ∧ c ≠ 43 := by
    intro digits all c rest e
    have := all c (e ▸ (.head _))
    exact ⟨by rintro rfl; exact absurd this (by decide), by rintro rfl; exact absurd this (by decide)⟩
  cases data with
  | nil =>
    constructor
    · intro h; cases h
    · rintro ⟨digits, h⟩
      rcases h.sign with ⟨e, -⟩ | ⟨e, -⟩
      · exact absurd e.symm h.nonempty
      · cases e
  | cons first rest =>
    simp only [numericStringKey]
    by_cases minus : first = 45
    · subst minus
      rw [if_pos rfl]
      by_cases none_left : rest = []
      · rw [if_pos none_left]
        constructor
        · intro h; cases h
        · rintro ⟨digits, h⟩
          rcases h.sign with ⟨e, -⟩ | ⟨e, -⟩
          · exact absurd rfl (noSign digits h.allDigits 45 rest e.symm).1
          · cases e; exact absurd none_left h.nonempty
      · rw [if_neg none_left]
        constructor
        · intro h
          cases value : readUnsigned (cfg.intMax + 1) rest with
          | none => rw [value] at h; cases h
          | some v =>
            rw [value] at h
            obtain ⟨noZero, all, e, fits⟩ := (readUnsigned_eq_some (by omega) none_left v).mp value
            have hn : n = -(v : Int) := by
              simp only [Option.some.injEq] at h
              subst h
              split
              · next top => rw [Config.intMin, top]; push_cast; ring
              · rfl
            subst e
            exact ⟨rest, .inr ⟨rfl, hn⟩, none_left, all, noZero, by rw [hn, Config.intMin]; omega, by rw [hn]; omega⟩
        · rintro ⟨digits, h⟩
          rcases h.sign with ⟨e, -⟩ | ⟨e, hn⟩
          · exact absurd rfl (noSign digits h.allDigits 45 rest e.symm).1
          · cases e
            have fits : decimal 0 rest ≤ cfg.intMax + 1 := by
              have := h.lower
              rw [hn, Config.intMin] at this
              omega
            rw [(readUnsigned_eq_some (by omega) none_left _).mpr ⟨h.noZero, h.allDigits, rfl, fits⟩]
            simp only [Option.some.injEq]
            rw [hn]
            split
            · next top => rw [Config.intMin, top]; push_cast; ring
            · rfl
    · rw [if_neg minus]
      by_cases plus : first = 43
      · rw [if_pos plus]
        constructor
        · intro h; cases h
        · rintro ⟨digits, h⟩
          rcases h.sign with ⟨e, -⟩ | ⟨e, -⟩
          · exact absurd plus (noSign digits h.allDigits first rest e.symm).2
          · cases e; exact absurd rfl minus
      · rw [if_neg plus, Option.map_eq_some_iff]
        constructor
        · rintro ⟨v, value, rfl⟩
          obtain ⟨noZero, all, e, fits⟩ := (readUnsigned_eq_some room (cons_ne_nil first rest) v).mp value
          exact ⟨first :: rest, .inl ⟨rfl, by rw [← e]; rfl⟩, cons_ne_nil _ _, all, noZero,
            by simp only [Config.intMin, Int.ofNat_eq_natCast]; omega, Int.ofNat_le.mpr fits⟩
        · rintro ⟨digits, h⟩
          rcases h.sign with ⟨e, hn⟩ | ⟨e, -⟩
          · subst e
            have fits : decimal 0 (first :: rest) ≤ cfg.intMax := by
              have := h.upper
              rw [hn] at this
              omega
            exact ⟨_, (readUnsigned_eq_some room h.nonempty _).mpr
              ⟨h.noZero, h.allDigits, rfl, fits⟩, hn.symm⟩
          · cases e; exact absurd rfl minus

theorem IntegerLike.unique {cfg : Config} {data : List UInt8} {n n' : Int} {digits digits' : List UInt8}
    (h : IntegerLike cfg data n digits) (h' : IntegerLike cfg data n' digits') : n = n' := by
  have e := (numericStringKey_eq_some cfg data n).mpr ⟨digits, h⟩
  have e' := (numericStringKey_eq_some cfg data n').mpr ⟨digits', h'⟩
  exact Option.some.inj (e.symm.trans e')

/-! ## What a value stands for as a key -/

/-- The key a value stands for. -/
inductive RefersTo (cfg : Config) (truncate : BitVec cfg.floatWidth → Option Int) : KeyValue cfg → Key → Prop
  | null : RefersTo cfg truncate .null (.string emptyString)
  | isTrue : RefersTo cfg truncate (.bool true) (.int 1)
  | isFalse : RefersTo cfg truncate (.bool false) (.int 0)
  | int (i : Int) : RefersTo cfg truncate (.int i) (.int i)
  | float {bits : BitVec cfg.floatWidth} {i : Int} (enabled : cfg.enableFloat = true)
      (whole : truncate bits = some i) : RefersTo cfg truncate (.float bits) (.int i)
  | number {s : PString} {n : Int} {digits : List UInt8} (reads : IntegerLike cfg s.bytes n digits) :
      RefersTo cfg truncate (.string s) (.int n)
  | text {s : PString} (no_number : ∀ n digits, ¬ IntegerLike cfg s.bytes n digits) :
      RefersTo cfg truncate (.string s) (.string s)

/-- **`normalize_key` finds the key a value stands for**, when the empty string can be had. -/
theorem normalizeKey_eq_some (cfg : Config) (truncate : BitVec cfg.floatWidth → Option Int)
    (emptyKey : Bool) (input : KeyValue cfg) (key : Key) : normalizeKey cfg truncate emptyKey input = some key ↔
      RefersTo cfg truncate input key ∧ (input = .null → emptyKey = true) := by
  cases input with
  | null =>
    simp only [normalizeKey]
    cases emptyKey with
    | false =>
      constructor
      · intro h; cases h
      · rintro ⟨-, room⟩; cases room trivial
    | true =>
      constructor
      · intro h; cases h; exact ⟨.null, fun _ => rfl⟩
      · rintro ⟨h, -⟩; cases h; rfl
  | bool b =>
    cases b
    · constructor
      · intro h; cases h; exact ⟨.isFalse, fun h => by cases h⟩
      · rintro ⟨h, -⟩; cases h; rfl
    · constructor
      · intro h; cases h; exact ⟨.isTrue, fun h => by cases h⟩
      · rintro ⟨h, -⟩; cases h; rfl
  | int i =>
    constructor
    · intro h; cases h; exact ⟨.int i, fun h => by cases h⟩
    · rintro ⟨h, -⟩; cases h; rfl
  | float bits =>
    simp only [normalizeKey]
    constructor
    · intro h
      by_cases enabled : cfg.enableFloat = true
      · rw [if_pos enabled] at h
        obtain ⟨i, hi, rfl⟩ := Option.map_eq_some_iff.mp h
        exact ⟨.float enabled hi, fun h => by cases h⟩
      · rw [if_neg enabled] at h; cases h
    · rintro ⟨h, -⟩
      cases h with
      | float enabled whole => rw [if_pos enabled, whole]; rfl
  | string s =>
    simp only [normalizeKey]
    constructor
    · intro h
      cases value : numericStringKey cfg s.bytes with
      | none =>
        rw [value] at h
        cases h
        refine ⟨.text fun n digits reads => ?_, fun h => by cases h⟩
        rw [(numericStringKey_eq_some cfg s.bytes n).mpr ⟨digits, reads⟩] at value
        cases value
      | some n =>
        rw [value] at h
        cases h
        obtain ⟨digits, reads⟩ := (numericStringKey_eq_some cfg s.bytes n).mp value
        exact ⟨.number reads, fun h => by cases h⟩
    · rintro ⟨h, -⟩
      cases h with
      | number reads => rw [(numericStringKey_eq_some cfg s.bytes _).mpr ⟨_, reads⟩]
      | text no_number =>
        have : numericStringKey cfg s.bytes = none := by
          cases value : numericStringKey cfg s.bytes with
          | none => rfl
          | some n =>
            obtain ⟨digits, reads⟩ := (numericStringKey_eq_some cfg s.bytes n).mp value
            exact absurd reads (no_number n digits)
        rw [this]
  | other =>
    constructor
    · intro h; cases h
    · rintro ⟨h, -⟩; cases h

theorem RefersTo.unique {cfg : Config} {truncate : BitVec cfg.floatWidth → Option Int}
    {input : KeyValue cfg} {key key' : Key} (h : RefersTo cfg truncate input key)
    (h' : RefersTo cfg truncate input key') : key = key' := by
  have e := (normalizeKey_eq_some cfg truncate true input key).mpr ⟨h, fun _ => rfl⟩
  have e' := (normalizeKey_eq_some cfg truncate true input key').mpr ⟨h', fun _ => rfl⟩
  exact Option.some.inj (e.symm.trans e')

end PhpPico
