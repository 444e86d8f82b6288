import PhpPico.Parray.Key
import Mathlib.Data.List.Induction

/-!
# Canonical keys

A string addresses the element of an integer when it is the text `pphp_format_integer` writes for it.
`numeric_string_key` takes one string more for an integer: "-0".
-/

namespace PhpPico
open List

/-! ## The text of an integer -/

/-- The digit loop of `pphp_format_integer`, the last digit first; `room` bytes of `reversed` are
free. -/
def reversedDigits : Nat → Nat → List UInt8
  | 0, _ => []
  | room + 1, magnitude =>
    UInt8.ofNat (48 + magnitude % 10) :: if magnitude / 10 = 0 then [] else reversedDigits room (magnitude / 10)

/-- `sizeof(pphp_int)`. -/
def Config.intBytes (cfg : Config) : Nat := if cfg.int64 then 8 else 4

/-- The array `reversed` of `pphp_format_integer`: the digits and the sign, from the end. -/
def reversedInteger (cfg : Config) (value : Int) : List UInt8 :=
  let magnitude := if value < 0 then (-(value + 1)).toNat + 1 else value.toNat
  reversedDigits (cfg.intBytes * 3) magnitude ++ if value < 0 then [45] else []

/-- `pphp_format_integer`: the bytes before the null, or nothing where the buffer is too small. -/
def pphpFormatInteger (cfg : Config) (capacity : Nat) (value : Int) : Option (List UInt8) :=
  if capacity ≤ (reversedInteger cfg value).length then none else some (reversedInteger cfg value).reverse

/-- The string is the text of an integer of the build. -/
structure Writes (cfg : Config) (s : PString) (n : Int) : Prop where
  lower : cfg.intMin ≤ n
  upper : n ≤ cfg.intMax
  text : ∃ capacity, pphpFormatInteger cfg capacity n = some s.bytes

variable {cfg : Config} {s : PString} {n : Int} {c : UInt8} {digits : List UInt8}

theorem Writes.bytes_eq (h : Writes cfg s n) : s.bytes = (reversedInteger cfg n).reverse := by
  obtain ⟨capacity, text⟩ := h.text
  unfold pphpFormatInteger at text
  split at text
  · cases text
  · exact (Option.some.inj text).symm

theorem Writes.of_bytes_eq (lower : cfg.intMin ≤ n) (upper : n ≤ cfg.intMax)
    (text : s.bytes = (reversedInteger cfg n).reverse) : Writes cfg s n := by
  refine ⟨lower, upper, (reversedInteger cfg n).length + 1, ?_⟩
  unfold pphpFormatInteger
  rw [if_neg (by omega), text]

/-! ## Numerals -/

/-- Digits without a superfluous zero in front. -/
structure Numeral (digits : List UInt8) : Prop where
  nonempty : digits ≠ []
  allDigits : ∀ c ∈ digits, IsDigit c
  noZero : digits.head? = some 48 → digits.length = 1

theorem decimal_concat (digits : List UInt8) (c : UInt8) :
    decimal 0 (digits ++ [c]) = decimal 0 digits * 10 + (c.toNat - 48) := by
  simp only [decimal, foldl_append, foldl_cons, foldl_nil]

theorem isDigit_iff : IsDigit c ↔ 48 ≤ c.toNat ∧ c.toNat ≤ 57 := by
  simp only [IsDigit, UInt8.le_iff_toNat_le]
  rfl

theorem digitByte_toNat {n : Nat} (small : n < 10) : (UInt8.ofNat (48 + n)).toNat = 48 + n := by
  rw [UInt8.toNat_ofNat']
  omega

theorem isDigit_digitByte {n : Nat} (small : n < 10) : IsDigit (UInt8.ofNat (48 + n)) := by
  rw [isDigit_iff, digitByte_toNat small]
  omega

theorem Numeral.one (digit : IsDigit c) : Numeral [c] where
  nonempty := cons_ne_nil c []
  allDigits := by
    intro c' listed
    rw [mem_singleton.mp listed]
    exact digit
  noZero := fun _ => rfl

theorem Numeral.init_pos (h : Numeral (digits ++ [c])) (more : digits ≠ []) : 0 < decimal 0 digits := by
  cases digits with
  | nil => exact absurd rfl more
  | cons first rest =>
    have digit := isDigit_iff.mp (h.allDigits first (.head _))
    have notZero : first.toNat ≠ 48 := by
      intro zero
      have head : (first :: rest ++ [c]).head? = some 48 := congrArg some (UInt8.toNat_inj.mp zero)
      have one := h.noZero head
      rw [length_append, length_cons, length_singleton] at one
      omega
    have grow := le_decimal (0 * 10 + (first.toNat - 48)) rest
    change 0 < decimal (0 * 10 + (first.toNat - 48)) rest
    omega

theorem Numeral.init (h : Numeral (digits ++ [c])) (more : digits ≠ []) : Numeral digits where
  nonempty := more
  allDigits := fun c' listed => h.allDigits c' (mem_append_left _ listed)
  noZero := by
    intro zero
    have head : (digits ++ [c]).head? = some 48 := by
      rw [head?_append, zero]
      rfl
    have one := h.noZero head
    have : 0 < digits.length := length_pos_of_ne_nil more
    rw [length_append, length_singleton] at one
    omega

theorem Numeral.concat (h : Numeral digits) (positive : 0 < decimal 0 digits)
    (digit : IsDigit c) : Numeral (digits ++ [c]) where
  nonempty := append_ne_nil_of_left_ne_nil h.nonempty _
  allDigits := by
    intro c' listed
    rcases mem_append.mp listed with before | last
    · exact h.allDigits c' before
    · rw [mem_singleton.mp last]
      exact digit
  noZero := by
    intro zero
    cases digits with
    | nil => exact absurd rfl h.nonempty
    | cons first rest =>
      -- a numeral that begins with a zero is zero
      have one := h.noZero zero
      have alone : rest = [] := length_eq_zero_iff.mp (Nat.succ.inj one)
      subst alone
      cases Option.some.inj zero
      exact absurd positive (by decide)

theorem reversedDigits_spec (room magnitude : Nat) (fits : magnitude < 10 ^ (room + 1)) :
    Numeral (reversedDigits (room + 1) magnitude).reverse ∧
      decimal 0 (reversedDigits (room + 1) magnitude).reverse = magnitude := by
  induction room generalizing magnitude with
  | zero =>
    have done : magnitude / 10 = 0 := by omega
    have digit : magnitude % 10 < 10 := Nat.mod_lt _ (by decide)
    simp only [reversedDigits, if_pos done, reverse_singleton]
    refine ⟨Numeral.one (isDigit_digitByte digit), ?_⟩
    change 0 * 10 + ((UInt8.ofNat (48 + magnitude % 10)).toNat - 48) = magnitude
    rw [digitByte_toNat digit]
    omega
  | succ room ih =>
    have digit : magnitude % 10 < 10 := Nat.mod_lt _ (by decide)
    rw [reversedDigits]
    by_cases done : magnitude / 10 = 0
    · rw [if_pos done, reverse_singleton]
      refine ⟨Numeral.one (isDigit_digitByte digit), ?_⟩
      change 0 * 10 + ((UInt8.ofNat (48 + magnitude % 10)).toNat - 48) = magnitude
      rw [digitByte_toNat digit]
      omega
    · have fewer : magnitude / 10 < 10 ^ (room + 1) := by
        rw [pow_succ] at fits
        omega
      obtain ⟨numeral, value⟩ := ih (magnitude / 10) fewer
      rw [if_neg done, reverse_cons]
      constructor
      · apply numeral.concat _ (isDigit_digitByte digit)
        rw [value]
        omega
      · rw [decimal_concat, value, digitByte_toNat digit]
        omega

theorem Numeral.unique {digits' : List UInt8} (h : Numeral digits) (h' : Numeral digits')
    (same : decimal 0 digits = decimal 0 digits') : digits = digits' := by
  induction digits using List.reverseRecOn generalizing digits' with
  | nil => exact absurd rfl h.nonempty
  | append_singleton init last ih =>
    rcases eq_nil_or_concat' digits' with rfl | ⟨init', last', rfl⟩
    · exact absurd rfl h'.nonempty
    rw [decimal_concat, decimal_concat] at same
    have digit := isDigit_iff.mp (h.allDigits last (mem_append_right _ (mem_singleton_self _)))
    have digit' := isDigit_iff.mp (h'.allDigits last' (mem_append_right _ (mem_singleton_self _)))
    have lasts : last = last' := UInt8.toNat_inj.mp (by omega)
    have values : decimal 0 init = decimal 0 init' := by omega
    subst lasts
    have inits : init = init' := by
      by_cases alone : init = []
      · by_contra different
        have positive := h'.init_pos fun empty => different (alone.trans empty.symm)
        rw [← values, alone] at positive
        exact absurd positive (by decide)
      · by_cases alone' : init' = []
        · have positive := h.init_pos alone
          rw [values, alone'] at positive
          exact absurd positive (by decide)
        · exact ih (h.init alone) (h'.init alone') values
    rw [inits]

theorem reversedInteger_spec (lower : cfg.intMin ≤ n) (upper : n ≤ cfg.intMax) :
    ∃ digits, Numeral digits ∧ decimal 0 digits = n.natAbs ∧
      (reversedInteger cfg n).reverse = (if n < 0 then [45] else []) ++ digits := by
  have bound : n.natAbs < 10 ^ (cfg.intBytes * 3 - 1 + 1) := by
    unfold Config.intMin Config.intMax at lower
    unfold Config.intMax at upper
    unfold Config.intBytes
    cases wide : cfg.int64 with
    | false =>
      simp only [wide, Bool.false_eq_true, if_false] at lower upper ⊢
      norm_num
      omega
    | true =>
      simp only [wide, if_true] at lower upper ⊢
      norm_num
      omega
  have some_room : cfg.intBytes * 3 - 1 + 1 = cfg.intBytes * 3 := by
    unfold Config.intBytes
    split <;> omega
  obtain ⟨numeral, value⟩ := reversedDigits_spec _ _ bound
  rw [some_room] at numeral value
  refine ⟨_, numeral, value, ?_⟩
  unfold reversedInteger
  by_cases negative : n < 0
  · have magnitude : (-(n + 1)).toNat + 1 = n.natAbs := by omega
    rw [if_pos negative, if_pos negative]
    change (reversedDigits (cfg.intBytes * 3) ((-(n + 1)).toNat + 1) ++ [45]).reverse = _
    rw [magnitude, reverse_append]
    rfl
  · have magnitude : n.toNat = n.natAbs := by omega
    rw [if_neg negative, if_neg negative]
    change (reversedDigits (cfg.intBytes * 3) n.toNat ++ []).reverse = _
    rw [magnitude, append_nil]
    rfl

/-! ## The key of a string -/

/-- The text that is read as 0 though no integer is written so. -/
def minusZero : PString := ⟨ascii "-0", by decide⟩

theorem IntegerLike.numeral {data : List UInt8} (h : IntegerLike cfg data n digits) : Numeral digits :=
  ⟨h.nonempty, h.allDigits, h.noZero⟩

theorem Writes.integerLike (h : Writes cfg s n) : ∃ digits, IntegerLike cfg s.bytes n digits := by
  obtain ⟨digits, numeral, value, text⟩ := reversedInteger_spec h.lower h.upper
  refine ⟨digits, ?_, numeral.nonempty, numeral.allDigits, numeral.noZero, h.lower, h.upper⟩
  rw [h.bytes_eq, text]
  by_cases negative : n < 0
  · right
    rw [if_pos negative]
    exact ⟨rfl, by omega⟩
  · left
    rw [if_neg negative]
    exact ⟨rfl, by omega⟩

/-- A text that reads as an integer is the one that is written for it, but for "-0". -/
theorem IntegerLike.writes (h : IntegerLike cfg s.bytes n digits) (proper : s ≠ minusZero) : Writes cfg s n := by
  apply Writes.of_bytes_eq h.lower h.upper
  obtain ⟨digits', numeral', value', text⟩ := reversedInteger_spec h.lower h.upper
  rw [text]
  rcases h.sign with ⟨same, value⟩ | ⟨same, value⟩
  · have equal : digits = digits' := h.numeral.unique numeral' (by omega)
    rw [if_neg (by omega), same, equal]
    rfl
  · have equal : digits = digits' := h.numeral.unique numeral' (by omega)
    have nonzero : decimal 0 digits ≠ 0 := by
      intro zero
      have alone : digits = [48] := h.numeral.unique (Numeral.one (by decide)) (zero.trans (by decide))
      apply proper
      cases s
      cases alone
      cases same
      rfl
    rw [if_pos (by omega), same, equal]
    rfl

/-- `numeric_string_key` reads "-0" as 0. -/
theorem numericStringKey_minusZero (cfg : Config) : numericStringKey cfg minusZero.bytes = some 0 := by
  apply (numericStringKey_eq_some cfg _ 0).mpr
  have numeral : Numeral [48] := Numeral.one (by decide)
  refine ⟨[48], .inr ⟨by decide, by decide⟩, numeral.nonempty, numeral.allDigits, numeral.noZero, ?_, ?_⟩
  · unfold Config.intMin
    omega
  · omega

theorem not_writes_minusZero (cfg : Config) (n : Int) : ¬ Writes cfg minusZero n := by
  intro h
  obtain ⟨digits, numeral, value, text⟩ := reversedInteger_spec h.lower h.upper
  have bytes := h.bytes_eq.trans text
  have minus : minusZero.bytes = [45, 48] := by decide
  rw [minus] at bytes
  by_cases negative : n < 0
  · rw [if_pos negative] at bytes
    cases bytes
    have zero : decimal 0 [48] = 0 := by decide
    omega
  · rw [if_neg negative] at bytes
    have listed : (45 : UInt8) ∈ digits := by
      rw [nil_append] at bytes
      rw [← bytes]
      exact .head _
    exact absurd (numeral.allDigits 45 listed) (by decide)

theorem Writes.integer_unique {m : Int} (h : Writes cfg s m) (h' : Writes cfg s n) : m = n := by
  obtain ⟨digits, reads⟩ := h.integerLike
  obtain ⟨digits', reads'⟩ := h'.integerLike
  exact reads.unique reads'

theorem Writes.string_unique {t : PString} (h : Writes cfg s n) (h' : Writes cfg t n) : s = t := by
  have bytes := h.bytes_eq.trans h'.bytes_eq.symm
  cases s
  cases t
  cases bytes
  rfl

/-- A key as a program writes it. -/
def Key.asValue {cfg : Config} : Key → KeyValue cfg
  | .int i => .int i
  | .string s => .string s

/-- `keys_equal`. -/
def keysEqual : Key → Key → Bool
  | .int left, .int right => left == right
  | .string left, .string right => left.bytes == right.bytes
  | _, _ => false

theorem keysEqual_iff {k l : Key} : keysEqual k l = true ↔ k = l := by
  cases k with
  | int i =>
    cases l with
    | int j => simp only [keysEqual, beq_iff_eq, Key.int.injEq]
    | string t => simp only [keysEqual, Bool.false_eq_true, reduceCtorEq]
  | string s =>
    cases l with
    | int j => simp only [keysEqual, Bool.false_eq_true, reduceCtorEq]
    | string t =>
      cases s
      cases t
      simp only [keysEqual, beq_iff_eq, Key.string.injEq, PString.mk.injEq]

section Normalize
variable (cfg : Config) (truncate : BitVec cfg.floatWidth → Option Int) (emptyKey : Bool)

/-- `normalize_key` takes the string for the integer whose text it is, and for itself otherwise. -/
structure Canonical (s : PString) : Prop where
  int : ∀ n, normalizeKey cfg truncate emptyKey (.string s) = some (.int n) ↔ Writes cfg s n
  string : normalizeKey cfg truncate emptyKey (.string s) = some (.string s) ↔ ∀ n, ¬ Writes cfg s n

/-- The two keys address the same element. -/
def SameElement (a b : Key) : Prop :=
  ∃ k l, normalizeKey cfg truncate emptyKey a.asValue = some k ∧
    normalizeKey cfg truncate emptyKey b.asValue = some l ∧ keysEqual k l = true

/-- PHP identifies the keys: they are the same, or one is the text of the other. -/
inductive Identified (cfg : Config) : Key → Key → Prop
  | same (k : Key) : Identified cfg k k
  | text {s : PString} {n : Int} (written : Writes cfg s n) : Identified cfg (.string s) (.int n)
  | number {s : PString} {n : Int} (written : Writes cfg s n) : Identified cfg (.int n) (.string s)

/-- One key is "-0" and the other one 0. -/
def Collide (cfg : Config) (a b : Key) : Prop :=
  a = .string minusZero ∧ Identified cfg b (.int 0) ∨ b = .string minusZero ∧ Identified cfg a (.int 0)

theorem normalizeKey_string {s : PString} (proper : s ≠ minusZero) (key : Key) :
    normalizeKey cfg truncate emptyKey (.string s) = some key ↔
      (∃ n, Writes cfg s n ∧ key = .int n) ∨ ((∀ n, ¬ Writes cfg s n) ∧ key = .string s) := by
  rw [normalizeKey_eq_some]
  constructor
  · rintro ⟨refers, -⟩
    cases refers with
    | number reads => exact .inl ⟨_, reads.writes proper, rfl⟩
    | text no_number =>
      refine .inr ⟨fun n written => ?_, rfl⟩
      obtain ⟨digits, reads⟩ := written.integerLike
      exact no_number n digits reads
  · rintro (⟨n, written, rfl⟩ | ⟨none_written, rfl⟩)
    · obtain ⟨digits, reads⟩ := written.integerLike
      exact ⟨.number reads, fun h => by cases h⟩
    · exact ⟨.text fun n digits reads => none_written n (reads.writes proper), fun h => by cases h⟩

theorem normalizeKey_minusZero : normalizeKey cfg truncate emptyKey (.string minusZero) = some (.int 0) := by
  simp only [normalizeKey, numericStringKey_minusZero]

theorem canonical_iff_ne (s : PString) : Canonical cfg truncate emptyKey s ↔ s ≠ minusZero := by
  constructor
  · rintro canonical rfl
    exact not_writes_minusZero cfg 0 ((canonical.int 0).mp (normalizeKey_minusZero cfg truncate emptyKey))
  · intro proper
    constructor
    · intro n
      rw [normalizeKey_string cfg truncate emptyKey proper]
      constructor
      · rintro (⟨m, written, same⟩ | ⟨-, same⟩)
        · cases same
          exact written
        · cases same
      · exact fun written => .inl ⟨n, written, rfl⟩
    · rw [normalizeKey_string cfg truncate emptyKey proper]
      constructor
      · rintro (⟨m, -, same⟩ | ⟨none_written, -⟩)
        · cases same
        · exact none_written
      · exact fun none_written => .inr ⟨none_written, rfl⟩

variable {a b : Key}

theorem sameElement_iff {k l : Key} (left : normalizeKey cfg truncate emptyKey a.asValue = some k)
    (right : normalizeKey cfg truncate emptyKey b.asValue = some l) :
    SameElement cfg truncate emptyKey a b ↔ k = l := by
  constructor
  · rintro ⟨k', l', left', right', equal⟩
    rw [left] at left'
    rw [right] at right'
    rw [Option.some.inj left', Option.some.inj right']
    exact keysEqual_iff.mp equal
  · exact fun same => ⟨k, l, left, right, keysEqual_iff.mpr same⟩

theorem Identified.symm (h : Identified cfg a b) : Identified cfg b a := by
  cases h with
  | same => exact .same _
  | text written => exact .number written
  | number written => exact .text written

theorem SameElement.symm (h : SameElement cfg truncate emptyKey a b) : SameElement cfg truncate emptyKey b a := by
  obtain ⟨k, l, left, right, equal⟩ := h
  exact ⟨l, k, right, left, keysEqual_iff.mpr (keysEqual_iff.mp equal).symm⟩

/-- What a key other than "-0" stands for. -/
inductive Address (cfg : Config) : Key → Key → Prop
  | int (i : Int) : Address cfg (.int i) (.int i)
  | number {s : PString} {n : Int} (written : Writes cfg s n) : Address cfg (.string s) (.int n)
  | text {s : PString} (none_written : ∀ n, ¬ Writes cfg s n) : Address cfg (.string s) (.string s)

theorem exists_address (proper : a ≠ .string minusZero) :
    ∃ k, normalizeKey cfg truncate emptyKey a.asValue = some k ∧ Address cfg a k := by
  cases a with
  | int i => exact ⟨.int i, rfl, .int i⟩
  | string s =>
    have other : s ≠ minusZero := fun same => proper (congrArg Key.string same)
    by_cases written : ∃ n, Writes cfg s n
    · obtain ⟨n, written⟩ := written
      exact ⟨.int n, (normalizeKey_string cfg truncate emptyKey other _).mpr (.inl ⟨n, written, rfl⟩), .number written⟩
    · have none_written : ∀ n, ¬ Writes cfg s n := fun n h => written ⟨n, h⟩
      exact ⟨.string s, (normalizeKey_string cfg truncate emptyKey other _).mpr (.inr ⟨none_written, rfl⟩),
        .text none_written⟩

theorem Address.eq_iff {k l : Key} (left : Address cfg a k) (right : Address cfg b l) : k = l ↔ Identified cfg a b := by
  cases left with
  | int i =>
    cases right with
    | int j =>
      constructor
      · rintro ⟨⟩
        exact .same _
      · rintro ⟨⟩
        rfl
    | number written =>
      constructor
      · rintro ⟨⟩
        exact .number written
      · rintro (_ | _ | written')
        rw [written.integer_unique written']
    | text none_written =>
      constructor
      · rintro ⟨⟩
      · rintro (_ | _ | written')
        exact absurd written' (none_written _)
  | number written =>
    cases right with
    | int j =>
      constructor
      · rintro ⟨⟩
        exact .text written
      · rintro (_ | written' | _)
        rw [written.integer_unique written']
    | number written' =>
      constructor
      · rintro ⟨⟩
        rw [written.string_unique written']
        exact .same _
      · rintro (_ | _ | _)
        rw [written.integer_unique written']
    | text none_written =>
      constructor
      · rintro ⟨⟩
      · rintro (_ | _ | _)
        exact absurd written (none_written _)
  | text none_written =>
    cases right with
    | int j =>
      constructor
      · rintro ⟨⟩
      · rintro (_ | written' | _)
        exact absurd written' (none_written _)
    | number written =>
      constructor
      · rintro ⟨⟩
      · rintro (_ | _ | _)
        exact absurd written (none_written _)
    | text none_written' =>
      constructor
      · rintro ⟨⟩
        exact .same _
      · rintro (_ | _ | _)
        rfl

theorem not_identified_minusZero (proper : b ≠ .string minusZero) : ¬ Identified cfg (.string minusZero) b := by
  rintro (_ | written | _)
  · exact proper rfl
  · exact not_writes_minusZero cfg _ written

/-- "-0" addresses the element under 0. -/
theorem sameElement_minusZero (proper : b ≠ .string minusZero) :
    SameElement cfg truncate emptyKey (.string minusZero) b ↔ Identified cfg b (.int 0) := by
  obtain ⟨l, right, address⟩ := exists_address cfg truncate emptyKey proper
  have left := normalizeKey_minusZero cfg truncate emptyKey
  have found : SameElement cfg truncate emptyKey (.string minusZero) b ↔ Key.int 0 = l :=
    sameElement_iff cfg truncate emptyKey left right
  rw [found, ← address.eq_iff cfg (Address.int 0), eq_comm]

/-- **A string is an integer key exactly when it is the text of the integer**, "-0" excepted, which
addresses the element under 0. -/
theorem canonical_keys_iff : (∀ s, Canonical cfg truncate emptyKey s ↔ s ≠ minusZero) ∧
      ∀ a b, (SameElement cfg truncate emptyKey a b ↔ Identified cfg a b) ↔ ¬ Collide cfg a b := by
  refine ⟨canonical_iff_ne cfg truncate emptyKey, fun a b => ?_⟩
  by_cases left : a = .string minusZero
  · subst left
    by_cases right : b = .string minusZero
    · subst right
      have zero : normalizeKey cfg truncate emptyKey (Key.asValue (.string minusZero)) = some (.int 0) :=
        normalizeKey_minusZero cfg truncate emptyKey
      have same : SameElement cfg truncate emptyKey (.string minusZero) (.string minusZero) :=
        (sameElement_iff cfg truncate emptyKey zero zero).mpr rfl
      have apart : ¬ Identified cfg (.string minusZero) (.int 0) := not_identified_minusZero cfg fun h => by cases h
      refine iff_of_true (iff_of_true same (.same _)) ?_
      rintro (⟨-, zero⟩ | ⟨-, zero⟩)
      · exact apart zero
      · exact apart zero
    · have other : ¬ Identified cfg (.string minusZero) b := not_identified_minusZero cfg right
      rw [sameElement_minusZero cfg truncate emptyKey right, iff_false_right other]
      refine not_congr ⟨fun zero => .inl ⟨rfl, zero⟩, ?_⟩
      rintro (⟨-, zero⟩ | ⟨same, -⟩)
      · exact zero
      · exact absurd same right
  · by_cases right : b = .string minusZero
    · subst right
      have other : ¬ Identified cfg a (.string minusZero) :=
        fun same => not_identified_minusZero cfg left (same.symm cfg)
      have swap : SameElement cfg truncate emptyKey a (.string minusZero) ↔
          SameElement cfg truncate emptyKey (.string minusZero) a :=
        ⟨fun h => h.symm cfg truncate emptyKey, fun h => h.symm cfg truncate emptyKey⟩
      rw [swap, sameElement_minusZero cfg truncate emptyKey left, iff_false_right other]
      refine not_congr ⟨fun zero => .inr ⟨rfl, zero⟩, ?_⟩
      rintro (⟨same, -⟩ | ⟨-, zero⟩)
      · exact absurd same left
      · exact zero
    · obtain ⟨k, fromLeft, addressLeft⟩ := exists_address cfg truncate emptyKey left
      obtain ⟨l, fromRight, addressRight⟩ := exists_address cfg truncate emptyKey right
      refine iff_of_true ?_ ?_
      · rw [sameElement_iff cfg truncate emptyKey fromLeft fromRight]
        exact addressLeft.eq_iff cfg addressRight
      · rintro (⟨same, -⟩ | ⟨same, -⟩)
        · exact left same
        · exact right same

end Normalize

/-- The element under 0 is found under "-0", though 0 is not written so. -/
theorem minusZero_not_canonical : ¬ Canonical ⟨true, true, true, true, true⟩ (fun _ => none) true minusZero ∧
      SameElement ⟨true, true, true, true, true⟩ (fun _ => none) true (.string minusZero) (.int 0) ∧
      ¬ Identified ⟨true, true, true, true, true⟩ (.string minusZero) (.int 0) := by
  refine ⟨fun canonical => ?_, ?_, ?_⟩
  · exact not_writes_minusZero _ 0 ((canonical.int 0).mp (normalizeKey_minusZero _ _ _))
  · exact ⟨.int 0, .int 0, normalizeKey_minusZero _ _ _, rfl, keysEqual_iff.mpr rfl⟩
  · exact not_identified_minusZero _ fun h => by cases h

end PhpPico
