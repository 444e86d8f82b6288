import PhpPico.Compiler.Generator
import PhpPico.Compiler.Reads
import PhpPico.Value.Digits

/-!
# Integer literals

The lexer and the code generator read a literal independently. The lexer lets through digits of a base with single
separators, and the code generator reads their value, but for literals that begin with a zero: these are octal only
where a digit follows at once, and their digits are not checked.
-/

namespace PhpPico.Compiler
open List
open Value (denoted digitValue)

/-! ## What a literal denotes -/

/-- A digit of a base. -/
def IsDigitOf (base : Nat) (c : UInt8) : Prop := ∃ digit, digitValue c = some digit ∧ digit < base

/-- Digits of a base, with single separators between them. -/
inductive Separated (base : Nat) : List UInt8 → Prop
  | one {c : UInt8} (digit : IsDigitOf base c) : Separated base [c]
  | digit {text : List UInt8} {c : UInt8} (front : Separated base text) (digit : IsDigitOf base c) :
      Separated base (text ++ [c])
  | separator {text : List UInt8} {c : UInt8} (front : Separated base text) (digit : IsDigitOf base c) :
      Separated base (text ++ [95, c])

/-- The base of an integer literal, and its digits: behind a prefix, octal behind a zero, and decimal otherwise. -/
def literalDigits : List UInt8 → Nat × List UInt8
  | 48 :: c :: digits =>
    match Lexer.prefixBase c with
    | some base => (base, digits)
    | none => (8, 48 :: c :: digits)
  | text => (10, text)

/-- The integer an integer literal denotes. -/
def Denotes (text : List UInt8) (n : Nat) : Prop :=
  Separated (literalDigits text).1 (literalDigits text).2 ∧
    denoted (literalDigits text).1 (literalDigits text).2 0 = some n

/-! ## What it is compiled to -/

section Constants
variable (cfg : Config)

/-- `parse_integer_float_token`. -/
def parseIntegerFloatToken (token : Token) : Value.PFloat cfg :=
  Value.pphpIntegerDigitsToFloat cfg (integerTokenPrefix token.text).1 (integerTokenPrefix token.text).2

/-- The number an instruction loads. -/
def Code.loads : Code → Option (Value.PValue cfg)
  | .byte .loadI8 operand => some (.int operand)
  | .loadI32 value => some (.int value)
  | .loadConst (.int value) => some (.int value)
  | .loadConst (.integerFloat token) => some (.float (parseIntegerFloatToken cfg token))
  | _ => none

/-- The literal is compiled to an instruction that loads the number. -/
def Compiles (token : Token) (number : Value.PValue cfg) : Prop :=
  ∀ s, ∃ i, (emitInteger cfg token).run s = .ok ((), { s with code := s.code ++ [i] }) ∧ i.loads cfg = some number

/-- The literal is rejected. -/
def Rejected (token : Token) : Prop := ∀ s, ∃ message, (emitInteger cfg token).run s = .error message

/-- The rule for what does not fit: the nearest float where there are floats, and no program otherwise. -/
def CompiledAs (token : Token) (n : Nat) : Prop :=
  if n ≤ intMaximum cfg then Compiles cfg token (.int n)
  else if cfg.enableFloat then
    ∃ bits, Ieee.Rounds cfg.floatWidth (Value.fractionBits cfg) false n bits ∧ Compiles cfg token (.float bits)
  else Rejected cfg token

/-- A literal is compiled to what it denotes, and rejected if it denotes nothing. -/
def LiteralLaw (token : Token) : Prop :=
  (∀ n, Denotes token.text n → CompiledAs cfg token n) ∧ ((∀ n, ¬ Denotes token.text n) → Rejected cfg token)

/-! ## Where a zero comes first -/

/-- The number digits make up, whatever their base: `8` counts as eight in octal digits, too. -/
def weigh (base : Nat) : List UInt8 → Nat → Nat
  | [], n => n
  | c :: rest, n => if c = 95 then weigh base rest n else weigh base rest (n * base + integerTokenDigit c)

/-- Two integers lead to the same constant. -/
def SameConstant (n m : Nat) : Prop :=
  n = m ∨ intMaximum cfg < n ∧ intMaximum cfg < m ∧ (cfg.enableFloat = true →
    ∃ bits, Ieee.Rounds cfg.floatWidth (Value.fractionBits cfg) false n bits ∧
      Ieee.Rounds cfg.floatWidth (Value.fractionBits cfg) false m bits)

/-- Behind a zero, eights are read only where an octal digit follows at once. -/
def zeroBase : List UInt8 → Nat
  | 48 :: c :: _ => if 48 ≤ c ∧ c ≤ 55 then 8 else 10
  | _ => 10

/-- No digit is an eight or a nine. -/
def OctalOnly (text : List UInt8) : Prop := ∀ c ∈ text, c ≠ 56 ∧ c ≠ 57

/-- A literal without a prefix that begins with a zero is read as it should be: octal digits follow the zero at once,
or octal and decimal digits lead to the same constant; or it has others, and is too large for a build without floats.
-/
def ZeroRead (text : List UInt8) : Prop :=
  (OctalOnly text → text[1]? ≠ some 95 ∨ SameConstant cfg (weigh 8 text 0) (weigh 10 text 0)) ∧
    (¬ OctalOnly text → cfg.enableFloat = false ∧ intMaximum cfg < weigh (zeroBase text) text 0)

/-- A literal begins with a zero, has more digits, and no prefix. -/
def ZeroFirst : List UInt8 → Prop
  | 48 :: c :: _ => Lexer.prefixBase c = none
  | _ => False

end Constants

/-! ## Digits -/

section Digits
variable {base : Nat} {text : List UInt8}

theorem denoted_append (base : Nat) (front back : List UInt8) (n : Nat) :
    denoted base (front ++ back) n = (denoted base front n).bind (denoted base back) := by
  induction front generalizing n with
  | nil => rfl
  | cons c rest ih =>
    rw [cons_append, denoted, denoted]
    split
    · exact ih n
    · cases (digitValue c).filter fun digit => decide (digit < base) with
      | none => rfl
      | some digit => exact ih (n * base + digit)

theorem denoted_digit {c : UInt8} (digit : IsDigitOf base c) (n : Nat) : ∃ m, denoted base [c] n = some m := by
  obtain ⟨value, found, small⟩ := digit
  have no_separator : c ≠ 95 := by
    rintro rfl
    cases found
  refine ⟨n * base + value, ?_⟩
  rw [denoted, if_neg no_separator, found, Option.filter_some, decide_eq_true small]
  rfl

theorem Separated.denotes (h : Separated base text) (n : Nat) : ∃ m, denoted base text n = some m := by
  induction h with
  | one digit => exact denoted_digit digit n
  | digit front digit ih =>
    obtain ⟨k, first⟩ := ih
    rw [denoted_append, first]
    exact denoted_digit digit k
  | separator front digit ih =>
    obtain ⟨k, first⟩ := ih
    rw [denoted_append, first]
    exact denoted_digit digit k

theorem Separated.mem (h : Separated base text) : ∀ c ∈ text, c = 95 ∨ IsDigitOf base c := by
  induction h with
  | one digit => exact fun c listed => .inr (mem_singleton.mp listed ▸ digit)
  | digit front digit ih =>
    intro c listed
    rcases mem_append.mp listed with old | new
    · exact ih c old
    · exact .inr (mem_singleton.mp new ▸ digit)
  | separator front digit ih =>
    intro c listed
    rcases mem_append.mp listed with old | new
    · exact ih c old
    · rcases mem_cons.mp new with rfl | new
      · exact .inl rfl
      · exact .inr (mem_singleton.mp new ▸ digit)

theorem Separated.change {base' : Nat} (h : Separated base text)
    (digits : ∀ c ∈ text, IsDigitOf base c → IsDigitOf base' c) : Separated base' text := by
  induction h with
  | one digit => exact .one (digits _ (.head _) digit)
  | digit front digit ih =>
    exact .digit (ih fun c listed => digits c (mem_append_left _ listed))
      (digits _ (mem_append_right _ (.head _)) digit)
  | separator front digit ih =>
    exact .separator (ih fun c listed => digits c (mem_append_left _ listed))
      (digits _ (mem_append_right _ (.tail _ (.head _))) digit)

/-- The code generator's digits are those of the literal. -/
theorem integerTokenDigit_eq {c : UInt8} {digit : Nat} (found : digitValue c = some digit) :
    integerTokenDigit c = digit := by
  have same : integerTokenDigit c = Value.integerFloatDigit c := rfl
  rw [same, Value.integerFloatDigit_eq found]

theorem weigh_of_denoted {n m : Nat} (h : denoted base text n = some m) : weigh base text n = m := by
  induction text generalizing n with
  | nil => exact Option.some.inj h
  | cons c rest ih =>
    rw [denoted] at h
    rw [weigh]
    by_cases separator : c = 95
    · rw [if_pos separator] at h ⊢
      exact ih h
    · rw [if_neg separator] at h ⊢
      obtain ⟨digit, found, next⟩ := Option.bind_eq_some_iff.mp h
      obtain ⟨found, -⟩ := Option.filter_eq_some_iff.mp found
      rw [integerTokenDigit_eq found]
      exact ih next

theorem le_weigh (positive : 0 < base) (text : List UInt8) (n : Nat) : n ≤ weigh base text n := by
  induction text generalizing n with
  | nil => exact le_rfl
  | cons c rest ih =>
    rw [weigh]
    split
    · exact ih n
    · exact ((Nat.le_mul_of_pos_right n positive).trans (Nat.le_add_right _ _)).trans (ih _)

theorem integerTokenDigit_lt (c : UInt8) : integerTokenDigit c < 2 ^ 64 := by
  have := c.toNat_lt
  unfold integerTokenDigit
  split
  · omega
  · split <;> omega

theorem parseIntegerDigits_overflowed (base : Nat) (text : List UInt8) (value : Nat) :
    (parseIntegerDigits base text value true).2 = true := by
  induction text generalizing value with
  | nil => rfl
  | cons c rest ih =>
    rw [parseIntegerDigits]
    split
    · exact ih value
    · dsimp only
      split
      · exact ih value
      · exact ih _

/-- **The loop reads what the digits make up**, unless that is beyond 64 bits. -/
theorem parseIntegerDigits_eq (positive : 0 < base) (text : List UInt8) {value : Nat} (fits : value < 2 ^ 64) :
    (weigh base text value < 2 ^ 64 → parseIntegerDigits base text value false = (weigh base text value, false)) ∧
      (2 ^ 64 ≤ weigh base text value → (parseIntegerDigits base text value false).2 = true) := by
  induction text generalizing value with
  | nil => exact ⟨fun _ => rfl, fun beyond => absurd fits (not_lt.mpr beyond)⟩
  | cons c rest ih =>
    rw [parseIntegerDigits, weigh]
    by_cases separator : c = 95
    · rw [if_pos separator, if_pos separator]
      exact ih fits
    · rw [if_neg separator, if_neg separator]
      have digit := integerTokenDigit_lt c
      have guard : (2 ^ 64 - 1 - integerTokenDigit c) / base < value ↔ 2 ^ 64 ≤ value * base + integerTokenDigit c := by
        rw [Nat.div_lt_iff_lt_mul positive]
        omega
      by_cases overflows : (2 ^ 64 - 1 - integerTokenDigit c) / base < value
      · rw [if_pos overflows]
        have beyond := (guard.mp overflows).trans (le_weigh positive rest _)
        exact ⟨fun within => absurd within (not_lt.mpr beyond), fun _ => parseIntegerDigits_overflowed _ _ _⟩
      · rw [if_neg overflows]
        exact ih (Nat.lt_of_not_le fun beyond => overflows (guard.mpr beyond))

end Digits

/-! ## Constants -/

section Emission
variable {cfg : Config} {token : Token}

variable {number : Value.PValue cfg}

theorem Compiles.unique {number' : Value.PValue cfg} (h : Compiles cfg token number)
    (h' : Compiles cfg token number') : number = number' := by
  obtain ⟨i, ran, loads⟩ := h ⟨[], 0⟩
  obtain ⟨i', ran', loads'⟩ := h' ⟨[], 0⟩
  have same := ran.symm.trans ran'
  injection same with same
  injection same with _ same
  injection same with same _
  obtain rfl : i = i' := by simpa using same
  exact Option.some.inj (loads.symm.trans loads')

theorem Compiles.not_rejected (h : Compiles cfg token number) : ¬ Rejected cfg token := by
  intro rejected
  obtain ⟨i, ran, -⟩ := h ⟨[], 0⟩
  obtain ⟨message, failed⟩ := rejected ⟨[], 0⟩
  rw [ran] at failed
  cases failed

theorem compiles_of_emit {i : Code} (code : emitInteger cfg token = emit i)
    (loads : i.loads cfg = some number) : Compiles cfg token number := by
  intro s
  rw [code]
  exact ⟨i, rfl, loads⟩

theorem rejected_of_failWith {message : List UInt8} (code : emitInteger cfg token = failWith message) :
    Rejected cfg token := by
  intro s
  rw [code]
  exact ⟨message, rfl⟩

theorem intMaximum_lt (cfg : Config) : intMaximum cfg < 2 ^ 64 := by
  unfold intMaximum Config.intWidth
  split <;> decide

theorem integerTokenPrefix_bases (text : List UInt8) :
    2 ≤ (integerTokenPrefix text).2 ∧ (integerTokenPrefix text).2 ≤ 16 := by
  unfold integerTokenPrefix
  split
  case h_7 => split <;> exact ⟨by dsimp only; omega, by dsimp only; omega⟩
  all_goals exact ⟨by dsimp only; omega, by dsimp only; omega⟩

/-- The number the code generator reads. -/
def numberOf (token : Token) : Nat := weigh (integerTokenPrefix token.text).2 (integerTokenPrefix token.text).1 0

/-- The code generator reads a number and follows the rule for what does not fit. -/
theorem emitInteger_number (cfg : Config) (token : Token) :
    (numberOf token ≤ intMaximum cfg → Compiles cfg token (.int (numberOf token))) ∧
      (intMaximum cfg < numberOf token → cfg.enableFloat = true →
        Compiles cfg token (.float (parseIntegerFloatToken cfg token))) ∧
      (intMaximum cfg < numberOf token → cfg.enableFloat = false → Rejected cfg token) := by
  have limit := intMaximum_lt cfg
  have start : 0 < 2 ^ 64 := by decide
  obtain ⟨within, beyond⟩ := parseIntegerDigits_eq (Nat.zero_lt_of_lt (integerTokenPrefix_bases token.text).1)
    (integerTokenPrefix token.text).1 start
  have parse : parseIntegerToken token =
      parseIntegerDigits (integerTokenPrefix token.text).2 (integerTokenPrefix token.text).1 0 false := rfl
  rw [← parse] at within beyond
  have number : weigh (integerTokenPrefix token.text).2 (integerTokenPrefix token.text).1 0 = numberOf token := rfl
  rw [number] at within beyond
  have code : emitInteger cfg token =
      if (parseIntegerToken token).2 then
        if cfg.enableFloat then emit (.loadConst (.integerFloat token))
        else failWith (ascii "integer literal is out of range")
      else if (parseIntegerToken token).1 ≤ 127 then emit (.byte .loadI8 (parseIntegerToken token).1)
      else if (parseIntegerToken token).1 ≤ 2 ^ 31 - 1 then emit (.loadI32 (parseIntegerToken token).1)
      else if (parseIntegerToken token).1 ≤ intMaximum cfg then emit (.loadConst (.int (parseIntegerToken token).1))
      else if cfg.enableFloat then emit (.loadConst (.integerFloat token))
      else if cfg.int64 then failWith (ascii "integer literal is out of range")
      else failWith (ascii "integer literal requires float support") := rfl
  have narrow : 2 ^ 31 - 1 ≤ intMaximum cfg := by
    unfold intMaximum Config.intWidth
    split <;> decide
  refine ⟨fun fits => ?_, fun large floats => ?_, fun large none => ?_⟩
  · rw [within (lt_of_le_of_lt fits limit)] at code
    rw [if_neg Bool.false_ne_true] at code
    by_cases byte : numberOf token ≤ 127
    · rw [if_pos byte] at code
      exact compiles_of_emit code rfl
    · rw [if_neg byte] at code
      by_cases word : numberOf token ≤ 2 ^ 31 - 1
      · rw [if_pos word] at code
        exact compiles_of_emit code rfl
      · rw [if_neg word, if_pos fits] at code
        exact compiles_of_emit code rfl
  · by_cases inside : numberOf token < 2 ^ 64
    · rw [within inside] at code
      rw [if_neg Bool.false_ne_true, if_neg (by omega), if_neg (by omega), if_neg (by omega), if_pos floats] at code
      exact compiles_of_emit code rfl
    · rw [if_pos (beyond (Nat.le_of_not_lt inside)), if_pos floats] at code
      exact compiles_of_emit code rfl
  · have no_floats : ¬ cfg.enableFloat = true := fun some => by
      rw [none] at some
      cases some
    by_cases inside : numberOf token < 2 ^ 64
    · rw [within inside] at code
      rw [if_neg Bool.false_ne_true, if_neg (by omega), if_neg (by omega), if_neg (by omega), if_neg no_floats] at code
      by_cases wide : cfg.int64 = true
      · rw [if_pos wide] at code
        exact rejected_of_failWith code
      · rw [if_neg wide] at code
        exact rejected_of_failWith code
    · rw [if_pos (beyond (Nat.le_of_not_lt inside)), if_neg no_floats] at code
      exact rejected_of_failWith code

/-- The literal is rejected exactly where its number is too large for a build without floats. -/
theorem rejected_iff (cfg : Config) (token : Token) :
    Rejected cfg token ↔ cfg.enableFloat = false ∧ intMaximum cfg < numberOf token := by
  obtain ⟨fits, floats, none⟩ := emitInteger_number cfg token
  refine ⟨fun rejected => ?_, fun h => none h.2 h.1⟩
  by_cases inside : numberOf token ≤ intMaximum cfg
  · exact absurd rejected (fits inside).not_rejected
  · cases enabled : cfg.enableFloat with
    | true => exact absurd rejected (floats (Nat.lt_of_not_le inside) enabled).not_rejected
    | false => exact ⟨rfl, Nat.lt_of_not_le inside⟩

theorem compiledAs_iff (cfg : Config) (token : Token) (n : Nat)
    (nearest : Ieee.Rounds cfg.floatWidth (Value.fractionBits cfg) false (numberOf token)
      (parseIntegerFloatToken cfg token)) : CompiledAs cfg token n ↔ SameConstant cfg n (numberOf token) := by
  obtain ⟨fits, floats, none⟩ := emitInteger_number cfg token
  unfold CompiledAs SameConstant
  by_cases small : n ≤ intMaximum cfg
  · rw [if_pos small]
    constructor
    · intro compiled
      by_cases inside : numberOf token ≤ intMaximum cfg
      · have same := compiled.unique (fits inside)
        injection same with same
        exact .inl (by omega)
      · cases enabled : cfg.enableFloat with
        | true =>
          have same := compiled.unique (floats (Nat.lt_of_not_le inside) enabled)
          cases same
        | false => exact absurd (none (Nat.lt_of_not_le inside) enabled) compiled.not_rejected
    · rintro (rfl | ⟨large, -⟩)
      · exact fits small
      · omega
  · rw [if_neg small]
    cases enabled : cfg.enableFloat with
    | true =>
      rw [if_pos rfl]
      constructor
      · rintro ⟨bits, rounds, compiled⟩
        by_cases inside : numberOf token ≤ intMaximum cfg
        · have same := compiled.unique (fits inside)
          cases same
        · have same := compiled.unique (floats (Nat.lt_of_not_le inside) enabled)
          injection same with same
          rw [← same] at nearest
          exact .inr ⟨Nat.lt_of_not_le small, Nat.lt_of_not_le inside, fun _ => ⟨bits, rounds, nearest⟩⟩
      · rintro (rfl | ⟨-, large, both⟩)
        · exact ⟨_, nearest, floats (Nat.lt_of_not_le small) enabled⟩
        · obtain ⟨bits, rounds, rounds'⟩ := both rfl
          exact ⟨_, nearest.unique rounds' ▸ rounds, floats large enabled⟩
    | false =>
      rw [if_neg Bool.false_ne_true]
      constructor
      · intro rejected
        exact .inr ⟨Nat.lt_of_not_le small, ((rejected_iff cfg token).mp rejected).2, fun c => by cases c⟩
      · rintro (rfl | ⟨-, large, -⟩)
        · exact none (Nat.lt_of_not_le small) enabled
        · exact none large enabled

end Emission

/-! ## Spellings -/

/-- What the lexer lets through: digits behind a prefix, or decimal digits. -/
def Spelled (text : List UInt8) : Prop :=
  (∃ (c : UInt8) (base : Nat) (digits : List UInt8),
    text = 48 :: c :: digits ∧ Lexer.prefixBase c = some base ∧ Separated base digits) ∨ Separated 10 text

section Spellings
variable {cfg : Config} {token : Token}

variable {c : UInt8} {base : Nat}

theorem prefixBase_cases (h : Lexer.prefixBase c = some base) :
    base = 16 ∧ (c = 120 ∨ c = 88) ∨ base = 2 ∧ (c = 98 ∨ c = 66) ∨ base = 8 ∧ (c = 111 ∨ c = 79) := by
  unfold Lexer.prefixBase at h
  split at h
  · next hex =>
    simp only [Bool.or_eq_true, decide_eq_true_eq] at hex
    exact .inl ⟨(Option.some.inj h).symm, hex⟩
  · split at h
    · next binary =>
      simp only [Bool.or_eq_true, decide_eq_true_eq] at binary
      exact .inr (.inl ⟨(Option.some.inj h).symm, binary⟩)
    · split at h
      · next octal =>
        simp only [Bool.or_eq_true, decide_eq_true_eq] at octal
        exact .inr (.inr ⟨(Option.some.inj h).symm, octal⟩)
      · cases h

theorem integerTokenPrefix_prefix {digits : List UInt8}
    (h : Lexer.prefixBase c = some base) : integerTokenPrefix (48 :: c :: digits) = (digits, base) := by
  rcases prefixBase_cases h with ⟨rfl, rfl | rfl⟩ | ⟨rfl, rfl | rfl⟩ | ⟨rfl, rfl | rfl⟩ <;> rfl

theorem decimal_digit (h : IsDigitOf 10 c) : 48 ≤ c.toNat ∧ c.toNat ≤ 57 := by
  obtain ⟨digit, found, small⟩ := h
  unfold digitValue at found
  split at found
  · assumption
  · split at found
    · have := Option.some.inj found
      omega
    · split at found
      · have := Option.some.inj found
        omega
      · cases found

theorem prefixBase_none (h : c = 95 ∨ IsDigitOf 10 c) : Lexer.prefixBase c = none := by
  have numeral : c = 95 ∨ 48 ≤ c.toNat ∧ c.toNat ≤ 57 := h.imp_right decimal_digit
  cases found : Lexer.prefixBase c with
  | none => rfl
  | some base =>
    exfalso
    rcases prefixBase_cases found with ⟨-, rfl | rfl⟩ | ⟨-, rfl | rfl⟩ | ⟨-, rfl | rfl⟩ <;>
      exact absurd numeral (by decide)

theorem integerTokenPrefix_decimal {text : List UInt8} (decimal : Separated 10 text) (no_zero : ¬ ZeroFirst text) :
    integerTokenPrefix text = (text, 10) ∧ literalDigits text = (10, text) := by
  cases text with
  | nil => exact ⟨rfl, rfl⟩
  | cons first rest =>
    cases rest with
    | nil =>
      constructor
      · unfold integerTokenPrefix
        split <;> first | rfl | simp_all
      · unfold literalDigits
        split <;> first | rfl | simp_all
    | cons c rest =>
      have other : first ≠ 48 := by
        rintro rfl
        exact no_zero (prefixBase_none (decimal.mem c (.tail _ (.head _))))
      constructor
      · unfold integerTokenPrefix
        split <;> first | rfl | simp_all
      · unfold literalDigits
        split <;> first | rfl | simp_all

theorem parseIntegerFloatToken_nearest {n : Nat}
    (value : denoted (integerTokenPrefix token.text).2 (integerTokenPrefix token.text).1 0 = some n) :
    numberOf token = n ∧ Ieee.Rounds cfg.floatWidth (Value.fractionBits cfg) false (numberOf token)
      (parseIntegerFloatToken cfg token) := by
  have number : numberOf token = n := weigh_of_denoted value
  obtain ⟨two, sixteen⟩ := integerTokenPrefix_bases token.text
  rw [number]
  exact ⟨rfl, Value.integerDigits_nearest cfg two sixteen value⟩

theorem literalLaw_iff_same {n : Nat} (denotes : Denotes token.text n)
    (nearest : Ieee.Rounds cfg.floatWidth (Value.fractionBits cfg) false (numberOf token)
      (parseIntegerFloatToken cfg token)) : LiteralLaw cfg token ↔ SameConstant cfg n (numberOf token) := by
  constructor
  · intro law
    exact (compiledAs_iff cfg token n nearest).mp (law.1 n denotes)
  · intro same
    refine ⟨fun m denotes' => ?_, fun none => absurd denotes (none n)⟩
    obtain rfl : n = m := Option.some.inj (denotes.2.symm.trans denotes'.2)
    exact (compiledAs_iff cfg token n nearest).mpr same

theorem literalLaw_iff_rejected (nothing : ∀ n, ¬ Denotes token.text n) : LiteralLaw cfg token ↔ Rejected cfg token :=
  ⟨fun law => law.2 nothing, fun rejected => ⟨fun n denotes => absurd denotes (nothing n), fun _ => rejected⟩⟩

theorem literalLaw_of_same {digits : List UInt8} (read : integerTokenPrefix token.text = (digits, base))
    (same : literalDigits token.text = (base, digits)) (separated : Separated base digits) : LiteralLaw cfg token := by
  obtain ⟨n, value⟩ := separated.denotes 0
  have denotes : Denotes token.text n := by
    unfold Denotes
    rw [same]
    exact ⟨separated, value⟩
  have value' : denoted (integerTokenPrefix token.text).2 (integerTokenPrefix token.text).1 0 = some n := by
    rw [read]
    exact value
  obtain ⟨number, nearest⟩ : numberOf token = n ∧ Ieee.Rounds cfg.floatWidth (Value.fractionBits cfg) false
      (numberOf token) (parseIntegerFloatToken cfg token) := parseIntegerFloatToken_nearest value'
  rw [literalLaw_iff_same denotes nearest]
  exact .inl number.symm

/-- Behind a zero an octal digit makes the literal octal, and all else makes it decimal. -/
theorem integerTokenPrefix_zero (unprefixed : Lexer.prefixBase c = none) (rest : List UInt8) :
    integerTokenPrefix (48 :: c :: rest) = if 48 ≤ c ∧ c ≤ 55 then (c :: rest, 8) else (48 :: c :: rest, 10) := by
  have letters : ∀ letter base, Lexer.prefixBase letter = some base → c ≠ letter := by
    rintro letter base found rfl
    rw [unprefixed] at found
    cases found
  have x := letters 120 16 rfl
  have X := letters 88 16 rfl
  have b := letters 98 2 rfl
  have B := letters 66 2 rfl
  have o := letters 111 8 rfl
  have O := letters 79 8 rfl
  unfold integerTokenPrefix
  split <;> simp_all

theorem weigh_zero (base : Nat) (rest : List UInt8) : weigh base (48 :: rest) 0 = weigh base rest 0 := by
  rw [weigh, if_neg (by decide), zero_mul]
  rfl

theorem denoted_zero (positive : 0 < base) (rest : List UInt8) : denoted base (48 :: rest) 0 = denoted base rest 0 := by
  have digit : (digitValue 48).filter (fun digit => decide (digit < base)) = some 0 := by
    rw [show digitValue 48 = some 0 from rfl, Option.filter_some, decide_eq_true positive]
    rfl
  rw [denoted, if_neg (by decide), digit, Option.bind_some, zero_mul]

theorem octal_digit (decimal : IsDigitOf 10 c) (not_eight : c ≠ 56) (not_nine : c ≠ 57) : IsDigitOf 8 c := by
  obtain ⟨low, high⟩ := decimal_digit decimal
  have eight : c.toNat ≠ 56 := fun same => not_eight (UInt8.toNat_inj.mp same)
  have nine : c.toNat ≠ 57 := fun same => not_nine (UInt8.toNat_inj.mp same)
  refine ⟨c.toNat - 48, ?_, by omega⟩
  unfold digitValue
  rw [if_pos ⟨low, high⟩]

theorem literalLaw_iff_zeroRead {rest : List UInt8} (text : token.text = 48 :: c :: rest)
    (decimal : Separated 10 (48 :: c :: rest)) : LiteralLaw cfg token ↔ ZeroRead cfg (48 :: c :: rest) := by
  have unprefixed := prefixBase_none (decimal.mem c (.tail _ (.head _)))
  have read := integerTokenPrefix_zero unprefixed rest
  have digits : literalDigits (48 :: c :: rest) = (8, 48 :: c :: rest) := by rw [literalDigits, unprefixed]
  have number : numberOf token = weigh (zeroBase (48 :: c :: rest)) (48 :: c :: rest) 0 := by
    unfold numberOf
    rw [text, read, zeroBase]
    split
    · exact (weigh_zero 8 (c :: rest)).symm
    · rfl
  by_cases octal : OctalOnly (48 :: c :: rest)
  · have zero : ZeroRead cfg (48 :: c :: rest) ↔ (48 :: c :: rest : List UInt8)[1]? ≠ some 95 ∨
        SameConstant cfg (weigh 8 (48 :: c :: rest) 0) (weigh 10 (48 :: c :: rest) 0) :=
      ⟨fun read => read.1 octal, fun read => ⟨fun _ => read, fun other => absurd octal other⟩⟩
    rw [zero]
    have separated : Separated 8 (48 :: c :: rest) :=
      decimal.change fun x listed digit => octal_digit digit (octal x listed).1 (octal x listed).2
    obtain ⟨n, value⟩ := separated.denotes 0
    have denotes : Denotes token.text n := by
      unfold Denotes
      rw [text, digits]
      exact ⟨separated, value⟩
    have weighed : weigh 8 (48 :: c :: rest) 0 = n := weigh_of_denoted value
    have second : (48 :: c :: rest : List UInt8)[1]? = some c := rfl
    rw [second, weighed]
    by_cases separator : c = 95
    · -- decimal digits are read
      have tens : integerTokenPrefix token.text = (48 :: c :: rest, 10) := by
        rw [text, read, if_neg (by rw [separator]; decide)]
      obtain ⟨m, tenValue⟩ := decimal.denotes 0
      have value' : denoted (integerTokenPrefix token.text).2 (integerTokenPrefix token.text).1 0 = some m := by
        rw [tens]
        exact tenValue
      obtain ⟨same, nearest⟩ := parseIntegerFloatToken_nearest value'
      rw [literalLaw_iff_same denotes nearest, weigh_of_denoted tenValue, same, separator]
      exact ⟨fun h => .inr h, fun h => h.resolve_left fun other => other rfl⟩
    · -- a digit follows at once, and octal digits are read
      have digit : 48 ≤ c ∧ c ≤ 55 := by
        rcases decimal.mem c (.tail _ (.head _)) with same | digit
        · exact absurd same separator
        · obtain ⟨value, found, small⟩ := octal_digit digit
            (octal c (.tail _ (.head _))).1
            (octal c (.tail _ (.head _))).2
          have range := decimal_digit digit
          unfold digitValue at found
          rw [if_pos range] at found
          have := Option.some.inj found
          exact ⟨UInt8.le_iff_toNat_le.mpr range.1, UInt8.le_iff_toNat_le.mpr (by
            have : (55 : UInt8).toNat = 55 := rfl
            omega)⟩
      have eights : integerTokenPrefix token.text = (c :: rest, 8) := by rw [text, read, if_pos digit]
      have eight : 0 < 8 := by decide
      have value' : denoted (integerTokenPrefix token.text).2 (integerTokenPrefix token.text).1 0 = some n := by
        rw [eights]
        rw [← denoted_zero eight]
        exact value
      obtain ⟨same, nearest⟩ := parseIntegerFloatToken_nearest value'
      rw [literalLaw_iff_same denotes nearest, same]
      refine iff_of_true (.inl rfl) (.inl fun other => separator (Option.some.inj other))
  · have zero : ZeroRead cfg (48 :: c :: rest) ↔
        cfg.enableFloat = false ∧ intMaximum cfg < weigh (zeroBase (48 :: c :: rest)) (48 :: c :: rest) 0 :=
      ⟨fun read => read.2 octal, fun read => ⟨fun all => absurd all octal, fun _ => read⟩⟩
    rw [zero]
    have nothing : ∀ n, ¬ Denotes token.text n := by
      rintro n ⟨separated, -⟩
      rw [text, digits] at separated
      apply octal
      intro x listed
      constructor
      · rintro rfl
        rcases separated.mem 56 listed with impossible | ⟨value, found, small⟩
        · cases impossible
        · cases found
          have eight : ¬ (8 < 8) := by decide
          exact absurd small eight
      · rintro rfl
        rcases separated.mem 57 listed with impossible | ⟨value, found, small⟩
        · cases impossible
        · cases found
          have nine : ¬ (9 < 8) := by decide
          exact absurd small nine
    rw [literalLaw_iff_rejected nothing, rejected_iff, number]

/-- **The law for literals**: it holds but where a zero comes first and is not read as it should be. -/
theorem literalLaw_iff (spelled : Spelled token.text) :
    LiteralLaw cfg token ↔ (ZeroFirst token.text → ZeroRead cfg token.text) := by
  rcases spelled with ⟨c, base, digits, text, found, separated⟩ | decimal
  · have read : integerTokenPrefix token.text = (digits, base) := by
      rw [text]
      exact integerTokenPrefix_prefix found
    have same : literalDigits token.text = (base, digits) := by
      rw [text, literalDigits, found]
    refine iff_of_true (literalLaw_of_same read same separated) fun zero => ?_
    rw [text, ZeroFirst, found] at zero
    cases zero
  · by_cases zero : ZeroFirst token.text
    · obtain ⟨c, rest, text⟩ : ∃ c rest, token.text = 48 :: c :: rest := by
        unfold ZeroFirst at zero
        split at zero
        · next c rest text => exact ⟨c, rest, text⟩
        · exact absurd zero not_false
      rw [text] at decimal zero ⊢
      rw [literalLaw_iff_zeroRead text decimal]
      exact ⟨fun read _ => read, fun read => read zero⟩
    · obtain ⟨read, same⟩ := integerTokenPrefix_decimal decimal zero
      exact iff_of_true (literalLaw_of_same read same decimal) fun first => absurd first zero

end Spellings

/-! ## Scanning -/

namespace Lexer

variable {base start : Nat} {lexer : Lexer}

theorem isDigitOf_of_base {c : UInt8} (digit : isDigitForBase c base = true) : IsDigitOf base c := by
  unfold isDigitForBase at digit
  unfold IsDigitOf digitValue
  split at digit
  · next numeral =>
    rw [Bool.and_eq_true, decide_eq_true_eq, decide_eq_true_eq, UInt8.le_iff_toNat_le, UInt8.le_iff_toNat_le] at numeral
    exact ⟨_, if_pos numeral, of_decide_eq_true digit⟩
  · next no_numeral =>
    split at digit
    · next letter =>
      obtain rfl : base = 16 := of_decide_eq_true digit
      simp only [Bool.or_eq_true, Bool.and_eq_true, decide_eq_true_eq, UInt8.le_iff_toNat_le] at letter no_numeral
      have bytes : (97 : UInt8).toNat = 97 ∧ (102 : UInt8).toNat = 102 ∧ (65 : UInt8).toNat = 65 ∧
        (70 : UInt8).toNat = 70 := ⟨rfl, rfl, rfl, rfl⟩
      obtain ⟨a, f, A, F⟩ := bytes
      rw [a, f, A, F] at letter
      refine (if_neg no_numeral ▸ ?_)
      rcases letter with low | high
      · exact ⟨c.toNat - 87, if_pos low, by omega⟩
      · exact ⟨c.toNat - 55, by rw [if_neg (by omega), if_pos high], by omega⟩
    · cases digit

theorem slice_congr {lexer' : Lexer} (same : lexer'.source = lexer.source) (start stop : Nat) :
    lexer'.slice start stop = lexer.slice start stop := by
  unfold slice byteAt
  rw [same]

theorem slice_succ (lexer : Lexer) {stop : Nat} (before : start ≤ stop) :
    lexer.slice start (stop + 1) = lexer.slice start stop ++ [lexer.byteAt stop] := by
  unfold slice
  rw [Nat.succ_sub before, range_succ, map_append, map_singleton, Nat.add_sub_of_le before]

theorem slice_cons (lexer : Lexer) {stop : Nat} (before : start < stop) :
    lexer.slice start stop = lexer.byteAt start :: lexer.slice (start + 1) stop := by
  unfold slice
  obtain ⟨n, rfl⟩ : ∃ n, stop = start + (n + 1) := ⟨stop - start - 1, by omega⟩
  rw [Nat.add_sub_cancel_left, range_succ_eq_map, map_cons, List.map_map, add_zero,
    show start + (n + 1) - (start + 1) = n by omega]
  congr 1
  apply map_congr_left
  intro i _
  rw [Function.comp_apply]
  congr 1
  omega

theorem advance_slice (lexer : Lexer) (before : start ≤ lexer.current) :
    lexer.advance.slice start lexer.advance.current = lexer.slice start lexer.current ++ [lexer.peek] := by
  rw [slice_congr lexer.advance_source, advance_current, slice_succ lexer before, peek]

/-- What the loop of `scan_digits` has read: digits, or digits and a separator that one more follows. -/
def Scanned (base start : Nat) (lexer : Lexer) : Bool → Prop
  | false => Separated base (lexer.slice start lexer.current)
  | true => lexer.atEnd = false ∧ isDigitForBase lexer.peek base = true ∧
      ∃ front, Separated base front ∧ lexer.slice start lexer.current = front ++ [95]

/-- **The loop lets digits through with single separators between them.** -/
theorem digitsFrom_separated (bytes count : Nat) {underscore : Bool} (enough : lexer.left ≤ bytes)
    (before : start ≤ lexer.current) (scanned : Scanned base start lexer underscore) :
    Separated base ((digitsFrom base bytes count underscore lexer).2.slice start
      (digitsFrom base bytes count underscore lexer).2.current) := by
  induction bytes generalizing count underscore lexer with
  | zero =>
    cases underscore with
    | false => exact scanned
    | true =>
      have inside := not_atEnd.mp scanned.1
      unfold left at enough
      omega
  | succ bytes ih =>
    have less : lexer.advance.left ≤ bytes := by
      unfold left at enough ⊢
      rw [advance_current, advance_source]
      omega
    have behind : start ≤ lexer.advance.current := by
      rw [advance_current]
      omega
    rw [digitsFrom]
    split
    · next ended =>
      cases underscore with
      | false => exact scanned
      | true =>
        rw [scanned.1] at ended
        cases ended
    · split
      · next digit =>
        apply ih (count + 1) less behind
        unfold Scanned
        rw [advance_slice lexer before]
        cases underscore with
        | false => exact .digit scanned (isDigitOf_of_base digit)
        | true =>
          obtain ⟨-, -, front, separated, text⟩ := scanned
          rw [text, append_assoc]
          exact .separator separated (isDigitOf_of_base digit)
      · next no_digit =>
        cases underscore with
        | true => exact absurd scanned.2.1 no_digit
        | false =>
          split
          · next separator =>
            simp only [Bool.and_eq_true, decide_eq_true_eq] at separator
            apply ih count less behind
            obtain ⟨⟨⟨⟨⟨is, -⟩, -⟩, -⟩, more⟩, next⟩ := separator
            refine ⟨?_, ?_, lexer.slice start lexer.current, scanned, ?_⟩
            · rw [not_atEnd, advance_current, advance_source]
              exact more
            · unfold peek byteAt
              rw [advance_current, advance_source]
              exact next
            · rw [advance_slice lexer before, is]
              rfl
          · exact scanned

theorem scanDigits_separated (before : start ≤ lexer.current)
    (scanned : Separated base (lexer.slice start lexer.current)) :
    Separated base ((lexer.scanDigits base).2.slice start (lexer.scanDigits base).2.current) :=
  digitsFrom_separated _ 0 le_rfl before scanned

theorem scanDigits_first (letter : isDigitForBase (lexer.byteAt (lexer.current - 1)) base = false)
    (some_digit : (lexer.scanDigits base).1 ≠ 0) :
    Separated base ((lexer.scanDigits base).2.slice lexer.current (lexer.scanDigits base).2.current) := by
  unfold scanDigits at some_digit ⊢
  generalize more : lexer.left = bytes at some_digit ⊢
  cases bytes with
  | zero => exact absurd rfl some_digit
  | succ bytes =>
    rw [digitsFrom, letter] at some_digit ⊢
    simp only [Bool.and_false, Bool.false_and, Bool.false_eq_true, if_false] at some_digit ⊢
    split at some_digit
    · exact absurd rfl some_digit
    · split at some_digit
      · next inside digit =>
        rw [if_neg inside, if_pos digit]
        apply digitsFrom_separated
        · unfold left at more ⊢
          rw [advance_current, advance_source]
          omega
        · rw [advance_current]
          omega
        · unfold Scanned
          rw [advance_slice lexer (le_refl _), slice, Nat.sub_self]
          exact .one (isDigitOf_of_base digit)
      · exact absurd rfl some_digit

theorem scanExponent_none (no_exponent : lexer.scanExponent.1 = false) :
    lexer.scanExponent.2.current = lexer.current := by
  unfold scanExponent at no_exponent ⊢
  split at no_exponent
  · next h =>
    rw [if_pos h]
    dsimp only at no_exponent ⊢
    split at no_exponent
    · next none => rw [if_pos none]
    · cases no_exponent
  · next h => rw [if_neg h]

/-- An integer literal is spelled as it should be. -/
def Whole (result : Token × Lexer) : Prop := result.1.type = .tInteger → Spelled result.1.text

theorem whole_of_ne {result : Token × Lexer} (other : result.1.type ≠ .tInteger) : Whole result :=
  fun integer => absurd integer other

theorem whole_ite {condition : Prop} [Decidable condition] {yes no : Token × Lexer} (hy : condition → Whole yes)
    (hn : ¬ condition → Whole no) : Whole (if condition then yes else no) := by
  split
  · next h => exact hy h
  · next h => exact hn h

theorem scanFraction_whole {isFloat : Bool}
    (digits : isFloat = false → Separated 10 (lexer.slice start lexer.current)) :
    Whole (lexer.scanFraction start isFloat) := by
  intro integer
  unfold scanFraction at integer ⊢
  dsimp only at integer ⊢
  generalize (!lexer.atEnd && lexer.peek = '.'.toUInt8 && lexer.peekNext ≠ '.'.toUInt8) = fraction at integer ⊢
  cases fraction with
  | true =>
    rw [Bool.or_true, Bool.true_or] at integer
    cases integer
  | false =>
    rw [if_neg Bool.false_ne_true] at integer ⊢
    unfold makeToken at integer ⊢
    split at integer
    · cases integer
    · next no_float =>
      simp only [Bool.or_false, Bool.or_eq_true, not_or, Bool.not_eq_true] at no_float
      rw [slice_congr (scanExponent_reads lexer).source, scanExponent_none no_float.2]
      exact .inr (digits no_float.1)

/-- **A number that is an integer is spelled as it should be.** -/
theorem scanNumber_whole {leadingDot : Bool} (behind : lexer.current = start + 1)
    (digit : leadingDot = false → IsDigitOf 10 (lexer.byteAt start)) : Whole (lexer.scanNumber start leadingDot) := by
  unfold scanNumber
  dsimp only
  split
  · next base found =>
    split at found
    · next zero =>
      simp only [Bool.and_eq_true, decide_eq_true_eq] at zero
      have letter : isDigitForBase (lexer.advance.byteAt (lexer.advance.current - 1)) base = false := by
        unfold byteAt
        rw [advance_source, advance_current, Nat.add_sub_cancel]
        change isDigitForBase lexer.peek base = false
        rcases prefixBase_cases found with ⟨rfl, is | is⟩ | ⟨rfl, is | is⟩ | ⟨rfl, is | is⟩ <;> rw [is] <;> decide
      apply whole_ite
      · intro _
        exact whole_of_ne fun error => by cases error
      · intro some_digit _
        have digits := scanDigits_first letter some_digit
        have reads := scanDigits_reads lexer.advance base
        have moved := reads.current
        rw [advance_current] at moved digits
        have text : (lexer.advance.scanDigits base).2.slice start (lexer.advance.scanDigits base).2.current =
            48 :: lexer.peek :: (lexer.advance.scanDigits base).2.slice (lexer.current + 1)
              (lexer.advance.scanDigits base).2.current := by
          have source : (lexer.advance.scanDigits base).2.source = lexer.source := by
            rw [reads.source, advance_source]
          rw [slice_cons _ (by omega), slice_cons _ (by omega), ← behind]
          unfold peek byteAt
          rw [source]
          congr 1
          exact zero.1.2
        exact .inl ⟨_, base, _, text, found, digits⟩
    · cases found
  · apply scanFraction_whole
    intro integer
    have first : lexer.slice start lexer.current = [lexer.byteAt start] := by
      rw [behind, slice_succ lexer (le_refl _), slice, Nat.sub_self]
      rfl
    apply scanDigits_separated (by omega)
    rw [first]
    exact .one (digit integer)

/-! ## The next token -/

theorem identifierType_ne (text : List UInt8) : identifierType text ≠ .tInteger := by
  have keyword : ∀ keyword ∈ keywords, keyword.2 ≠ .tInteger := by decide +kernel
  unfold identifierType
  split
  · next found => exact keyword _ (mem_of_find?_eq_some found)
  · decide

theorem makeToken_whole (lexer : Lexer) {type : TokenType} (other : type ≠ .tInteger) (start : Nat) :
    Whole (lexer.makeToken type start) := whole_of_ne other

theorem errorToken_whole (lexer : Lexer) (start : Nat) (message : List UInt8) :
    Whole (lexer.errorToken start message) := makeToken_whole _ (by decide) start

theorem makeEither_whole (lexer : Lexer) (expected : UInt8) {yes no : TokenType} (hy : yes ≠ .tInteger)
    (hn : no ≠ .tInteger) (start : Nat) : Whole (lexer.makeEither expected yes no start) := by
  unfold makeEither
  exact whole_ite (fun _ => makeToken_whole _ hy start) (fun _ => makeToken_whole _ hn start)

theorem scanPlain_whole (lexer : Lexer) (start : Nat) (quote : UInt8) : Whole (lexer.scanPlain start quote) := by
  unfold scanPlain
  refine whole_ite (fun _ => makeToken_whole _ ?_ start) (fun _ => errorToken_whole _ start _)
  split <;> decide

theorem scanQuoted_whole (lexer : Lexer) (start : Nat) (quote : UInt8) : Whole (lexer.scanQuoted start quote) := by
  unfold scanQuoted
  split
  · split
    · exact errorToken_whole _ start _
    · exact whole_ite (fun _ => makeToken_whole _ (by decide) start) (fun _ => scanPlain_whole lexer start quote)
  · exact scanPlain_whole lexer start quote

theorem scanBody_whole (lexer : Lexer) (start : Nat) (label : List UInt8) (nowdoc : Bool) :
    Whole (lexer.scanBody start label nowdoc) := by
  unfold scanBody
  refine whole_ite (fun _ => whole_ite (fun _ => makeToken_whole _ ?_ start) fun _ => errorToken_whole _ start _)
    (fun _ => errorToken_whole _ start _)
  cases nowdoc <;> decide

theorem scanHeredoc_whole (lexer : Lexer) (start : Nat) : Whole (lexer.scanHeredoc start) := by
  unfold scanHeredoc
  refine whole_ite (fun _ => errorToken_whole _ start _) fun _ =>
    whole_ite (fun _ => errorToken_whole _ start _) fun _ => ?_
  split
  · exact scanBody_whole _ start _ false
  · exact whole_ite (fun _ => scanBody_whole _ start _ _) fun _ => errorToken_whole _ start _

theorem scanOperator_whole (lexer : Lexer) (start : Nat) (value : UInt8) : Whole (lexer.scanOperator start value) := by
  unfold scanOperator
  repeat' first
    | with_reducible exact makeToken_whole _ (by decide) _
    | with_reducible exact makeEither_whole _ _ (by decide) (by decide) _
    | with_reducible exact errorToken_whole _ _ _
    | with_reducible refine whole_ite (fun _ => ?_) (fun _ => ?_)

theorem scanToken_whole {value : UInt8} (behind : lexer.current = start + 1)
    (first : lexer.byteAt start = value) : Whole (lexer.scanToken start value) := by
  unfold scanToken
  refine whole_ite (fun _ => makeToken_whole _ (identifierType_ne _) start) fun _ => ?_
  refine whole_ite (fun numeral => scanNumber_whole behind fun _ => ?_) fun _ => ?_
  · rw [first]
    apply isDigitOf_of_base
    rw [Bool.and_eq_true, decide_eq_true_eq, decide_eq_true_eq] at numeral
    have high := UInt8.le_iff_toNat_le.mp numeral.2
    have nine : (57 : UInt8).toNat = 57 := rfl
    unfold isDigitForBase
    rw [decide_eq_true numeral.1, decide_eq_true numeral.2, Bool.and_true, if_pos rfl]
    exact decide_eq_true (by omega)
  · refine whole_ite (fun _ => scanNumber_whole behind fun no_dot => by cases no_dot) fun _ => ?_
    refine whole_ite (fun _ => whole_ite (fun _ => makeToken_whole _ (by decide) start)
      fun _ => errorToken_whole lexer start _) fun _ => ?_
    refine whole_ite (fun _ => scanQuoted_whole lexer start value) fun _ => ?_
    exact whole_ite (fun _ => scanHeredoc_whole _ start) fun _ => scanOperator_whole lexer start value

theorem lexByte_whole {value : UInt8} (behind : lexer.current = start + 1)
    (first : lexer.byteAt start = value) : Whole (lexer.lexByte start value) := by
  unfold lexByte
  refine whole_ite (fun _ => whole_ite (fun _ => makeToken_whole _ (by decide) start) fun _ => ?_)
    fun _ => scanToken_whole behind first
  refine whole_ite (fun _ => scanToken_whole behind first) fun _ => ?_
  exact whole_ite (fun _ => scanToken_whole behind first) fun _ => scanToken_whole behind first

theorem lexProgram_whole (lexer : Lexer) : Whole lexer.lexProgram := by
  unfold lexProgram
  refine whole_ite (fun _ => whole_of_ne fun error => by cases error) fun _ => ?_
  refine whole_ite (fun _ => makeToken_whole _ (by decide) _) fun _ => ?_
  refine whole_ite (fun _ => makeToken_whole _ (by decide) _) fun _ => ?_
  refine whole_ite (fun _ => makeToken_whole _ (by decide) _) fun _ => ?_
  refine whole_ite (fun _ => makeToken_whole _ (by decide) _) fun _ => ?_
  apply lexByte_whole
  · rw [advance_current]
  · unfold byteAt peek byteAt
    rw [advance_source]

theorem lexInterpolation_whole (lexer : Lexer) : Whole lexer.lexInterpolation := by
  unfold lexInterpolation
  refine whole_ite (fun _ => makeToken_whole _ (by decide) _) fun _ => ?_
  refine whole_ite (fun _ => ?_) fun _ =>
    whole_ite (fun _ => makeToken_whole _ (by decide) _) fun _ => makeToken_whole _ (by decide) _
  split
  · exact makeToken_whole _ (by decide) _
  · exact makeToken_whole _ (by decide) _

/-- **Every integer literal of the lexer is spelled as it should be.** -/
theorem pcLexerNext_whole (lexer : Lexer) : Whole lexer.pcLexerNext := by
  unfold pcLexerNext lexCode
  refine whole_ite (fun _ => lexInterpolation_whole lexer) fun _ => ?_
  refine whole_ite (fun _ => makeToken_whole _ (by decide) _) fun _ => ?_
  exact whole_ite (fun _ => makeToken_whole _ (by decide) _) fun _ => lexProgram_whole _

end Lexer

/-! ## The law -/

/-- **Integer literals denote their digits, but where a zero comes first**: a literal is compiled to the integer it
denotes, or to the nearest float, or rejected, exactly if it does not begin with a zero and more digits, or the number
read there leads to the same. -/
theorem integer_literals (cfg : Config) (lexer : Lexer) (integer : lexer.pcLexerNext.1.type = .tInteger) :
    LiteralLaw cfg lexer.pcLexerNext.1 ↔ (ZeroFirst lexer.pcLexerNext.1.text → ZeroRead cfg lexer.pcLexerNext.1.text) :=
  literalLaw_iff (Lexer.pcLexerNext_whole lexer integer)

/-- A build with 64-bit integers and floats. -/
def literalBuild : Config := ⟨true, true, true, false, false⟩

theorem integer_literals_hex :
    LiteralLaw literalBuild (pcLexerInit (ascii "0x1_F;") true).pcLexerNext.1 := by
  have text : (pcLexerInit (ascii "0x1_F;") true).pcLexerNext.1.text = [48, 120, 49, 95, 70] := by decide
  apply (integer_literals literalBuild (pcLexerInit (ascii "0x1_F;") true) (by decide)).mpr
  rw [text]
  intro unprefixed
  cases unprefixed

/-- `018` is the integer 16. -/
theorem eight_is_read_as_octal :
    (pcLexerInit (ascii "018;") true).pcLexerNext.1.type = .tInteger ∧
      Compiles literalBuild (pcLexerInit (ascii "018;") true).pcLexerNext.1 (.int 16) ∧
      ¬ LiteralLaw literalBuild (pcLexerInit (ascii "018;") true).pcLexerNext.1 := by
  have token : (pcLexerInit (ascii "018;") true).pcLexerNext.1 = ⟨.tInteger, 0, [48, 49, 56], 1, 1⟩ := by decide
  have compiled : Compiles literalBuild ⟨.tInteger, 0, [48, 49, 56], 1, 1⟩ (.int 16) :=
    compiles_of_emit (i := .byte .loadI8 16) rfl rfl
  rw [token]
  refine ⟨rfl, compiled, fun law => ?_⟩
  apply compiled.not_rejected
  apply law.2
  intro n denotes
  cases denotes.2

end PhpPico.Compiler
