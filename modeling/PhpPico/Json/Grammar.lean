import PhpPico.Json.Decode
import Mathlib.Data.List.TakeWhile

/-!
# The grammar of JSON

What a JSON text is, production by production, with its value. Strings hold any bytes from the blank on; surrogates
stand in pairs. How deep arrays and objects lie inside one another is bounded. A production read by a loop without
recursion comes with the fact that the loop reads it.
-/

namespace PhpPico.Json
open List
open Option (bind_eq_some_iff)

/-- The text in front of which a number ends. -/
def Ends (tail : List UInt8) : Prop :=
  ∀ byte ∈ tail.head?, ¬ IsDigit byte ∧ byte ≠ 46 ∧ byte ≠ 101 ∧ byte ≠ 69

/-! ## Blanks -/

/-- `ws`. -/
def Blank (ws : List UInt8) : Prop := ∀ byte ∈ ws, byte = 32 ∨ byte = 9 ∨ byte = 10 ∨ byte = 13

theorem isSpace_iff {byte : UInt8} : Parser.isSpace byte = true ↔ byte = 32 ∨ byte = 9 ∨ byte = 10 ∨ byte = 13 := by
  simp [Parser.isSpace, or_assoc]

theorem blank_nil : Blank [] := fun _ h => nomatch h

theorem Blank.append {l r : List UInt8} (hl : Blank l) (hr : Blank r) : Blank (l ++ r) := by
  intro byte h
  rcases mem_append.mp h with h | h
  · exact hl byte h
  · exact hr byte h

variable {tail input rest digits int text : List UInt8} {floating : Bool}

theorem dropWhile_blank {ws : List UInt8} (blank : Blank ws) (stop : ∀ byte ∈ tail.head?, Parser.isSpace byte = false) :
    (ws ++ tail).dropWhile Parser.isSpace = tail := by
  rw [dropWhile_append_of_pos fun byte h => isSpace_iff.mpr (blank byte h)]
  cases tail with
  | nil => rfl
  | cons byte tail =>
    apply dropWhile_cons_of_neg
    rw [stop byte rfl]
    exact Bool.false_ne_true

theorem exists_blank (input : List UInt8) : ∃ ws, Blank ws ∧ input = ws ++ input.dropWhile Parser.isSpace := by
  refine ⟨input.takeWhile Parser.isSpace, ?_, (takeWhile_append_dropWhile).symm⟩
  intro byte h
  exact isSpace_iff.mp (mem_takeWhile_imp h)

/-! ## Strings -/

/-- Four hexadecimal digits. -/
inductive Hex4 : List UInt8 → Nat → Prop
  | mk {a b c d : UInt8} {w x y z : Nat} (ha : hexValue a = some w) (hb : hexValue b = some x)
      (hc : hexValue c = some y) (hd : hexValue d = some z) :
      Hex4 [a, b, c, d] (((w * 16 + x) * 16 + y) * 16 + z)

/-- What is behind `\u`: a code point, or the two surrogates of one. -/
inductive Unicode : List UInt8 → Nat → Prop
  | single {text : List UInt8} {n : Nat} (hex : Hex4 text n) (alone : n < 0xd800 ∨ 0xdfff < n) : Unicode text n
  | pair {text text' : List UInt8} {high low : Nat} (hex : Hex4 text high) (hex' : Hex4 text' low)
      (isHigh : 0xd800 ≤ high ∧ high ≤ 0xdbff) (isLow : 0xdc00 ≤ low ∧ low ≤ 0xdfff) :
      Unicode (text ++ 92 :: 117 :: text') (0x10000 + (high - 0xd800) * 1024 + (low - 0xdc00))

/-- What is behind a backslash. -/
inductive Escape : List UInt8 → List UInt8 → Prop
  | letter {letter byte : UInt8} (stands : unescape letter = some byte) : Escape [letter] [byte]
  | unicode {digits : List UInt8} {n : Nat} (point : Unicode digits n) : Escape (117 :: digits) (codepointBytes n)

/-- The characters of a string, and the bytes they stand for. -/
inductive Chars : List UInt8 → List UInt8 → Prop
  | nil : Chars [] []
  | plain {byte : UInt8} {text bytes : List UInt8} (printable : 32 ≤ byte) (noQuote : byte ≠ 34)
      (noEscape : byte ≠ 92) (rest : Chars text bytes) : Chars (byte :: text) (byte :: bytes)
  | escape {letters text bytes bytes' : List UInt8} (stands : Escape letters bytes)
      (rest : Chars text bytes') : Chars (92 :: (letters ++ text)) (bytes ++ bytes')

/-- `string`. -/
def IsString (text : List UInt8) (s : PString) : Prop :=
  ∃ body, text = 34 :: (body ++ [34]) ∧ Chars body s.bytes

theorem readHex4_iff {n : Nat} : readHex4 input = some (n, rest) ↔ ∃ text, Hex4 text n ∧ input = text ++ rest := by
  constructor
  · intro h
    unfold readHex4 at h
    split at h
    · next a b c d rest' =>
      obtain ⟨w, hw, h⟩ := bind_eq_some_iff.mp h
      obtain ⟨x, hx, h⟩ := bind_eq_some_iff.mp h
      obtain ⟨y, hy, h⟩ := bind_eq_some_iff.mp h
      obtain ⟨z, hz, h⟩ := bind_eq_some_iff.mp h
      cases h
      exact ⟨_, .mk hw hx hy hz, rfl⟩
    · cases h
  · rintro ⟨_, ⟨ha, hb, hc, hd⟩, rfl⟩
    simp only [cons_append, nil_append, readHex4, ha, hb, hc, hd, Option.bind_eq_bind, Option.bind_some]
    rfl

theorem readCodepoint_iff {n : Nat} :
    readCodepoint input = some (n, rest) ↔ ∃ text, Unicode text n ∧ input = text ++ rest := by
  constructor
  · intro h
    obtain ⟨⟨first, behind⟩, hex, read⟩ := bind_eq_some_iff.mp h
    obtain ⟨text, digits, rfl⟩ := readHex4_iff.mp hex
    by_cases high : 0xd800 ≤ first ∧ first ≤ 0xdbff
    · simp only [if_pos high] at read
      split at read
      · next behind =>
        obtain ⟨⟨low, behind'⟩, hex', read'⟩ := bind_eq_some_iff.mp read
        obtain ⟨text', digits', rfl⟩ := readHex4_iff.mp hex'
        simp only at read'
        split at read'
        · cases read'
        · next range =>
          simp only [Option.some.injEq, Prod.mk.injEq] at read'
          obtain ⟨rfl, rfl⟩ := read'
          refine ⟨_, .pair digits digits' high (by omega), ?_⟩
          rw [append_assoc, cons_append, cons_append]
      · cases read
    · simp only [if_neg high] at read
      split at read
      · cases read
      · next low =>
        cases read
        exact ⟨text, .single digits (by omega), rfl⟩
  · rintro ⟨text, point, rfl⟩
    cases point with
    | single hex alone =>
      have first : readHex4 (text ++ rest) = some (n, rest) := readHex4_iff.mpr ⟨text, hex, rfl⟩
      simp only [readCodepoint, first, Option.bind_eq_bind, Option.bind_some]
      rw [if_neg (by omega), if_neg (by omega)]
    | @pair text text' high low hex hex' isHigh isLow =>
      have first : readHex4 (text ++ 92 :: 117 :: (text' ++ rest)) = some (high, 92 :: 117 :: (text' ++ rest)) :=
        readHex4_iff.mpr ⟨text, hex, rfl⟩
      have second : readHex4 (text' ++ rest) = some (low, rest) := readHex4_iff.mpr ⟨text', hex', rfl⟩
      rw [append_assoc, cons_append, cons_append]
      simp only [readCodepoint, first, second, Option.bind_eq_bind, Option.bind_some]
      rw [if_pos isHigh, if_neg (by omega)]

theorem readEscape_iff {bytes : List UInt8} :
    readEscape input = some (bytes, rest) ↔ ∃ text, Escape text bytes ∧ input = text ++ rest := by
  constructor
  · intro h
    cases input with
    | nil => cases h
    | cons letter input =>
      rw [readEscape] at h
      split at h
      · next unicode =>
        subst unicode
        obtain ⟨⟨n, behind⟩, read, e⟩ := Option.map_eq_some_iff.mp h
        cases e
        obtain ⟨digits, point, rfl⟩ := readCodepoint_iff.mp read
        exact ⟨_, .unicode point, rfl⟩
      · obtain ⟨byte, stands, e⟩ := Option.map_eq_some_iff.mp h
        cases e
        exact ⟨_, .letter stands, rfl⟩
  · rintro ⟨text, stands, rfl⟩
    cases stands with
    | @letter letter byte stands =>
      have noUnicode : letter ≠ 117 := by
        rintro rfl
        cases stands
      rw [singleton_append, readEscape, if_neg noUnicode, stands]
      rfl
    | unicode point =>
      rw [cons_append, readEscape, if_pos rfl, readCodepoint_iff.mpr ⟨_, point, rfl⟩]
      rfl

theorem append_eq_some {buffer bytes out : List UInt8} :
    append buffer bytes = some out ↔ buffer.length + bytes.length ≤ 65535 ∧ out = buffer ++ bytes := by
  unfold append
  split
  · next room => simp [room, eq_comm]
  · next full => simp [full]

/-- **The loop of `parse_string` reads the characters up to the closing quotation mark**, when they fit
a string. -/
theorem stringLoop_iff {rounds : Nat} {buffer out : List UInt8} (enough : input.length < rounds)
    (fits : buffer.length ≤ 65535) : stringLoop rounds input buffer = some (out, rest) ↔
      ∃ text bytes, Chars text bytes ∧ input = text ++ 34 :: rest ∧ out = buffer ++ bytes ∧ out.length ≤ 65535 := by
  induction rounds generalizing input buffer with
  | zero => omega
  | succ rounds ih =>
    cases input with
    | nil =>
      rw [stringLoop]
      constructor
      · intro h; cases h
      · rintro ⟨text, bytes, -, e, -⟩
        cases text <;> cases e
    | cons byte input =>
      simp only [length_cons] at enough
      have goOn : ∀ {bytes behind : List UInt8}, behind.length ≤ input.length →
          ((append buffer bytes).bind (stringLoop rounds behind) = some (out, rest) ↔
            ∃ text bytes', Chars text bytes' ∧ behind = text ++ 34 :: rest ∧ out = buffer ++ (bytes ++ bytes') ∧
              out.length ≤ 65535) := by
        intro bytes behind shorter
        by_cases room : buffer.length + bytes.length ≤ 65535
        · rw [append_eq_some.mpr ⟨room, rfl⟩, Option.bind_some, ih (by omega) (by rw [length_append]; exact room)]
          simp only [append_assoc]
        · rw [append, if_neg room]
          constructor
          · intro h; cases h
          · rintro ⟨text, bytes', -, -, rfl, short⟩
            simp only [length_append] at short
            omega
      rw [stringLoop]
      by_cases quote : byte = 34
      · subst quote
        rw [if_pos rfl]
        constructor
        · intro h
          cases h
          exact ⟨[], [], .nil, rfl, (append_nil _).symm, fits⟩
        · rintro ⟨text, bytes, chars, e, rfl, -⟩
          cases chars with
          | nil =>
            cases e
            rw [append_nil]
          | plain _ noQuote _ _ =>
            cases e
            exact absurd rfl noQuote
          | escape _ _ => cases e
      · rw [if_neg quote]
        by_cases control : byte < 32
        · rw [if_pos control]
          constructor
          · intro h; cases h
          · rintro ⟨text, bytes, chars, e, -⟩
            cases chars with
            | nil =>
              cases e
              exact absurd rfl quote
            | plain printable _ _ _ =>
              cases e
              exact absurd control (UInt8.not_lt.mpr printable)
            | escape _ _ =>
              cases e
              exact absurd control (by decide)
        · rw [if_neg control]
          by_cases escape : byte = 92
          · subst escape
            rw [if_neg (by decide)]
            constructor
            · intro h
              obtain ⟨⟨bytes, behind⟩, read, next⟩ := bind_eq_some_iff.mp h
              obtain ⟨letters, stands, rfl⟩ := readEscape_iff.mp read
              have shorter := (sublist_append_right letters behind).length_le
              obtain ⟨text, bytes', chars, rfl, rfl, short⟩ := (goOn shorter).mp next
              exact ⟨_, _, .escape stands chars, by simp only [cons_append, append_assoc], rfl, short⟩
            · rintro ⟨text, bytes, chars, e, rfl, short⟩
              cases chars with
              | nil => cases e
              | plain _ _ noEscape _ =>
                cases e
                exact absurd rfl noEscape
              | @escape letters text bytes bytes' stands chars =>
                rw [cons_append, append_assoc] at e
                cases e
                have shorter := (sublist_append_right letters (text ++ 34 :: rest)).length_le
                rw [readEscape_iff.mpr ⟨letters, stands, rfl⟩, Option.bind_some]
                exact (goOn shorter).mpr ⟨text, bytes', chars, rfl, rfl, short⟩
          · rw [if_pos escape, goOn (le_refl _)]
            constructor
            · rintro ⟨text, bytes, chars, rfl, rfl, short⟩
              exact ⟨_, _, .plain (UInt8.not_lt.mp control) quote escape chars, rfl, rfl, short⟩
            · rintro ⟨text, bytes, chars, e, rfl, short⟩
              cases chars with
              | nil =>
                cases e
                exact absurd rfl quote
              | plain _ _ _ chars =>
                cases e
                exact ⟨_, _, chars, rfl, rfl, short⟩
              | escape _ _ =>
                cases e
                exact absurd rfl escape

/-! ## Numbers -/

/-- At least one digit. -/
def IsDigits (text : List UInt8) : Prop := text ≠ [] ∧ ∀ byte ∈ text, IsDigit byte

/-- `int`. -/
def IsInt (text : List UInt8) : Prop :=
  text = [48] ∨ text.head? ≠ some 48 ∧ IsDigits text

/-- `frac`, when there is one. -/
def IsFrac (text : List UInt8) : Prop := text = [] ∨ ∃ digits, IsDigits digits ∧ text = 46 :: digits

/-- `exp`, when there is one. -/
def IsExp (text : List UInt8) : Prop :=
  text = [] ∨ ∃ letter sign digits, (letter = 101 ∨ letter = 69) ∧
    (sign = [] ∨ sign = [43] ∨ sign = [45]) ∧ IsDigits digits ∧ text = letter :: (sign ++ digits)

/-- `number`, and whether it has a fraction or an exponent. -/
inductive IsNumber : List UInt8 → Bool → Prop
  | mk {minus int frac exp : List UInt8} (hminus : minus = [] ∨ minus = [45]) (hint : IsInt int)
      (hfrac : IsFrac frac) (hexp : IsExp exp) :
      IsNumber (minus ++ int ++ frac ++ exp) (frac ≠ [] || exp ≠ [])

theorem isDigit_eq_true {byte : UInt8} : isDigit byte = true ↔ IsDigit byte := decide_eq_true_iff

theorem takeWhile_digits (all : ∀ byte ∈ digits, IsDigit byte) (stop : ∀ byte ∈ tail.head?, ¬ IsDigit byte) :
    (digits ++ tail).takeWhile isDigit = digits ∧ (digits ++ tail).dropWhile isDigit = tail := by
  have all' : ∀ byte ∈ digits, isDigit byte = true := fun byte h => isDigit_eq_true.mpr (all byte h)
  rw [takeWhile_append_of_pos all', dropWhile_append_of_pos all']
  cases tail with
  | nil => exact ⟨append_nil _, rfl⟩
  | cons byte tail =>
    have out : ¬ isDigit byte = true := fun h => stop byte rfl (isDigit_eq_true.mp h)
    rw [takeWhile_cons_of_neg out, dropWhile_cons_of_neg out, append_nil]
    exact ⟨rfl, rfl⟩

theorem scanDigits_eq (h : IsDigits digits)
    (stop : ∀ byte ∈ tail.head?, ¬ IsDigit byte) : scanDigits (digits ++ tail) = some (digits, tail) := by
  have whole := takeWhile_digits h.2 stop
  rw [scanDigits, whole.1, whole.2, if_neg h.1]

theorem scanDigits_sound (h : scanDigits input = some (digits, rest)) : IsDigits digits ∧ input = digits ++ rest := by
  rw [scanDigits] at h
  split at h
  · cases h
  · next some_digit =>
    cases h
    exact ⟨⟨some_digit, fun byte h => isDigit_eq_true.mp (mem_takeWhile_imp h)⟩, (takeWhile_append_dropWhile).symm⟩

theorem scanInteger_eq (h : IsInt int)
    (stop : ∀ byte ∈ tail.head?, ¬ IsDigit byte) : scanInteger (int ++ tail) = some (int, tail) := by
  rcases h with rfl | ⟨noZero, nonempty, all⟩
  · rfl
  · cases int with
    | nil => exact absurd rfl nonempty
    | cons first int =>
      have first_digit := isDigit_eq_true.mpr (all first (.head _))
      have whole := takeWhile_digits (fun byte h => all byte (.tail _ h)) stop
      rw [cons_append, scanInteger, if_neg fun h => noZero (congrArg some h), if_pos first_digit, whole.1, whole.2]

theorem scanInteger_sound (h : scanInteger input = some (int, rest)) : IsInt int ∧ input = int ++ rest := by
  cases input with
  | nil => cases h
  | cons first input =>
    rw [scanInteger] at h
    split at h
    · next zero =>
      cases h
      exact ⟨.inl rfl, by rw [zero]; rfl⟩
    · next noZero =>
      split at h
      · next digit =>
        cases h
        refine ⟨.inr ⟨fun h => noZero (Option.some.inj h), cons_ne_nil _ _, ?_⟩, ?_⟩
        · intro byte h
          rcases mem_cons.mp h with rfl | h
          · exact isDigit_eq_true.mp digit
          · exact isDigit_eq_true.mp (mem_takeWhile_imp h)
        · rw [cons_append, takeWhile_append_dropWhile]
      · cases h

theorem scanFraction_eq {frac : List UInt8} (h : IsFrac frac) (stop : ∀ byte ∈ tail.head?, ¬ IsDigit byte ∧ byte ≠ 46) :
    scanFraction (frac ++ tail) = some (frac, tail) := by
  rcases h with rfl | ⟨digits, hdigits, rfl⟩
  · cases tail with
    | nil => rfl
    | cons byte tail => rw [nil_append, scanFraction, if_neg (stop byte rfl).2]
  · rw [cons_append, scanFraction, if_pos rfl, scanDigits_eq hdigits fun byte h => (stop byte h).1]
    rfl

theorem scanFraction_sound {frac : List UInt8} (h : scanFraction input = some (frac, rest)) :
    IsFrac frac ∧ input = frac ++ rest := by
  cases input with
  | nil => cases h; exact ⟨.inl rfl, rfl⟩
  | cons first input =>
    rw [scanFraction] at h
    split at h
    · next point =>
      obtain ⟨⟨digits, behind⟩, scan, e⟩ := Option.map_eq_some_iff.mp h
      cases e
      obtain ⟨hdigits, rfl⟩ := scanDigits_sound scan
      exact ⟨.inr ⟨digits, hdigits, rfl⟩, by rw [point]; rfl⟩
    · cases h; exact ⟨.inl rfl, rfl⟩

theorem scanSign_eq {sign : List UInt8} (h : sign = [] ∨ sign = [43] ∨ sign = [45])
    (hdigits : IsDigits digits) : scanSign (sign ++ (digits ++ tail)) = (sign, digits ++ tail) := by
  rcases h with rfl | rfl | rfl
  · cases digits with
    | nil => exact absurd rfl hdigits.1
    | cons first digits =>
      have noSign : ¬ (first = 43 ∨ first = 45) := by
        rintro (rfl | rfl) <;> exact absurd (hdigits.2 _ (.head _)) (by decide)
      rw [nil_append, cons_append, scanSign, if_neg noSign]
  · rfl
  · rfl

theorem scanSign_sound (input : List UInt8) :
    ((scanSign input).1 = [] ∨ (scanSign input).1 = [43] ∨ (scanSign input).1 = [45]) ∧
      input = (scanSign input).1 ++ (scanSign input).2 := by
  cases input with
  | nil => exact ⟨.inl rfl, rfl⟩
  | cons first input =>
    rw [scanSign]
    split
    · next sign =>
      rcases sign with rfl | rfl
      · exact ⟨.inr (.inl rfl), rfl⟩
      · exact ⟨.inr (.inr rfl), rfl⟩
    · exact ⟨.inl rfl, rfl⟩

theorem scanExponent_eq {exp : List UInt8} (h : IsExp exp) (stop : Ends tail) :
    scanExponent (exp ++ tail) = some (exp, tail) := by
  rcases h with rfl | ⟨letter, sign, digits, isLetter, isSign, hdigits, rfl⟩
  · cases tail with
    | nil => rfl
    | cons byte tail =>
      obtain ⟨-, -, noLower, noUpper⟩ := stop byte rfl
      rw [nil_append, scanExponent, if_neg fun h => h.elim noLower noUpper]
  · rw [cons_append, append_assoc, scanExponent, if_pos isLetter, scanSign_eq isSign hdigits,
      scanDigits_eq hdigits fun byte h => (stop byte h).1]
    rfl

theorem scanExponent_sound {exp : List UInt8} (h : scanExponent input = some (exp, rest)) :
    IsExp exp ∧ input = exp ++ rest := by
  cases input with
  | nil => cases h; exact ⟨.inl rfl, rfl⟩
  | cons first input =>
    rw [scanExponent] at h
    split at h
    · next letter =>
      obtain ⟨⟨digits, behind⟩, scan, e⟩ := Option.map_eq_some_iff.mp h
      cases e
      obtain ⟨hdigits, split⟩ := scanDigits_sound scan
      obtain ⟨isSign, whole⟩ := scanSign_sound input
      refine ⟨.inr ⟨first, _, digits, letter, isSign, hdigits, rfl⟩, ?_⟩
      rw [cons_append, append_assoc, ← split, ← whole]
    · cases h; exact ⟨.inl rfl, rfl⟩

theorem IsInt.head (h : IsInt int) : ∃ byte rest, int = byte :: rest ∧ IsDigit byte := by
  rcases h with rfl | ⟨-, nonempty, all⟩
  · exact ⟨48, [], rfl, by decide⟩
  · cases int with
    | nil => exact absurd rfl nonempty
    | cons byte rest => exact ⟨byte, rest, rfl, all byte (.head _)⟩

/-- **`parse_number` scans the longest text that is a number.** -/
theorem scanNumber_eq (h : IsNumber text floating)
    (stop : Ends tail) : scanNumber (text ++ tail) = some (text, floating, tail) := by
  obtain @⟨minus, int, frac, exp, hminus, hint, hfrac, hexp⟩ := h
  have behindExp : ∀ byte ∈ (exp ++ tail).head?, ¬ IsDigit byte ∧ byte ≠ 46 := by
    rcases hexp with rfl | ⟨letter, sign, digits, isLetter, -, -, rfl⟩
    · exact fun byte h => ⟨(stop byte h).1, (stop byte h).2.1⟩
    · intro byte h
      cases h
      rcases isLetter with rfl | rfl <;> decide
  have behindInt : ∀ byte ∈ (frac ++ (exp ++ tail)).head?, ¬ IsDigit byte := by
    rcases hfrac with rfl | ⟨digits, -, rfl⟩
    · exact fun byte h => (behindExp byte h).1
    · intro byte h
      cases h
      decide
  have sign : (if (minus ++ (int ++ (frac ++ (exp ++ tail)))).head? = some 45 then [(45 : UInt8)] else []) = minus := by
    rcases hminus with rfl | rfl
    · obtain ⟨byte, rest, rfl, digit⟩ := hint.head
      have noMinus : byte ≠ 45 := by
        rintro rfl
        exact absurd digit (by decide)
      exact if_neg fun h => noMinus (Option.some.inj h)
    · rfl
  have int_eq := scanInteger_eq hint behindInt
  have frac_eq := scanFraction_eq hfrac behindExp
  have exp_eq := scanExponent_eq hexp stop
  rw [scanNumber]
  simp only [sign, append_assoc, drop_left, int_eq, frac_eq, exp_eq, Option.bind_eq_bind, Option.bind_some]
  rfl

theorem scanNumber_sound
    (h : scanNumber input = some (text, floating, rest)) : IsNumber text floating ∧ input = text ++ rest := by
  rw [scanNumber] at h
  obtain ⟨⟨int, behind⟩, int_eq, scan⟩ := bind_eq_some_iff.mp h
  obtain ⟨⟨frac, behind'⟩, frac_eq, scan'⟩ := bind_eq_some_iff.mp scan
  obtain ⟨⟨exp, behind''⟩, exp_eq, whole⟩ := bind_eq_some_iff.mp scan'
  obtain ⟨hint, int_eq⟩ := scanInteger_sound int_eq
  obtain ⟨hfrac, rfl⟩ := scanFraction_sound frac_eq
  obtain ⟨hexp, rfl⟩ := scanExponent_sound exp_eq
  cases whole
  refine ⟨.mk ?_ hint hfrac hexp, ?_⟩
  · split
    · exact .inr rfl
    · exact .inl rfl
  · simp only [append_assoc, ← int_eq]
    split
    · next minus =>
      cases input with
      | nil => cases minus
      | cons first input => cases minus; rfl
    · rfl

/-! ## Values -/

/-- The elements of an array, with the blanks around them; `item` is what an element is. -/
inductive Elements (item : List UInt8 → Value → Prop) : List UInt8 → List Value → Prop
  | last {l text r : List UInt8} {v : Value} (hl : Blank l) (h : item text v) (hr : Blank r) :
      Elements item (l ++ (text ++ r)) [v]
  | more {l text r rest : List UInt8} {v : Value} {vs : List Value} (hl : Blank l) (h : item text v)
      (hr : Blank r) (hrest : Elements item rest vs) :
      Elements item (l ++ (text ++ (r ++ 44 :: rest))) (v :: vs)

/-- A member of an object, with the blanks around it. -/
inductive Member (item : List UInt8 → Value → Prop) : List UInt8 → PString → Value → Prop
  | mk {l name m m' text r : List UInt8} {s : PString} {v : Value} (hl : Blank l) (hname : IsString name s)
      (hm : Blank m) (hm' : Blank m') (h : item text v) (hr : Blank r) :
      Member item (l ++ (name ++ (m ++ 58 :: (m' ++ (text ++ r))))) s v

/-- The members of an object. -/
inductive Members (item : List UInt8 → Value → Prop) : List UInt8 → List (PString × Value) → Prop
  | last {text : List UInt8} {s : PString} {v : Value} (h : Member item text s v) : Members item text [(s, v)]
  | more {text rest : List UInt8} {s : PString} {v : Value} {members : List (PString × Value)}
      (h : Member item text s v) (hrest : Members item rest members) :
      Members item (text ++ 44 :: rest) ((s, v) :: members)

/-- The array of the elements; the keys count up from the given one. -/
def numbered : Nat → List Value → List (Key × Value)
  | _, [] => []
  | n, v :: vs => (.int n, v) :: numbered (n + 1) vs

/-- The array of the members: of members with one name the last one counts. -/
def collected (cfg : Config) (entries : List (Key × Value)) (members : List (PString × Value)) : List (Key × Value) :=
  members.foldl (fun entries member => OrderedMap.set entries (memberKey cfg member.1) member.2) entries

/-- `value`; `item` is what lies inside arrays and objects. -/
inductive Production (cfg : Config) (item : List UInt8 → Value → Prop) : List UInt8 → Value → Prop
  | null : Production cfg item (ascii "null") .null
  | isFalse : Production cfg item (ascii "false") (.bool false)
  | isTrue : Production cfg item (ascii "true") (.bool true)
  | number {text : List UInt8} {floating : Bool} {v : Value} (h : IsNumber text floating)
      (hv : numberValue cfg text floating = some v) : Production cfg item text v
  | string {text : List UInt8} {s : PString} (h : IsString text s) : Production cfg item text (.string s)
  | emptyArray {ws : List UInt8} (h : Blank ws) : Production cfg item (91 :: (ws ++ [93])) (.array [])
  | array {text : List UInt8} {vs : List Value} (h : Elements item text vs) :
      Production cfg item (91 :: (text ++ [93])) (.array (numbered 0 vs))
  | emptyObject {ws : List UInt8} (h : Blank ws) : Production cfg item (123 :: (ws ++ [125])) (.array [])
  | object {text : List UInt8} {members : List (PString × Value)} (h : Members item text members) :
      Production cfg item (123 :: (text ++ [125])) (.array (collected cfg [] members))

/-- A value for which there is room: `room` counts the values that may lie inside one another. -/
def IsValue (cfg : Config) : Nat → List UInt8 → Value → Prop
  | 0 => fun _ _ => False
  | room + 1 => Production cfg (IsValue cfg room)

/-- `JSON-text`: a value with blanks around it. No more than 32 values lie inside one another. -/
def IsText (cfg : Config) (text : List UInt8) (v : Value) : Prop :=
  ∃ l body r, Blank l ∧ IsValue cfg 32 body v ∧ Blank r ∧ text = l ++ (body ++ r)

theorem IsNumber.head (h : IsNumber text floating) : ∃ byte rest, text = byte :: rest ∧ (byte = 45 ∨ IsDigit byte) := by
  obtain ⟨hminus, hint, -, -⟩ := h
  rcases hminus with rfl | rfl
  · obtain ⟨byte, rest, rfl, digit⟩ := hint.head
    exact ⟨byte, _, rfl, .inr digit⟩
  · exact ⟨45, _, rfl, .inl rfl⟩

/-- The first byte of a value is no blank, and no bracket or brace that closes. -/
theorem Production.head {cfg : Config} {item : List UInt8 → Value → Prop} {v : Value} (h : Production cfg item text v) :
    ∃ byte rest, text = byte :: rest ∧ Parser.isSpace byte = false ∧ byte ≠ 93 := by
  cases h with
  | null => exact ⟨_, _, rfl, by decide, by decide⟩
  | isFalse => exact ⟨_, _, rfl, by decide, by decide⟩
  | isTrue => exact ⟨_, _, rfl, by decide, by decide⟩
  | number h =>
    obtain ⟨byte, rest, rfl, first⟩ := h.head
    refine ⟨byte, rest, rfl, ?_, ?_⟩
    · rw [← Bool.not_eq_true, isSpace_iff]
      rcases first with rfl | digit
      · decide
      · rintro (rfl | rfl | rfl | rfl) <;> exact absurd digit (by decide)
    · rintro rfl
      exact absurd first (by decide)
  | string h =>
    obtain ⟨body, rfl, -⟩ := h
    exact ⟨_, _, rfl, by decide, by decide⟩
  | emptyArray _ => exact ⟨_, _, rfl, by decide, by decide⟩
  | array _ => exact ⟨_, _, rfl, by decide, by decide⟩
  | emptyObject _ => exact ⟨_, _, rfl, by decide, by decide⟩
  | object _ => exact ⟨_, _, rfl, by decide, by decide⟩

end PhpPico.Json
