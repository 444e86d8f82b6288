import PhpPico.Compiler.Token

/-!
# String literals

`decode_string` turns a literal into bytes. Octal and hexadecimal digits are taken as long as they go on. **Every way
to write a byte is read as that byte**, but a surrogate in `\u{...}` is encoded, and a backslash before a quote is
lost in double quotes.
-/

namespace PhpPico.Compiler
open List

/-! ## Escapes -/

/-- `escape_hex_digit`. -/
def escapeHexDigit (byte : UInt8) : Option Nat :=
  if 48 ≤ byte.toNat ∧ byte.toNat ≤ 57 then some (byte.toNat - 48)
  else if 97 ≤ byte.toNat ∧ byte.toNat ≤ 102 then some (byte.toNat - 97 + 10)
  else if 65 ≤ byte.toNat ∧ byte.toNat ≤ 70 then some (byte.toNat - 65 + 10)
  else none

/-- The digits `'0'` to `'7'`. -/
def octalDigit (byte : UInt8) : Option Nat :=
  if 48 ≤ byte.toNat ∧ byte.toNat ≤ 55 then some (byte.toNat - 48) else none

/-- `encode_utf8`; nothing where it returns 0. -/
def encodeUtf8 (codepoint : Nat) : List UInt8 :=
  if codepoint ≤ 0x7f then [UInt8.ofNat codepoint]
  else if codepoint ≤ 0x7ff then
    [UInt8.ofNat (0xc0 ||| codepoint >>> 6), UInt8.ofNat (0x80 ||| codepoint &&& 0x3f)]
  else if codepoint ≤ 0xffff ∧ ¬ (0xd800 ≤ codepoint ∧ codepoint ≤ 0xdfff) then
    [UInt8.ofNat (0xe0 ||| codepoint >>> 12), UInt8.ofNat (0x80 ||| codepoint >>> 6 &&& 0x3f),
      UInt8.ofNat (0x80 ||| codepoint &&& 0x3f)]
  else if codepoint ≤ 0x10ffff then
    [UInt8.ofNat (0xf0 ||| codepoint >>> 18), UInt8.ofNat (0x80 ||| codepoint >>> 12 &&& 0x3f),
      UInt8.ofNat (0x80 ||| codepoint >>> 6 &&& 0x3f), UInt8.ofNat (0x80 ||| codepoint &&& 0x3f)]
  else []

/-- A loop over at most so many digits: how many there are, their value, and what is behind them. -/
def readDigits (digit : UInt8 → Option Nat) (base : Nat) : Nat → Nat → Nat → List UInt8 → Nat × Nat × List UInt8
  | 0, count, value, text => (count, value, text)
  | _ + 1, count, value, [] => (count, value, [])
  | limit + 1, count, value, c :: rest =>
    match digit c with
    | some d => readDigits digit base limit (count + 1) (value * base + d) rest
    | none => (count, value, c :: rest)

/-- The loop of `\u{...}` behind the brace: the code point, and what is behind the other brace. -/
def readBraced : Nat → Nat → List UInt8 → Option (Nat × List UInt8)
  | _, _, [] => none
  | digits, codepoint, c :: rest =>
    if c = 125 then if digits ≠ 0 then some (codepoint, rest) else none
    else
      match escapeHexDigit c with
      | some digit => if 6 ≤ digits then none else readBraced (digits + 1) (codepoint * 16 + digit) rest
      | none => none

/-- The case `'u'`: the encoded code point, and what is behind the escape. -/
def unicodeEscape : List UInt8 → Option (List UInt8 × List UInt8)
  | 123 :: rest =>
    match readBraced 0 0 rest with
    | some (codepoint, behind) => if encodeUtf8 codepoint ≠ [] then some (encodeUtf8 codepoint, behind) else none
    | none => none
  | _ => none

/-- The switch over the byte behind a backslash: what is written, and what is behind the escape. -/
def decodeEscape (c : UInt8) (rest : List UInt8) : List UInt8 × List UInt8 :=
  if c = 110 then ([10], rest)
  else if c = 114 then ([13], rest)
  else if c = 116 then ([9], rest)
  else if c = 118 then ([11], rest)
  else if c = 102 then ([12], rest)
  else if c = 101 then ([27], rest)
  else if c = 92 then ([92], rest)
  else if c = 39 then ([39], rest)
  else if c = 34 then ([34], rest)
  else if c = 36 then ([36], rest)
  else if c = 120 then
    let read := readDigits escapeHexDigit 16 2 0 0 rest
    if read.1 = 0 then ([92, 120], read.2.2) else ([UInt8.ofNat read.2.1], read.2.2)
  else if c = 117 then
    match unicodeEscape rest with
    | some escape => escape
    | none => ([92, 117], rest)
  else
    match octalDigit c with
    | some digit =>
      let read := readDigits octalDigit 8 2 1 digit rest
      ([UInt8.ofNat read.2.1], read.2.2)
    | none => ([92, c], rest)

/-- A round of the loop of `decode_string`. -/
def decodeStep (type : TokenType) (escapes : Bool) (c : UInt8) (rest : List UInt8) : List UInt8 × List UInt8 :=
  match rest with
  | [] => ([c], [])
  | next :: behind =>
    if c ≠ 92 then ([c], rest)
    else if !escapes && type ≠ .tSingleQuoted then ([c], rest)
    else if type = .tSingleQuoted ∧ next ≠ 92 ∧ next ≠ 39 then ([92, next], behind)
    else decodeEscape next behind

/-- The loop of `decode_string`; the number is that of the bytes left. -/
def decodeFrom (type : TokenType) (escapes : Bool) : Nat → List UInt8 → List UInt8
  | _, [] => []
  | 0, _ :: _ => []
  | bytes + 1, c :: rest =>
    (decodeStep type escapes c rest).1 ++ decodeFrom type escapes bytes (decodeStep type escapes c rest).2

/-- The text between the first and the last line of a heredoc. -/
def heredocBody (text : List UInt8) : List UInt8 :=
  match text.dropWhile (· ≠ 10) with
  | [] => text
  | _ :: lines => if lines.contains 10 then (lines.reverse.dropWhile (· ≠ 10)).tail.reverse else lines

/-- The text that `decode_string` decodes, and whether it reads escapes. -/
def decodedPart (token : Token) : List UInt8 × Bool :=
  if (token.type = .tSingleQuoted ∨ token.type = .tDoubleQuoted) ∧ 2 ≤ token.length then
    (token.text.tail.dropLast, token.type = .tDoubleQuoted)
  else if token.type = .tHeredoc ∨ token.type = .tNowdoc then (heredocBody token.text, token.type = .tHeredoc)
  else (token.text, token.type = .tDoubleQuoted ∨ token.type = .tInterpPart)

/-- The bytes `decode_string` writes into its buffer. -/
def decodedBytes (token : Token) : List UInt8 :=
  decodeFrom token.type (decodedPart token).2 (decodedPart token).1.length (decodedPart token).1

/-- `decode_string`; `memory` says whether the buffer and the string get theirs. -/
def decodeString (memory : Bool × Bool) (token : Token) : Option PString :=
  if memory.1 && memory.2 then psNew (decodedBytes token) else none

/-! ## Literals -/

/-- A quoted token. -/
def quotedToken (type : TokenType) (quote : UInt8) (inner : List UInt8) : Token :=
  { Token.zero with type, text := quote :: (inner ++ [quote]) }

/-- A string in single quotes. -/
def singleQuotedText (s : List UInt8) : List UInt8 := s.flatMap fun c => if c = 92 ∨ c = 39 then [92, c] else [c]

/-- The escapes of a letter. -/
def letterEscapes : List (UInt8 × UInt8) :=
  [(110, 10), (114, 13), (116, 9), (118, 11), (101, 27), (102, 12), (92, 92), (34, 34), (36, 36)]

/-- The number that digits make up. -/
def digitsValue (digit : UInt8 → Option Nat) (base : Nat) (digits : List UInt8) : Nat :=
  digits.foldl (fun value c => value * base + (digit c).getD 0) 0

/-- One to so many digits. -/
def Digits (digit : UInt8 → Option Nat) (limit : Nat) (digits : List UInt8) : Prop :=
  digits ≠ [] ∧ digits.length ≤ limit ∧ ∀ c ∈ digits, (digit c).isSome = true

/-- A text begins with a digit. -/
def BeginsWith (digit : UInt8 → Option Nat) (text : List UInt8) : Prop :=
  ∃ c rest, text = c :: rest ∧ (digit c).isSome = true

/-- A code point in braces, with what is behind it. -/
def Braced (codepoint : Nat) (text back : List UInt8) : Prop :=
  ∃ digits, Digits escapeHexDigit 6 digits ∧ digitsValue escapeHexDigit 16 digits = codepoint ∧
    text = 123 :: (digits ++ 125 :: back)

/-- A Unicode scalar value in braces. -/
def BracedScalar (text : List UInt8) : Prop := ∃ codepoint back, Braced codepoint text back ∧ codepoint.isValidChar

/-- A surrogate in braces. -/
def BracedSurrogate (text : List UInt8) : Prop :=
  ∃ codepoint back, Braced codepoint text back ∧ 0xd800 ≤ codepoint ∧ codepoint ≤ 0xdfff

/-- What stands behind a backslash makes an escape of it. -/
def BeginsEscape (text : List UInt8) : Prop :=
  (∃ escape ∈ letterEscapes, text.head? = some escape.1) ∨ BeginsWith octalDigit text ∨
    (∃ rest, text = 120 :: rest ∧ BeginsWith escapeHexDigit rest) ∨ ∃ rest, text = 117 :: rest ∧ BracedScalar rest

/-- The ways to write bytes in double quotes. -/
inductive Piece where
  | raw (c : UInt8)
  | named (letter byte : UInt8)
  | octal (digits : List UInt8)
  | hex (digits : List UInt8)
  | unicode (digits : List UInt8)
  | backslash

namespace Piece

/-- What is written. -/
def text : Piece → List UInt8
  | raw c => [c]
  | named letter _ => [92, letter]
  | octal digits => 92 :: digits
  | hex digits => 92 :: 120 :: digits
  | unicode digits => 92 :: 117 :: 123 :: (digits ++ [125])
  | backslash => [92]

/-- What it stands for. -/
def bytes : Piece → List UInt8
  | raw c => [c]
  | named _ byte => [byte]
  | octal digits => [UInt8.ofNat (digitsValue octalDigit 8 digits)]
  | hex digits => [UInt8.ofNat (digitsValue escapeHexDigit 16 digits)]
  | unicode digits => String.utf8EncodeChar (Char.ofNat (digitsValue escapeHexDigit 16 digits))
  | backslash => [92]

/-- It may be written before a text: few digits do not go on, and a backslash is left alone if it makes no escape. -/
def Allowed (back : List UInt8) : Piece → Prop
  | raw c => c ≠ 92 ∧ c ≠ 34
  | named letter byte => (letter, byte) ∈ letterEscapes
  | octal digits => Digits octalDigit 3 digits ∧ (digits.length = 3 ∨ ¬ BeginsWith octalDigit back)
  | hex digits => Digits escapeHexDigit 2 digits ∧ (digits.length = 2 ∨ ¬ BeginsWith escapeHexDigit back)
  | unicode digits => Digits escapeHexDigit 6 digits ∧ (digitsValue escapeHexDigit 16 digits).isValidChar
  | backslash => back ≠ [] ∧ ¬ BeginsEscape back

/-- A backslash that should be left alone, but is not. -/
def Misread (back : List UInt8) : Piece → Prop
  | backslash => back.head? = some 39 ∨ ∃ rest, back = 117 :: rest ∧ BracedSurrogate rest
  | _ => False

end Piece

/-- What is written, one piece after the other. -/
def written (pieces : List Piece) : List UInt8 := pieces.flatMap Piece.text

/-- What it stands for. -/
def meant (pieces : List Piece) : List UInt8 := pieces.flatMap Piece.bytes

/-- Every piece may stand before the next ones. -/
def WellWritten : List Piece → Prop
  | [] => True
  | piece :: rest => piece.Allowed (written rest) ∧ WellWritten rest

/-- No backslash is misread. -/
def Legible : List Piece → Prop
  | [] => True
  | piece :: rest => ¬ piece.Misread (written rest) ∧ Legible rest

/-! ## The encoding -/

section Encoding
variable {codepoint : Nat}

theorem and_63 (n : Nat) : n &&& 0x3f = n % 64 := Nat.and_two_pow_sub_one_eq_mod n 6

theorem or_80 {n : Nat} (small : n < 64) : 0x80 ||| n = n + 0x80 := by
  revert n
  decide

theorem or_c0 {n : Nat} (small : n < 32) : 0xc0 ||| n = n + 0xc0 := by
  revert n
  decide

theorem or_e0 {n : Nat} (small : n < 16) : 0xe0 ||| n = n + 0xe0 := by
  revert n
  decide

theorem or_f0 {n : Nat} (small : n < 8) : 0xf0 ||| n = n + 0xf0 := by
  revert n
  decide

/-- **Scalar values have their shortest encoding.** -/
theorem encodeUtf8_scalar (scalar : codepoint.isValidChar) :
    encodeUtf8 codepoint = String.utf8EncodeChar (Char.ofNat codepoint) := by
  have value : (Char.ofNat codepoint).val.toNat = codepoint := by
    unfold Char.ofNat
    rw [dif_pos scalar]
    rfl
  have bound : codepoint < 0x110000 ∧ ¬ (0xd800 ≤ codepoint ∧ codepoint ≤ 0xdfff) := by
    rcases scalar with low | high
    · omega
    · omega
  have part (k : Nat) : codepoint >>> k &&& 0x3f = codepoint / 2 ^ k % 64 := by
    rw [and_63, Nat.shiftRight_eq_div_pow]
  have low := Nat.mod_lt codepoint (by decide : 0 < 64)
  have mid := Nat.mod_lt (codepoint / 2 ^ 6) (by decide : 0 < 64)
  have high := Nat.mod_lt (codepoint / 2 ^ 12) (by decide : 0 < 64)
  unfold encodeUtf8 String.utf8EncodeChar
  rw [value]
  by_cases one : codepoint ≤ 0x7f
  · rw [if_pos one, if_pos one]
  rw [if_neg one, if_neg one]
  by_cases two : codepoint ≤ 0x7ff
  · rw [if_pos two, if_pos two, and_63, or_80 low, Nat.shiftRight_eq_div_pow, or_c0 (by omega)]
    have top : codepoint / 64 % 0x20 = codepoint / 2 ^ 6 := by omega
    rw [top]
  rw [if_neg two, if_neg two]
  by_cases three : codepoint ≤ 0xffff
  · rw [if_pos ⟨three, bound.2⟩, if_pos three, part, and_63, or_80 low, or_80 mid, Nat.shiftRight_eq_div_pow,
      or_e0 (by omega)]
    have top : codepoint / 4096 % 0x10 = codepoint / 2 ^ 12 := by omega
    rw [top]
    rfl
  · rw [if_neg (fun h => three h.1), if_pos (by omega), if_neg three, part, part, and_63, or_80 low, or_80 mid,
      or_80 high, Nat.shiftRight_eq_div_pow, or_f0 (by omega)]
    have top : codepoint / 262144 % 0x08 = codepoint / 2 ^ 18 := by omega
    rw [top]
    rfl

theorem encodeUtf8_surrogate (low : 0xd800 ≤ codepoint) (high : codepoint ≤ 0xdfff) :
    ∃ rest, encodeUtf8 codepoint = 0xf0 :: rest := by
  unfold encodeUtf8
  rw [if_neg (by omega), if_neg (by omega), if_neg (fun h => h.2 ⟨low, high⟩), if_pos (by omega)]
  have top : codepoint >>> 18 = 0 := by
    rw [Nat.shiftRight_eq_div_pow]
    omega
  rw [top]
  exact ⟨_, rfl⟩

theorem encodeUtf8_beyond (beyond : 0x10ffff < codepoint) : encodeUtf8 codepoint = [] := by
  unfold encodeUtf8
  rw [if_neg (by omega), if_neg (by omega), if_neg (by omega), if_neg (by omega)]

theorem encodeUtf8_ne_nil (within : codepoint ≤ 0x10ffff) : encodeUtf8 codepoint ≠ [] := by
  unfold encodeUtf8
  split
  · exact cons_ne_nil _ _
  · split
    · exact cons_ne_nil _ _
    · split
      · exact cons_ne_nil _ _
      · exact cons_ne_nil _ _

theorem encodeUtf8_length (codepoint : Nat) : (encodeUtf8 codepoint).length ≤ 4 := by
  unfold encodeUtf8
  split
  · simp
  · split
    · simp
    · split
      · simp
      · split
        · simp
        · simp

end Encoding

/-! ## Digits -/

section Digits
variable {digit : UInt8 → Option Nat} {limit : Nat} {back : List UInt8}

theorem readDigits_stop (base : Nat) (stop : ¬ BeginsWith digit back) (limit count value : Nat) :
    readDigits digit base limit count value back = (count, value, back) := by
  cases limit with
  | zero => rfl
  | succ limit =>
    cases back with
    | nil => rfl
    | cons c rest =>
      have other : digit c = none := by
        cases found : digit c with
        | none => rfl
        | some d => exact absurd ⟨c, rest, rfl, by rw [found]; rfl⟩ stop
      rw [readDigits, other]

/-- **The loop takes the digits, and nothing behind them.** -/
theorem readDigits_append (base : Nat) {digits : List UInt8} (all : ∀ c ∈ digits, (digit c).isSome = true)
    (fits : digits.length ≤ limit) (stop : digits.length = limit ∨ ¬ BeginsWith digit back) (count value : Nat) :
    readDigits digit base limit count value (digits ++ back) =
      (count + digits.length, digits.foldl (fun value c => value * base + (digit c).getD 0) value, back) := by
  induction digits generalizing limit count value with
  | nil =>
    rcases stop with none_left | stop
    · rw [← none_left]
      rfl
    · exact readDigits_stop base stop limit count value
  | cons c rest ih =>
    obtain ⟨more, rfl⟩ : ∃ more, limit = more + 1 := ⟨limit - 1, by rw [length_cons] at fits; omega⟩
    obtain ⟨d, found⟩ := Option.isSome_iff_exists.mp (all c (.head _))
    rw [length_cons] at fits stop
    have others : ∀ c ∈ rest, (digit c).isSome = true := fun c listed => all c (.tail _ listed)
    rw [cons_append, readDigits, found, foldl_cons, found, Option.getD_some, length_cons]
    have total : count + (rest.length + 1) = count + 1 + rest.length := by omega
    rw [total]
    exact ih others (by omega) (stop.imp_left fun same => by omega) (count + 1) (value * base + d)

/-- Nothing is behind what has been read that was not there before. -/
theorem readDigits_length (digit : UInt8 → Option Nat) (base limit count value : Nat) (text : List UInt8) :
    (readDigits digit base limit count value text).2.2.length ≤ text.length := by
  induction text generalizing limit count value with
  | nil =>
    cases limit with
    | zero => exact le_rfl
    | succ limit => exact le_rfl
  | cons c rest ih =>
    cases limit with
    | zero => exact le_rfl
    | succ limit =>
      rw [readDigits]
      split
      · exact le_trans (ih _ _ _) (Nat.le_succ _)
      · exact le_rfl

theorem readBraced_append {digits : List UInt8} (all : ∀ c ∈ digits, (escapeHexDigit c).isSome = true)
    (count codepoint : Nat) (fits : count + digits.length ≤ 6) (back : List UInt8) :
    readBraced count codepoint (digits ++ 125 :: back) = if count + digits.length ≠ 0 then
        some (digits.foldl (fun value c => value * 16 + (escapeHexDigit c).getD 0) codepoint, back) else none := by
  induction digits generalizing count codepoint with
  | nil => rfl
  | cons c rest ih =>
    obtain ⟨d, found⟩ := Option.isSome_iff_exists.mp (all c (.head _))
    have others : ∀ c ∈ rest, (escapeHexDigit c).isSome = true := fun c listed => all c (.tail _ listed)
    have no_brace : c ≠ 125 := by
      rintro rfl
      cases found
    rw [length_cons] at fits
    rw [cons_append, readBraced, if_neg no_brace, found]
    dsimp only
    rw [if_neg (by omega), ih others (count + 1) _ (by omega), foldl_cons, found, Option.getD_some,
      if_pos (by omega), if_pos (by rw [length_cons]; omega)]

theorem readBraced_some {text : List UInt8} {count codepoint value : Nat} (few : count ≤ 6)
    (read : readBraced count codepoint text = some (value, back)) :
    ∃ digits, (∀ c ∈ digits, (escapeHexDigit c).isSome = true) ∧ count + digits.length ≤ 6 ∧
      count + digits.length ≠ 0 ∧ text = digits ++ 125 :: back ∧
      digits.foldl (fun value c => value * 16 + (escapeHexDigit c).getD 0) codepoint = value := by
  induction text generalizing count codepoint with
  | nil => cases read
  | cons c rest ih =>
    rw [readBraced] at read
    split at read
    · next brace =>
      split at read
      · next some_digits =>
        injection read with read
        injection read with same same'
        subst brace same same'
        exact ⟨[], fun c listed => absurd listed not_mem_nil, few, some_digits, rfl, rfl⟩
      · cases read
    · split at read
      · next d found =>
        split at read
        · cases read
        · next room =>
          obtain ⟨digits, all, fits, some_digits, text, total⟩ := ih (by omega) read
          refine ⟨c :: digits, ?_, by rw [length_cons]; omega, by rw [length_cons]; omega, congrArg (c :: ·) text, ?_⟩
          · intro x listed
            rcases mem_cons.mp listed with rfl | listed
            · rw [found]
              rfl
            · exact all x listed
          · rw [foldl_cons, found]
            exact total
      · cases read

end Digits

/-! ## Rounds of the loop -/

section Rounds
variable {type : TokenType} {escapes : Bool} {c : UInt8} {rest back : List UInt8}

/-- What a read leaves in the text, and what it writes. -/
def Consumes (taken : Nat) (rest : List UInt8) (step : List UInt8 × List UInt8) : Prop :=
  step.1.length + step.2.length ≤ rest.length + taken ∧ step.2.length ≤ rest.length

theorem unicodeEscape_consumes {step : List UInt8 × List UInt8} (found : unicodeEscape rest = some step) :
    Consumes 2 rest step := by
  unfold unicodeEscape at found
  split at found
  · next text =>
    split at found
    · next codepoint behind read =>
      split at found
      · injection found with found
        obtain ⟨digits, all, fits, some_digits, split, -⟩ := readBraced_some (by decide) read
        have written := encodeUtf8_length codepoint
        rw [← found]
        unfold Consumes
        rw [split, length_cons, length_append, length_cons]
        dsimp only
        omega
      · cases found
    · cases found
  · cases found

theorem Consumes.ite {taken : Nat} {condition : Prop} [Decidable condition] {yes no : List UInt8 × List UInt8}
    (hy : Consumes taken rest yes) (hn : Consumes taken rest no) :
    Consumes taken rest (if condition then yes else no) := by
  split
  · exact hy
  · exact hn

theorem Consumes.same {taken : Nat} {bytes : List UInt8} (few : bytes.length ≤ taken) :
    Consumes taken rest (bytes, rest) := by
  unfold Consumes
  dsimp only
  omega

theorem Consumes.shorter {taken : Nat} {bytes behind : List UInt8} (few : bytes.length ≤ taken)
    (shorter : behind.length ≤ rest.length) : Consumes taken rest (bytes, behind) := by
  unfold Consumes
  dsimp only
  omega

theorem decodeEscape_consumes (c : UInt8) (rest : List UInt8) : Consumes 2 rest (decodeEscape c rest) := by
  have one (byte : UInt8) : Consumes 2 rest ([byte], rest) := .same (Nat.le_succ 1)
  have digits := readDigits_length escapeHexDigit 16 2 0 0 rest
  unfold decodeEscape
  refine .ite (one 10) (.ite (one 13) (.ite (one 9) (.ite (one 11) (.ite (one 12) (.ite (one 27) ?_)))))
  refine .ite (one 92) (.ite (one 39) (.ite (one 34) (.ite (one 36) ?_)))
  refine .ite (.ite (.shorter (le_refl 2) digits) (.shorter (Nat.le_succ 1) digits)) (.ite ?_ ?_)
  · split
    · next found => exact unicodeEscape_consumes found
    · exact .same (le_refl 2)
  · split
    · exact .shorter (Nat.le_succ 1) (readDigits_length octalDigit 8 2 1 _ rest)
    · exact .same (le_refl 2)

theorem decodeStep_consumes (type : TokenType) (escapes : Bool) (c : UInt8) (rest : List UInt8) :
    Consumes 1 rest (decodeStep type escapes c rest) := by
  unfold decodeStep
  split
  · exact .same (le_refl 1)
  · next next behind =>
    refine .ite (.same (le_refl 1)) (.ite (.same (le_refl 1)) (.ite ?_ ?_))
    · unfold Consumes
      simp only [length_cons, length_nil]
      omega
    · have step := decodeEscape_consumes next behind
      unfold Consumes at step ⊢
      rw [length_cons]
      omega

theorem decodeFrom_enough {bytes : Nat} {text : List UInt8} (enough : text.length ≤ bytes) :
    decodeFrom type escapes bytes text = decodeFrom type escapes text.length text := by
  induction bytes using Nat.strong_induction_on generalizing text with
  | _ bytes ih =>
    cases text with
    | nil => cases bytes <;> rfl
    | cons c rest =>
      obtain ⟨more, rfl⟩ : ∃ more, bytes = more + 1 := ⟨bytes - 1, by rw [length_cons] at enough; omega⟩
      have shorter := (decodeStep_consumes type escapes c rest).2
      rw [length_cons] at enough
      rw [length_cons, decodeFrom, decodeFrom]
      rw [ih more (by omega) (by omega), ih rest.length (by omega) shorter]

/-- The bytes that a text is decoded to. -/
def decoded (type : TokenType) (escapes : Bool) (text : List UInt8) : List UInt8 :=
  decodeFrom type escapes text.length text

@[simp] theorem decoded_nil : decoded type escapes [] = [] := rfl

/-- **The loop, round by round.** -/
theorem decoded_cons (c : UInt8) (rest : List UInt8) : decoded type escapes (c :: rest) =
    (decodeStep type escapes c rest).1 ++ decoded type escapes (decodeStep type escapes c rest).2 := by
  unfold decoded
  rw [length_cons, decodeFrom, decodeFrom_enough (decodeStep_consumes type escapes c rest).2]

/-- **The buffer is large enough**: nothing is longer decoded than it was written. -/
theorem decoded_length (type : TokenType) (escapes : Bool) (text : List UInt8) :
    (decoded type escapes text).length ≤ text.length := by
  induction size : text.length using Nat.strong_induction_on generalizing text with
  | _ n ih =>
    cases text with
    | nil => exact Nat.zero_le _
    | cons c rest =>
      obtain ⟨fits, shorter⟩ := decodeStep_consumes type escapes c rest
      rw [length_cons] at size
      have behind := ih _ (by omega) (decodeStep type escapes c rest).2 rfl
      rw [decoded_cons, length_append]
      omega

/-- Any byte but a backslash is written as it is. -/
theorem decoded_raw (plain : c ≠ 92) (rest : List UInt8) :
    decoded type escapes (c :: rest) = c :: decoded type escapes rest := by
  have step : decodeStep type escapes c rest = ([c], rest) := by
    cases rest with
    | nil => rfl
    | cons next behind => exact if_pos plain
  rw [decoded_cons, step]
  rfl

theorem decoded_escape (next : UInt8) (behind : List UInt8) : decoded .tDoubleQuoted true (92 :: next :: behind) =
      (decodeEscape next behind).1 ++ decoded .tDoubleQuoted true (decodeEscape next behind).2 := by
  have step : decodeStep .tDoubleQuoted true 92 (next :: behind) = decodeEscape next behind := rfl
  rw [decoded_cons, step]

end Rounds

/-! ## Braces -/

section Braces
variable {codepoint : Nat} {text rest back : List UInt8}

theorem braced_iff : Braced codepoint text back ↔
    ∃ rest, text = 123 :: rest ∧ readBraced 0 0 rest = some (codepoint, back) := by
  constructor
  · rintro ⟨digits, ⟨some_digits, few, all⟩, value, rfl⟩
    refine ⟨_, rfl, ?_⟩
    have more : 0 + digits.length ≠ 0 := by
      have := length_pos_iff.mpr some_digits
      omega
    rw [readBraced_append all 0 0 (by omega) back, if_pos more]
    exact congrArg (fun n => some (n, back)) value
  · rintro ⟨rest, rfl, read⟩
    obtain ⟨digits, all, few, more, split, value⟩ := readBraced_some (by decide) read
    have some_digits : digits ≠ [] := by
      rintro rfl
      exact more rfl
    exact ⟨digits, ⟨some_digits, by omega, all⟩, value, congrArg (123 :: ·) split⟩

theorem Braced.unique {codepoint' : Nat} {back' : List UInt8} (h : Braced codepoint text back)
    (h' : Braced codepoint' text back') : codepoint = codepoint' ∧ back = back' := by
  obtain ⟨rest, rfl, read⟩ := braced_iff.mp h
  obtain ⟨rest', same, read'⟩ := braced_iff.mp h'
  cases same
  have pair := Option.some.inj (read.symm.trans read')
  exact ⟨congrArg Prod.fst pair, congrArg Prod.snd pair⟩

theorem unicodeEscape_braced (braced : Braced codepoint text back) (within : codepoint ≤ 0x10ffff) :
    unicodeEscape text = some (encodeUtf8 codepoint, back) := by
  obtain ⟨rest, rfl, read⟩ := braced_iff.mp braced
  rw [unicodeEscape, read]
  exact if_pos (encodeUtf8_ne_nil within)

/-- Nothing else is. -/
theorem unicodeEscape_none (no_scalar : ¬ BracedScalar text) (no_surrogate : ¬ BracedSurrogate text) :
    unicodeEscape text = none := by
  unfold unicodeEscape
  split
  · next rest =>
    split
    · next codepoint behind read =>
      have braced : Braced codepoint (123 :: rest) behind := braced_iff.mpr ⟨rest, rfl, read⟩
      have beyond : 0x10ffff < codepoint := by
        by_contra within
        by_cases surrogate : 0xd800 ≤ codepoint ∧ codepoint ≤ 0xdfff
        · exact no_surrogate ⟨codepoint, behind, braced, surrogate⟩
        · refine no_scalar ⟨codepoint, behind, braced, ?_⟩
          unfold Nat.isValidChar
          omega
      rw [if_neg (not_not.mpr (encodeUtf8_beyond beyond))]
    · rfl
  · rfl

theorem scalar_within (scalar : codepoint.isValidChar) : codepoint ≤ 0x10ffff := by
  unfold Nat.isValidChar at scalar
  omega

theorem not_scalar_of_surrogate (surrogate : BracedSurrogate text) : ¬ BracedScalar text := by
  rintro ⟨codepoint, back, braced, scalar⟩
  obtain ⟨codepoint', back', braced', low, high⟩ := surrogate
  obtain ⟨rfl, -⟩ := braced.unique braced'
  unfold Nat.isValidChar at scalar
  omega

end Braces

/-! ## Pieces -/

section Pieces
variable {c : UInt8} {rest back : List UInt8}

theorem octal_cases (digit : (octalDigit c).isSome = true) :
    c = 48 ∨ c = 49 ∨ c = 50 ∨ c = 51 ∨ c = 52 ∨ c = 53 ∨ c = 54 ∨ c = 55 := by
  unfold octalDigit at digit
  split at digit
  · next range =>
    simp only [← UInt8.toNat_inj, UInt8.reduceToNat]
    omega
  · cases digit

theorem decodeEscape_braced {step : List UInt8 × List UInt8} (found : unicodeEscape rest = some step) :
    decodeEscape 117 rest = step := by
  unfold decodeEscape
  rw [found]
  rfl

theorem decodeEscape_plain (found : unicodeEscape rest = none) : decodeEscape 117 rest = ([92, 117], rest) := by
  unfold decodeEscape
  rw [found]
  rfl

theorem decodeEscape_octal {value : Nat} (digit : octalDigit c = some value) (rest : List UInt8) :
    decodeEscape c rest = ([UInt8.ofNat (readDigits octalDigit 8 2 1 value rest).2.1],
      (readDigits octalDigit 8 2 1 value rest).2.2) := by
  have octal := octal_cases (by rw [digit]; rfl)
  rcases octal with rfl | rfl | rfl | rfl | rfl | rfl | rfl | rfl <;> (cases digit; rfl)

theorem decodeEscape_other (plain : ¬ BeginsEscape (c :: rest)) (no_quote : c ≠ 39)
    (no_surrogate : c = 117 → ¬ BracedSurrogate rest) : decodeEscape c rest = ([92, c], rest) := by
  unfold BeginsEscape at plain
  simp only [not_or] at plain
  obtain ⟨no_letter, no_octal, no_hex, no_scalar⟩ := plain
  have letter (letter byte : UInt8) (listed : (letter, byte) ∈ letterEscapes) : c ≠ letter := by
    rintro rfl
    exact no_letter ⟨_, listed, rfl⟩
  unfold decodeEscape
  rw [if_neg (letter 110 10 (by decide)), if_neg (letter 114 13 (by decide)), if_neg (letter 116 9 (by decide)),
    if_neg (letter 118 11 (by decide)), if_neg (letter 102 12 (by decide)), if_neg (letter 101 27 (by decide)),
    if_neg (letter 92 92 (by decide)), if_neg no_quote, if_neg (letter 34 34 (by decide)),
    if_neg (letter 36 36 (by decide))]
  split
  · next x =>
    subst x
    have stop := readDigits_stop 16 (fun digits => no_hex ⟨rest, rfl, digits⟩) 2 0 0
    rw [stop]
    rfl
  split
  · next u =>
    subst u
    rw [unicodeEscape_none (fun scalar => no_scalar ⟨rest, rfl, scalar⟩) (no_surrogate rfl)]
  · have other : octalDigit c = none := by
      cases found : octalDigit c with
      | none => rfl
      | some d => exact absurd ⟨c, rest, rfl, by rw [found]; rfl⟩ no_octal
    rw [other]

/-- **Every piece is read as it is meant**, unless it is a misread backslash. -/
theorem decoded_piece {piece : Piece} (allowed : piece.Allowed back) (legible : ¬ piece.Misread back) :
    decoded .tDoubleQuoted true (piece.text ++ back) = piece.bytes ++ decoded .tDoubleQuoted true back := by
  cases piece with
  | raw c => exact decoded_raw allowed.1 back
  | named letter byte =>
    have escape : decodeEscape letter back = ([byte], back) := by
      simp only [Piece.Allowed, letterEscapes, mem_cons, Prod.mk.injEq, not_mem_nil, or_false] at allowed
      rcases allowed with ⟨rfl, rfl⟩ | ⟨rfl, rfl⟩ | ⟨rfl, rfl⟩ | ⟨rfl, rfl⟩ | ⟨rfl, rfl⟩ | ⟨rfl, rfl⟩ | ⟨rfl, rfl⟩ |
        ⟨rfl, rfl⟩ | ⟨rfl, rfl⟩ <;> rfl
    refine (decoded_escape letter back).trans ?_
    rw [escape]
    rfl
  | octal digits =>
    obtain ⟨⟨some_digits, few, all⟩, stop⟩ := allowed
    cases digits with
    | nil => exact absurd rfl some_digits
    | cons d ds =>
      obtain ⟨value, found⟩ := Option.isSome_iff_exists.mp (all d (.head _))
      rw [length_cons] at few stop
      have others : ∀ c ∈ ds, (octalDigit c).isSome = true := fun c listed => all c (mem_cons_of_mem d listed)
      have ends : ds.length = 2 ∨ ¬ BeginsWith octalDigit back := stop.imp_left fun same => by omega
      have read := readDigits_append 8 others (by omega) ends 1 value
      have escape := decodeEscape_octal found (ds ++ back)
      rw [read] at escape
      have total : digitsValue octalDigit 8 (d :: ds) =
          ds.foldl (fun value c => value * 8 + (octalDigit c).getD 0) value := by
        unfold digitsValue
        rw [foldl_cons, found, Option.getD_some, zero_mul, zero_add]
      refine (decoded_escape d (ds ++ back)).trans ?_
      rw [escape, ← total]
      rfl
  | hex digits =>
    obtain ⟨⟨some_digits, few, all⟩, stop⟩ := allowed
    have read := readDigits_append 16 all few stop 0 0
    have more : 0 + digits.length ≠ 0 := by
      have := length_pos_iff.mpr some_digits
      omega
    have code : decodeEscape 120 (digits ++ back) =
      if (readDigits escapeHexDigit 16 2 0 0 (digits ++ back)).1 = 0 then
        ([92, 120], (readDigits escapeHexDigit 16 2 0 0 (digits ++ back)).2.2)
      else ([UInt8.ofNat (readDigits escapeHexDigit 16 2 0 0 (digits ++ back)).2.1],
        (readDigits escapeHexDigit 16 2 0 0 (digits ++ back)).2.2) := rfl
    rw [read, if_neg more] at code
    refine (decoded_escape 120 (digits ++ back)).trans ?_
    rw [code]
    rfl
  | unicode digits =>
    obtain ⟨digits_there, scalar⟩ := allowed
    have braced : Braced (digitsValue escapeHexDigit 16 digits) (123 :: (digits ++ 125 :: back)) back :=
      ⟨digits, digits_there, rfl, rfl⟩
    have written : Piece.text (.unicode digits) ++ back = 92 :: 117 :: 123 :: (digits ++ 125 :: back) := by
      rw [Piece.text, cons_append, cons_append, cons_append, append_assoc]
      rfl
    rw [written, decoded_escape, decodeEscape_braced (unicodeEscape_braced braced (scalar_within scalar)),
      encodeUtf8_scalar scalar]
    rfl
  | backslash =>
    obtain ⟨more, plain⟩ := allowed
    cases back with
    | nil => exact absurd rfl more
    | cons c rest =>
      have no_quote : c ≠ 39 := by
        rintro rfl
        exact legible (.inl rfl)
      have no_surrogate : c = 117 → ¬ BracedSurrogate rest := by
        rintro rfl surrogate
        exact legible (.inr ⟨rest, rfl, surrogate⟩)
      have no_backslash : c ≠ 92 := by
        rintro rfl
        exact plain (.inl ⟨(92, 92), by decide, rfl⟩)
      refine (decoded_escape c rest).trans ?_
      rw [decodeEscape_other plain no_quote no_surrogate, decoded_raw no_backslash]
      rfl

/-- A misread backslash is lost. -/
theorem decoded_misread {piece : Piece} (misread : piece.Misread back) :
    piece.bytes = [92] ∧ (decoded .tDoubleQuoted true (piece.text ++ back)).head? ≠ some 92 := by
  cases piece with
  | backslash =>
    refine ⟨rfl, ?_⟩
    rcases misread with quote | ⟨rest, rfl, codepoint, behind, braced, low, high⟩
    · cases back with
      | nil => cases quote
      | cons c rest =>
        obtain rfl := Option.some.inj quote
        have read : decoded .tDoubleQuoted true (92 :: 39 :: rest) = [39] ++ decoded .tDoubleQuoted true rest :=
          decoded_escape 39 rest
        change (decoded .tDoubleQuoted true (92 :: 39 :: rest)).head? ≠ some 92
        rw [read]
        exact fun same => by cases same
    · obtain ⟨more, encoded⟩ := encodeUtf8_surrogate low high
      change (decoded .tDoubleQuoted true (92 :: 117 :: rest)).head? ≠ some 92
      rw [decoded_escape, decodeEscape_braced (unicodeEscape_braced braced (by omega)), encoded]
      exact fun same => by cases same
  | _ => exact absurd misread not_false

/-- **Text in double quotes means what it is read as, exactly if no backslash is misread.** -/
theorem decoded_written {pieces : List Piece} (well : WellWritten pieces) :
    decoded .tDoubleQuoted true (written pieces) = meant pieces ↔ Legible pieces := by
  induction pieces with
  | nil => exact iff_of_true rfl trivial
  | cons piece rest ih =>
    obtain ⟨allowed, others⟩ := well
    have text : written (piece :: rest) = piece.text ++ written rest := flatMap_cons
    have bytes : meant (piece :: rest) = piece.bytes ++ meant rest := flatMap_cons
    rw [text, bytes]
    by_cases misread : piece.Misread (written rest)
    · obtain ⟨backslash, other⟩ := decoded_misread misread
      refine iff_of_false (fun same => ?_) fun legible => legible.1 misread
      rw [same, backslash] at other
      exact other rfl
    · rw [decoded_piece allowed misread, append_cancel_left_eq, ih others]
      exact ⟨fun legible => ⟨misread, legible⟩, fun legible => legible.2⟩

/-- **Text in single quotes means what was escaped.** -/
theorem decoded_single (s : List UInt8) : decoded .tSingleQuoted false (singleQuotedText s) = s := by
  induction s with
  | nil => rfl
  | cons c rest ih =>
    have text : singleQuotedText (c :: rest) =
      (if c = 92 ∨ c = 39 then [92, c] else [c]) ++ singleQuotedText rest := flatMap_cons
    rw [text]
    by_cases special : c = 92 ∨ c = 39
    · rw [if_pos special]
      have escape : decodeStep .tSingleQuoted false 92 (c :: singleQuotedText rest) = ([c], singleQuotedText rest) := by
        rcases special with rfl | rfl <;> rfl
      change decoded .tSingleQuoted false (92 :: c :: singleQuotedText rest) = _
      rw [decoded_cons, escape]
      exact congrArg (c :: ·) ih
    · rw [if_neg special]
      exact (decoded_raw (fun backslash => special (.inl backslash)) _).trans (congrArg (c :: ·) ih)

/-- A scalar value in braces is encoded, and everything else is left as it is written. -/
def UnicodeLaw (rest : List UInt8) : Prop :=
  (∀ codepoint back, Braced codepoint rest back → codepoint.isValidChar →
    decoded .tDoubleQuoted true (92 :: 117 :: rest) =
      String.utf8EncodeChar (Char.ofNat codepoint) ++ decoded .tDoubleQuoted true back) ∧
  (¬ BracedScalar rest →
    decoded .tDoubleQuoted true (92 :: 117 :: rest) = 92 :: 117 :: decoded .tDoubleQuoted true rest)

/-- **Surrogates are encoded, too.** -/
theorem unicodeLaw_iff (rest : List UInt8) : UnicodeLaw rest ↔ ¬ BracedSurrogate rest := by
  constructor
  · intro law surrogate
    have left := law.2 (not_scalar_of_surrogate surrogate)
    have misread : Piece.Misread (117 :: rest) .backslash := .inr ⟨rest, rfl, surrogate⟩
    obtain ⟨-, other⟩ := decoded_misread misread
    change (decoded .tDoubleQuoted true (92 :: 117 :: rest)).head? ≠ some 92 at other
    rw [left] at other
    exact other rfl
  · intro no_surrogate
    refine ⟨fun codepoint back braced scalar => ?_, fun no_scalar => ?_⟩
    · rw [decoded_escape, decodeEscape_braced (unicodeEscape_braced braced (scalar_within scalar)),
        encodeUtf8_scalar scalar]
    · rw [decoded_escape, decodeEscape_plain (unicodeEscape_none no_scalar no_surrogate)]
      rfl

end Pieces

/-! ## Tokens -/

theorem decodedPart_quoted {type : TokenType} (quoted : type = .tSingleQuoted ∨ type = .tDoubleQuoted) (quote : UInt8)
    (inner : List UInt8) : decodedPart (quotedToken type quote inner) = (inner, decide (type = .tDoubleQuoted)) := by
  have long : 2 ≤ (quotedToken type quote inner).length := by
    unfold Token.length quotedToken
    rw [length_cons, length_append, length_singleton]
    omega
  have part : (quotedToken type quote inner).text.tail.dropLast = inner := dropLast_concat
  unfold decodedPart
  rw [if_pos ⟨quoted, long⟩, part]
  rfl

/-- **String literals are read as they are meant**: in single quotes always, and in double quotes exactly if no
backslash that should be left alone stands before a quote or a surrogate. A code point in braces is encoded if it is a
scalar value, or a surrogate; the buffer always suffices. -/
theorem string_literals (s : PString) (pieces : List Piece) (rest : List UInt8) (token : Token) :
    decodeString (true, true) (quotedToken .tSingleQuoted 39 (singleQuotedText s.bytes)) = some s ∧
    (WellWritten pieces → meant pieces = s.bytes →
      (decodeString (true, true) (quotedToken .tDoubleQuoted 34 (written pieces)) = some s ↔ Legible pieces)) ∧
    (UnicodeLaw rest ↔ ¬ BracedSurrogate rest) ∧ (decodedBytes token).length ≤ (decodedPart token).1.length := by
  have granted (token : Token) : decodeString (true, true) token = psNew (decodedBytes token) := rfl
  have single (inner : List UInt8) : decodedBytes (quotedToken .tSingleQuoted 39 inner) =
      decoded .tSingleQuoted false inner := by
    unfold decodedBytes
    rw [decodedPart_quoted (.inl rfl)]
    rfl
  have double (inner : List UInt8) : decodedBytes (quotedToken .tDoubleQuoted 34 inner) =
      decoded .tDoubleQuoted true inner := by
    unfold decodedBytes
    rw [decodedPart_quoted (.inr rfl)]
    rfl
  refine ⟨?_, fun well means => ?_, unicodeLaw_iff rest, ?_⟩
  · rw [granted, single, decoded_single]
    exact psNew_bytes s
  · rw [granted, double, ← decoded_written well, means]
    constructor
    · intro read
      unfold psNew at read
      split at read
      · exact congrArg PString.bytes (Option.some.inj read)
      · cases read
    · intro same
      rw [same]
      exact psNew_bytes s
  · exact decoded_length token.type (decodedPart token).2 (decodedPart token).1

theorem string_literals_octal :
    decodeString (true, true) (quotedToken .tDoubleQuoted 34 (written [.octal [49], .raw 56])) =
      some ⟨[1, 56], by decide⟩ := by
  have digits : Digits octalDigit 3 [49] := by
    refine ⟨by decide, by decide, ?_⟩
    intro c listed
    obtain rfl := mem_singleton.mp listed
    rfl
  have stop : ¬ BeginsWith octalDigit [56] := by
    rintro ⟨c, rest, same, digit⟩
    cases same
    cases digit
  have well : WellWritten [.octal [49], .raw 56] := ⟨⟨digits, .inr stop⟩, ⟨by decide, by decide⟩, trivial⟩
  have law := (string_literals ⟨[1, 56], by decide⟩ [.octal [49], .raw 56] [] (quotedToken .tDoubleQuoted 34 [])).2.1
  exact (law well (by decide)).mpr ⟨not_false, not_false, trivial⟩

/-- The surrogate D800 in braces is encoded, and so is `\'` in double quotes. -/
theorem surrogate_is_encoded :
    decodedBytes (quotedToken .tDoubleQuoted 34 [92, 117, 123, 68, 56, 48, 48, 125]) = [0xf0, 0x8d, 0xa0, 0x80] ∧
      ¬ UnicodeLaw [123, 68, 56, 48, 48, 125] ∧ decodedBytes (quotedToken .tDoubleQuoted 34 [92, 39]) = [39] := by
  have braced : Braced 0xd800 [123, 68, 56, 48, 48, 125] [] := by
    rw [braced_iff]
    exact ⟨[68, 56, 48, 48, 125], rfl, by decide⟩
  refine ⟨by decide, fun law => ?_, by decide⟩
  exact (unicodeLaw_iff _).mp law ⟨0xd800, [], braced, by decide, by decide⟩

end PhpPico.Compiler
