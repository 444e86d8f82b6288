import PhpPico.Compiler.Token

/-!
# The lexer

`pc_lexer_next` cuts one token off the source. Pointers are positions, a `NULL` that is compared with them is 0, and
behind the end `'\0'` is read. Loops run on the bytes that are left.
-/

namespace PhpPico.Compiler

/-- `pc_lexer_mode`. -/
inductive LexerMode where
  | normal | interpolation | interpolationExpr
deriving DecidableEq, Repr

/-- `pc_lexer`; the end of the source is its length. -/
structure Lexer where
  source : List UInt8
  current : Nat
  interpEnd : Option Nat
  interpExprEnd : Option Nat
  errorStart : Nat
  line : Nat
  column : Nat
  tokenLine : Nat
  tokenColumn : Nat
  interpBraces : Nat
  errorLine : Nat
  errorColumn : Nat
  inPhp : Bool
  repl : Bool
  pendingError : Bool
  mode : LexerMode
  error : List UInt8
deriving DecidableEq, Repr

/-- The bytes `"`, `'` and `\`. -/
def doubleQuote : UInt8 := 34

@[inherit_doc doubleQuote] def singleQuote : UInt8 := 39

@[inherit_doc doubleQuote] def backslash : UInt8 := 92

/-- The byte `\n`. -/
def newline : UInt8 := 10

/-- What `%02x` prints of a byte. -/
def printHex2 (value : UInt8) : List UInt8 :=
  (Nat.toDigits 16 (value.toNat / 16) ++ Nat.toDigits 16 (value.toNat % 16)).map fun digit =>
    UInt8.ofNat digit.toNat

namespace Lexer

/-! ## Reading -/

/-- The byte a pointer shows to. -/
def byteAt (lexer : Lexer) (position : Nat) : UInt8 := lexer.source.getD position 0

/-- The bytes that are left. -/
def left (lexer : Lexer) : Nat := lexer.source.length - lexer.current

/-- `at_end`. -/
def atEnd (lexer : Lexer) : Bool := lexer.source.length ≤ lexer.current

/-- `peek`. -/
def peek (lexer : Lexer) : UInt8 := lexer.byteAt lexer.current

/-- `peek_next`. -/
def peekNext (lexer : Lexer) : UInt8 := lexer.byteAt (lexer.current + 1)

/-- `memcmp` with the bytes at `current`. -/
def startsWith (lexer : Lexer) (text : List UInt8) : Bool := text.isPrefixOf (lexer.source.drop lexer.current)

/-- The bytes between two pointers. -/
def slice (lexer : Lexer) (start stop : Nat) : List UInt8 :=
  (List.range (stop - start)).map fun i => lexer.byteAt (start + i)

/-- `advance`. -/
def advance (lexer : Lexer) : Lexer :=
  if lexer.peek = newline then { lexer with current := lexer.current + 1, line := lexer.line + 1, column := 1 }
  else { lexer with current := lexer.current + 1, column := lexer.column + 1 }

/-- Whether `match_char` matches. -/
def canMatch (lexer : Lexer) (expected : UInt8) : Bool := !lexer.atEnd && lexer.peek == expected

/-- A loop that advances while a condition holds. -/
def advanceWhile (condition : Lexer → Bool) : Nat → Lexer → Lexer
  | 0, lexer => lexer
  | bytes + 1, lexer => if condition lexer then advanceWhile condition bytes lexer.advance else lexer

/-- The same loop on the bytes that are left. -/
def skipWhile (lexer : Lexer) (condition : Lexer → Bool) : Lexer := advanceWhile condition lexer.left lexer

/-! ## Tokens -/

/-- `make_token`. -/
def makeToken (lexer : Lexer) (type : TokenType) (start : Nat) : Token × Lexer :=
  (⟨type, start, lexer.slice start lexer.current, lexer.tokenLine, lexer.tokenColumn⟩, lexer)

/-- `error_token`. -/
def errorToken (lexer : Lexer) (start : Nat) (message : List UInt8) : Token × Lexer :=
  makeToken { lexer with error := clip 160 message } .tError start

/-- `make_token` with the type that `match_char` selects. -/
def makeEither (lexer : Lexer) (expected : UInt8) (yes no : TokenType) (start : Nat) : Token × Lexer :=
  if lexer.canMatch expected then lexer.advance.makeToken yes start else lexer.makeToken no start

/-- The position of the next token. -/
def markToken (lexer : Lexer) : Lexer := { lexer with tokenLine := lexer.line, tokenColumn := lexer.column }

/-- `scan_identifier`. -/
def scanIdentifier (lexer : Lexer) (start : Nat) : Token × Lexer :=
  let lexer := lexer.skipWhile fun lexer => !lexer.atEnd && isIdentifierPart lexer.peek
  lexer.makeToken (identifierType (lexer.slice start lexer.current)) start

/-! ## Numbers -/

/-- `is_digit_for_base`. -/
def isDigitForBase (value : UInt8) (base : Nat) : Bool :=
  if 48 ≤ value && value ≤ 57 then value.toNat - 48 < base
  else if (97 ≤ value && value ≤ 102) || (65 ≤ value && value ≤ 70) then base == 16
  else false

/-- The loop of `scan_digits`. -/
def digitsFrom (base : Nat) : Nat → Nat → Bool → Lexer → Nat × Lexer
  | 0, count, _, lexer => (count, lexer)
  | bytes + 1, count, underscore, lexer =>
    if lexer.atEnd then (count, lexer)
    else if isDigitForBase lexer.peek base then digitsFrom base bytes (count + 1) false lexer.advance
    else if lexer.peek = '_'.toUInt8 && !underscore && 0 < lexer.current &&
        isDigitForBase (lexer.byteAt (lexer.current - 1)) base &&
        lexer.current + 1 < lexer.source.length && isDigitForBase lexer.peekNext base then
      digitsFrom base bytes count true lexer.advance
    else (count, lexer)

/-- `scan_digits`. -/
def scanDigits (lexer : Lexer) (base : Nat) : Nat × Lexer := digitsFrom base lexer.left 0 false lexer

/-- The base a prefix of `scan_number` stands for. -/
def prefixBase (value : UInt8) : Option Nat :=
  if value = 'x'.toUInt8 || value = 'X'.toUInt8 then some 16
  else if value = 'b'.toUInt8 || value = 'B'.toUInt8 then some 2
  else if value = 'o'.toUInt8 || value = 'O'.toUInt8 then some 8
  else none

/-- The sign of an exponent. -/
def scanSign (lexer : Lexer) : Lexer :=
  if lexer.peek = '+'.toUInt8 || lexer.peek = '-'.toUInt8 then lexer.advance else lexer

/-- The exponent of `scan_number`: whether there is one. -/
def scanExponent (lexer : Lexer) : Bool × Lexer :=
  if !lexer.atEnd && (lexer.peek = 'e'.toUInt8 || lexer.peek = 'E'.toUInt8) then
    let digits := lexer.advance.scanSign.scanDigits 10
    if digits.1 = 0 then (false, { digits.2 with current := lexer.current, column := lexer.column })
    else (true, digits.2)
  else (false, lexer)

/-- `scan_number` behind the digits of the integer part. -/
def scanFraction (lexer : Lexer) (start : Nat) (isFloat : Bool) : Token × Lexer :=
  let fraction := !lexer.atEnd && lexer.peek = '.'.toUInt8 && lexer.peekNext ≠ '.'.toUInt8
  let lexer := if fraction then (lexer.advance.scanDigits 10).2 else lexer
  let exponent := lexer.scanExponent
  exponent.2.makeToken (if isFloat || fraction || exponent.1 then .tFloat else .tInteger) start

/-- `scan_number`. -/
def scanNumber (lexer : Lexer) (start : Nat) (leadingDot : Bool) : Token × Lexer :=
  let base := if !leadingDot && lexer.byteAt start = '0'.toUInt8 && !lexer.atEnd then prefixBase lexer.peek else none
  match base with
  | some base =>
    let digits := lexer.advance.scanDigits base
    if digits.1 = 0 then
      digits.2.errorToken start
        (ascii "expected base-" ++ printUnsigned base ++ ascii " digit after numeric prefix")
    else digits.2.makeToken .tInteger start
  | none => scanFraction (lexer.scanDigits 10).2 start leadingDot

/-! ## Strings -/

/-- The loop of `find_double_quote_end`. -/
def quoteEndFrom (lexer : Lexer) : Nat → Nat → Option Nat
  | 0, _ => none
  | bytes + 1, cursor =>
    if lexer.source.length ≤ cursor then none
    else if lexer.byteAt cursor = backslash && cursor + 1 < lexer.source.length then
      lexer.quoteEndFrom bytes (cursor + 2)
    else if lexer.byteAt cursor = doubleQuote then some cursor
    else lexer.quoteEndFrom bytes (cursor + 1)

/-- `find_double_quote_end`. -/
def findDoubleQuoteEnd (lexer : Lexer) : Option Nat := lexer.quoteEndFrom lexer.left lexer.current

/-- Where a variable of an interpolated string may start, before `stop`. -/
def variableAt (lexer : Lexer) (cursor stop : Nat) : Bool :=
  lexer.byteAt cursor = '$'.toUInt8 && cursor + 1 < stop && isIdentifierStart (lexer.byteAt (cursor + 1))

/-- Where an expression in braces may start, before `stop`. -/
def bracesAt (lexer : Lexer) (cursor stop : Nat) : Bool :=
  lexer.byteAt cursor = '{'.toUInt8 && cursor + 2 < stop && lexer.byteAt (cursor + 1) = '$'.toUInt8

/-- The loop of `contains_interpolation`. -/
def interpolationFrom (lexer : Lexer) (stop : Nat) : Nat → Nat → Bool
  | 0, _ => false
  | bytes + 1, cursor =>
    if stop ≤ cursor then false
    else if lexer.byteAt cursor = backslash && cursor + 1 < stop then lexer.interpolationFrom stop bytes (cursor + 2)
    else if lexer.variableAt cursor stop then true
    else if lexer.bracesAt cursor stop && isIdentifierStart (lexer.byteAt (cursor + 2)) then true
    else lexer.interpolationFrom stop bytes (cursor + 1)

/-- `contains_interpolation`. -/
def containsInterpolation (lexer : Lexer) (start stop : Nat) : Bool :=
  lexer.interpolationFrom stop (stop - start) start

/-- The loop of `scan_quoted`: whether the quote was found. -/
def scanToQuote (quote : UInt8) : Nat → Lexer → Bool × Lexer
  | 0, lexer => (false, lexer)
  | bytes + 1, lexer =>
    if lexer.atEnd then (false, lexer)
    else if lexer.peek = quote then (true, lexer.advance)
    else if lexer.peek = backslash && !lexer.advance.atEnd then scanToQuote quote bytes lexer.advance.advance
    else scanToQuote quote bytes lexer.advance

/-- `scan_quoted` where nothing is interpolated. -/
def scanPlain (lexer : Lexer) (start : Nat) (quote : UInt8) : Token × Lexer :=
  let closing := scanToQuote quote lexer.left lexer
  if closing.1 then closing.2.makeToken (if quote = singleQuote then .tSingleQuoted else .tDoubleQuoted) start
  else closing.2.errorToken start
    (ascii "unterminated " ++ (if quote = singleQuote then ascii "single" else ascii "double") ++
      ascii "-quoted string")

/-- `scan_quoted`. -/
def scanQuoted (lexer : Lexer) (start : Nat) (quote : UInt8) : Token × Lexer :=
  if quote = doubleQuote then
    match lexer.findDoubleQuoteEnd with
    | none => (lexer.skipWhile fun lexer => !lexer.atEnd).errorToken start (ascii "unterminated double-quoted string")
    | some stop =>
      if lexer.containsInterpolation lexer.current stop then
        { lexer with interpEnd := some stop, mode := .interpolation }.makeToken .tInterpStart start
      else lexer.scanPlain start quote
  else lexer.scanPlain start quote

/-! ## Heredocs -/

/-- `is_line_end`. -/
def isLineEnd (value : UInt8) : Bool := value = newline || value = 13 || value = 0

/-- `starts_open_tag`. -/
def startsOpenTag (lexer : Lexer) : Bool :=
  lexer.startsWith (ascii "<?=") ||
  (lexer.startsWith (ascii "<?php") && (lexer.current + 5 = lexer.source.length ||
      let behind := lexer.byteAt (lexer.current + 5)
      behind = ' '.toUInt8 || behind = 9 || behind = 13 || behind = newline))

/-- The loop over the label of `scan_heredoc`: whether the label fits. -/
def scanLabel : Nat → Nat → Lexer → Bool × Lexer
  | 0, _, lexer => (true, lexer)
  | bytes + 1, labelLength, lexer =>
    if lexer.atEnd || !isIdentifierPart lexer.peek then (true, lexer)
    else if 64 ≤ labelLength + 1 then (false, lexer)
    else scanLabel bytes (labelLength + 1) lexer.advance

/-- Whether the label closes a heredoc here. -/
def closesHeredoc (lexer : Lexer) (label : List UInt8) : Bool :=
  lexer.startsWith label &&
  (lexer.current + label.length = lexer.source.length ||
    let behind := lexer.byteAt (lexer.current + label.length)
    behind = ';'.toUInt8 || isLineEnd behind)

/-- The indentation of a line of `scan_heredoc`. -/
def skipIndentation (lexer : Lexer) : Lexer :=
  lexer.skipWhile fun lexer => lexer.peek = ' '.toUInt8 || lexer.peek = 9

/-- A line of `scan_heredoc` that is not the last. -/
def skipLine (lexer : Lexer) : Lexer :=
  let lineEnd := lexer.skipWhile fun lexer => !lexer.atEnd && lexer.peek ≠ newline
  if lineEnd.atEnd then lineEnd else lineEnd.advance

/-- The loop over the lines of `scan_heredoc`: whether the closing label was found. -/
def scanLines (label : List UInt8) : Nat → Lexer → Bool × Lexer
  | 0, lexer => (false, lexer)
  | bytes + 1, lexer =>
    if lexer.atEnd then (false, lexer)
    else
      let candidate := lexer.skipIndentation
      if candidate.closesHeredoc label then
        (true, { candidate with
          current := candidate.current + label.length, column := candidate.column + label.length })
      else scanLines label bytes { candidate with current := lexer.current, column := 1 }.skipLine

/-- `scan_heredoc` behind the label. -/
def scanBody (lexer : Lexer) (start : Nat) (label : List UInt8) (nowdoc : Bool) : Token × Lexer :=
  let lexer := if lexer.peek = 13 then lexer.advance else lexer
  if lexer.canMatch newline then
    let closing := scanLines label lexer.advance.left lexer.advance
    if closing.1 then closing.2.makeToken (if nowdoc then .tNowdoc else .tHeredoc) start
    else closing.2.errorToken start (ascii "unterminated heredoc " ++ printed label)
  else lexer.errorToken start (ascii "expected newline after heredoc label")

/-- `scan_heredoc`. -/
def scanHeredoc (lexer : Lexer) (start : Nat) : Token × Lexer :=
  let quote := if lexer.peek = singleQuote || lexer.peek = doubleQuote then some lexer.peek else none
  let opening := if quote.isSome then lexer.advance else lexer
  let closing := scanLabel opening.left 0 opening
  let behind := closing.2
  let label := behind.slice opening.current behind.current
  if !closing.1 then behind.errorToken start (ascii "heredoc label is too long")
  else if label.length = 0 then behind.errorToken start (ascii "invalid heredoc label")
  else
    match quote with
    | none => behind.scanBody start label false
    | some quote =>
      if behind.canMatch quote then behind.advance.scanBody start label (quote = singleQuote)
      else behind.errorToken start (ascii "invalid heredoc label")

/-! ## Between the tokens -/

/-- The rest of a line comment: a closing tag ends it. -/
def skipLineComment (lexer : Lexer) : Lexer :=
  lexer.skipWhile fun lexer => !lexer.atEnd &&
    (lexer.peek ≠ newline && !(lexer.peek = '?'.toUInt8 && lexer.peekNext = '>'.toUInt8))

/-- The rest of a block comment up to `*/`. -/
def skipBlockComment (lexer : Lexer) : Lexer :=
  lexer.skipWhile fun lexer => !lexer.atEnd && !(lexer.peek = '*'.toUInt8 && lexer.peekNext = '/'.toUInt8)

/-- `skip_space_and_comments`. -/
def skipSpaceAndComments : Nat → Lexer → Lexer
  | 0, lexer => lexer
  | bytes + 1, lexer =>
    if lexer.atEnd then lexer
    else if lexer.peek = ' '.toUInt8 || lexer.peek = 9 || lexer.peek = 13 || lexer.peek = newline then
      skipSpaceAndComments bytes lexer.advance
    else if lexer.peek = '#'.toUInt8 || (lexer.peek = '/'.toUInt8 && lexer.peekNext = '/'.toUInt8) then
      skipSpaceAndComments bytes lexer.skipLineComment
    else if lexer.peek = '/'.toUInt8 && lexer.peekNext = '*'.toUInt8 then
      let closing := lexer.advance.advance.skipBlockComment
      if closing.atEnd then
        { closing with
          errorStart := lexer.current, errorLine := lexer.line, errorColumn := lexer.column,
          pendingError := true, error := clip 160 (ascii "unterminated block comment") }
      else skipSpaceAndComments bytes closing.advance.advance
    else lexer

/-- `scan_inline_html`. -/
def scanInlineHtml (lexer : Lexer) : Token × Lexer :=
  (lexer.markToken.skipWhile fun lexer =>
    !lexer.atEnd && !(lexer.peek = '<'.toUInt8 && lexer.startsOpenTag)).makeToken .tInlineHtml lexer.current

/-! ## Interpolation -/

/-- The end of the identifier at `cursor`, before `stop`. -/
def identifierEnd (lexer : Lexer) (stop : Nat) : Nat → Nat → Nat
  | 0, cursor => cursor
  | bytes + 1, cursor =>
    if cursor < stop && isIdentifierPart (lexer.byteAt cursor) then lexer.identifierEnd stop bytes (cursor + 1)
    else cursor

/-- The first `]` at or behind `closing`, before `stop`. -/
def bracketEnd (lexer : Lexer) (stop : Nat) : Nat → Nat → Nat
  | 0, closing => closing
  | bytes + 1, closing =>
    if closing < stop && lexer.byteAt closing ≠ ']'.toUInt8 then lexer.bracketEnd stop bytes (closing + 1)
    else closing

/-- `tail_end` in `lex_interpolation`: the end of an index or a property behind a variable. -/
def tailEnd (lexer : Lexer) (stop : Nat) : Option Nat :=
  let cursor := lexer.identifierEnd stop (stop - (lexer.current + 2)) (lexer.current + 2)
  if cursor < stop && lexer.byteAt cursor = '['.toUInt8 then
    let closing := lexer.bracketEnd stop (stop - (cursor + 1)) (cursor + 1)
    if closing < stop then some (closing + 1) else none
  else if cursor + 2 < stop && lexer.byteAt cursor = '-'.toUInt8 && lexer.byteAt (cursor + 1) = '>'.toUInt8 &&
      isIdentifierStart (lexer.byteAt (cursor + 2)) then
    some (lexer.identifierEnd stop (stop - (cursor + 3)) (cursor + 3))
  else none

/-- The loop of `lex_interpolation` over the text between two expressions. -/
def scanPart (stop : Nat) : Nat → Lexer → Lexer
  | 0, lexer => lexer
  | bytes + 1, lexer =>
    if stop ≤ lexer.current then lexer
    else if lexer.peek = backslash && lexer.current + 1 < stop then scanPart stop bytes lexer.advance.advance
    else if lexer.variableAt lexer.current stop || lexer.bracesAt lexer.current stop then lexer
    else scanPart stop bytes lexer.advance

/-- `lex_interpolation`. -/
def lexInterpolation (lexer : Lexer) : Token × Lexer :=
  let start := lexer.current
  let stop := lexer.interpEnd.getD 0
  let lexer := lexer.markToken
  if stop ≤ start then
    { lexer.advance with mode := .normal, interpEnd := none }.makeToken .tInterpEnd start
  else if lexer.variableAt start stop then
    match lexer.tailEnd stop with
    | some tailEnd =>
      { lexer with interpExprEnd := some tailEnd, mode := .interpolationExpr }.makeToken .tInterpExprStart start
    | none =>
      (lexer.advance.skipWhile fun lexer =>
        lexer.current < stop && isIdentifierPart lexer.peek).makeToken .tVariable start
  else if lexer.bracesAt start stop && isIdentifierStart (lexer.byteAt (start + 2)) then
    { lexer.advance with mode := .interpolationExpr, interpBraces := 0 }.makeToken .tInterpExprStart start
  else (scanPart stop (stop - start) lexer).makeToken .tInterpPart start

/-! ## Operators -/

/-- `scan_operator`; `value` is the byte at `start`. -/
def scanOperator (lexer : Lexer) (start : Nat) (value : UInt8) : Token × Lexer :=
  if value = '('.toUInt8 then lexer.makeToken .tLparen start
  else if value = ')'.toUInt8 then lexer.makeToken .tRparen start
  else if value = '{'.toUInt8 then lexer.makeToken .tLbrace start
  else if value = '}'.toUInt8 then lexer.makeToken .tRbrace start
  else if value = '['.toUInt8 then lexer.makeToken .tLbracket start
  else if value = ']'.toUInt8 then lexer.makeToken .tRbracket start
  else if value = ';'.toUInt8 then lexer.makeToken .tSemicolon start
  else if value = ':'.toUInt8 then lexer.makeEither ':'.toUInt8 .tScope .tColon start
  else if value = ','.toUInt8 then lexer.makeToken .tComma start
  else if value = '~'.toUInt8 then lexer.makeToken .tTilde start
  else if value = '.'.toUInt8 then
    if lexer.canMatch '.'.toUInt8 then
      if lexer.advance.canMatch '.'.toUInt8 then lexer.advance.advance.makeToken .tEllipsis start
      else lexer.advance.errorToken start (ascii "unexpected '..'")
    else lexer.makeEither '='.toUInt8 .tDotEqual .tDot start
  else if value = '+'.toUInt8 then
    if lexer.canMatch '+'.toUInt8 then lexer.advance.makeToken .tPlusPlus start
    else lexer.makeEither '='.toUInt8 .tPlusEqual .tPlus start
  else if value = '-'.toUInt8 then
    if lexer.canMatch '-'.toUInt8 then lexer.advance.makeToken .tMinusMinus start
    else if lexer.canMatch '>'.toUInt8 then lexer.advance.makeToken .tArrow start
    else lexer.makeEither '='.toUInt8 .tMinusEqual .tMinus start
  else if value = '*'.toUInt8 then
    if lexer.canMatch '*'.toUInt8 then lexer.advance.makeEither '='.toUInt8 .tPowEqual .tPow start
    else lexer.makeEither '='.toUInt8 .tStarEqual .tStar start
  else if value = '/'.toUInt8 then lexer.makeEither '='.toUInt8 .tSlashEqual .tSlash start
  else if value = '%'.toUInt8 then lexer.makeEither '='.toUInt8 .tPercentEqual .tPercent start
  else if value = '^'.toUInt8 then lexer.makeEither '='.toUInt8 .tCaretEqual .tCaret start
  else if value = '&'.toUInt8 then
    if lexer.canMatch '&'.toUInt8 then lexer.advance.makeToken .tBoolAnd start
    else lexer.makeEither '='.toUInt8 .tAmpEqual .tAmp start
  else if value = '|'.toUInt8 then
    if lexer.canMatch '|'.toUInt8 then lexer.advance.makeToken .tBoolOr start
    else lexer.makeEither '='.toUInt8 .tPipeEqual .tPipe start
  else if value = '!'.toUInt8 then
    if lexer.canMatch '='.toUInt8 then lexer.advance.makeEither '='.toUInt8 .tNotIdentical .tNotEqual start
    else lexer.makeToken .tBang start
  else if value = '='.toUInt8 then
    if lexer.canMatch '='.toUInt8 then lexer.advance.makeEither '='.toUInt8 .tIdentical .tEqualEqual start
    else lexer.makeEither '>'.toUInt8 .tDoubleArrow .tEqual start
  else if value = '<'.toUInt8 then
    if lexer.canMatch '='.toUInt8 then lexer.advance.makeEither '>'.toUInt8 .tSpaceship .tLtEqual start
    else if lexer.canMatch '<'.toUInt8 then
      lexer.advance.makeEither '='.toUInt8 .tShiftLeftEqual .tShiftLeft start
    else lexer.makeEither '>'.toUInt8 .tNotEqual .tLt start
  else if value = '>'.toUInt8 then
    if lexer.canMatch '>'.toUInt8 then
      lexer.advance.makeEither '='.toUInt8 .tShiftRightEqual .tShiftRight start
    else lexer.makeEither '='.toUInt8 .tGtEqual .tGt start
  else if value = '?'.toUInt8 then
    if lexer.canMatch '?'.toUInt8 then lexer.advance.makeEither '='.toUInt8 .tCoalesceEqual .tCoalesce start
    else if lexer.startsWith (ascii "->") then lexer.advance.advance.makeToken .tNullsafeArrow start
    else lexer.makeToken .tQuestion start
  else lexer.errorToken start (ascii "unexpected byte 0x" ++ printHex2 value)

/-! ## The next token -/

/-- The token that starts at a byte of the program; `lexer` stands behind that byte. -/
def scanToken (lexer : Lexer) (start : Nat) (value : UInt8) : Token × Lexer :=
  if isIdentifierStart value then lexer.scanIdentifier start
  else if 48 ≤ value && value ≤ 57 then lexer.scanNumber start false
  else if value = '.'.toUInt8 && (48 ≤ lexer.peek && lexer.peek ≤ 57) then lexer.scanNumber start true
  else if value = '$'.toUInt8 then
    if isIdentifierStart lexer.peek then
      (lexer.skipWhile fun lexer => !lexer.atEnd && isIdentifierPart lexer.peek).makeToken .tVariable start
    else lexer.errorToken start (ascii "expected identifier after '$'")
  else if value = singleQuote || value = doubleQuote then lexer.scanQuoted start value
  else if value = '<'.toUInt8 && lexer.startsWith (ascii "<<") then lexer.advance.advance.scanHeredoc start
  else lexer.scanOperator start value

/-- `pc_lexer_next` behind the byte at `start`: braces of an interpolated expression are counted. -/
def lexByte (lexer : Lexer) (start : Nat) (value : UInt8) : Token × Lexer :=
  if lexer.mode = .interpolationExpr then
    if value = '}'.toUInt8 && lexer.interpBraces = 0 then
      { lexer with mode := .interpolation }.makeToken .tInterpExprEnd start
    else if value = '{'.toUInt8 then { lexer with interpBraces := lexer.interpBraces + 1 }.scanToken start value
    else if value = '}'.toUInt8 then { lexer with interpBraces := lexer.interpBraces - 1 }.scanToken start value
    else lexer.scanToken start value
  else lexer.scanToken start value

/-- `pc_lexer_next` behind blanks and comments. -/
def lexProgram (lexer : Lexer) : Token × Lexer :=
  if lexer.pendingError then
    (⟨.tError, lexer.errorStart, lexer.slice lexer.errorStart lexer.current, lexer.errorLine, lexer.errorColumn⟩,
      { lexer with pendingError := false })
  else
    let lexer := lexer.markToken
    let start := lexer.current
    if lexer.atEnd then lexer.makeToken .tEof start
    else if !lexer.inPhp && lexer.startsOpenTag && lexer.startsWith (ascii "<?php") then
      { lexer with current := start + 5, column := lexer.column + 5, inPhp := true }.makeToken .tOpenTag start
    else if !lexer.inPhp && lexer.startsWith (ascii "<?=") then
      { lexer with current := start + 3, column := lexer.column + 3, inPhp := true }.makeToken .tOpenTagEcho start
    else if lexer.inPhp && lexer.peek = '?'.toUInt8 && lexer.peekNext = '>'.toUInt8 then
      { lexer.advance.advance with inPhp := lexer.repl }.makeToken .tCloseTag start
    else lexer.advance.lexByte start lexer.peek

/-- `pc_lexer_next` outside of interpolated text. -/
def lexCode (lexer : Lexer) : Token × Lexer :=
  if !lexer.inPhp && !lexer.atEnd && !(lexer.peek = '<'.toUInt8 && lexer.startsOpenTag) then lexer.scanInlineHtml
  else (skipSpaceAndComments lexer.left lexer).lexProgram

/-- Whether an interpolated expression that ends by position is over. -/
def expressionOver (lexer : Lexer) : Bool :=
  lexer.mode = .interpolationExpr &&
    match lexer.interpExprEnd with
    | some stop => stop ≤ lexer.current
    | none => false

/-- `pc_lexer_next`. -/
def pcLexerNext (lexer : Lexer) : Token × Lexer :=
  if lexer.mode = .interpolation then lexer.lexInterpolation
  else if lexer.expressionOver then
    { lexer with mode := .interpolation, interpExprEnd := none }.markToken.makeToken .tInterpExprEnd lexer.current
  else lexer.lexCode

end Lexer

/-- `pc_lexer_init`. -/
def pcLexerInit (source : List UInt8) (repl : Bool) : Lexer :=
  { source, current := 0, interpEnd := none, interpExprEnd := none, errorStart := 0, line := 1, column := 1,
    tokenLine := 0, tokenColumn := 0, interpBraces := 0, errorLine := 0, errorColumn := 0, inPhp := repl, repl,
    pendingError := false, mode := .normal, error := [] }

end PhpPico.Compiler
