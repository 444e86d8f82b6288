import PhpPico.Json.Encode

/-!
# Decoding JSON

`json_decode` is a recursive descent parser. Failure is the flag `failed`, but `parse_string` also returns nothing
without a word where the text does not begin with a quotation mark. The parser counts the blocks its values take, and
asks the allocator wherever it needs memory.
-/

namespace PhpPico.Json

/-- `json_parser`: the bytes from `position` on, the answers the allocator is going to give, how many blocks there
are, and whether an object was left because a name did not begin with a quotation mark. -/
structure Parser where
  rest : List UInt8
  depth : Nat
  failed : Bool
  memory : List Bool
  live : Int
  nameless : Bool

/-- How many blocks a key takes. -/
def keyBlocks : Key → Nat
  | .int _ => 0
  | .string _ => 1

mutual

/-- How many blocks a value takes. -/
def Value.blocks : Value → Nat
  | .string _ => 1
  | .array entries => 1 + blocksOf entries
  | _ => 0

def blocksOf : List (Key × Value) → Nat
  | [] => 0
  | (key, value) :: rest => keyBlocks key + value.blocks + blocksOf rest

end

namespace Parser

def fail (p : Parser) : Parser := { p with failed := true }

/-- Ask the allocator. -/
def ask (p : Parser) : Bool × Parser :=
  match p.memory with
  | [] => (true, p)
  | granted :: memory => (granted, { p with memory := memory })

/-- `pv_release` of a value the parser has made. -/
def release (p : Parser) (v : Value) : Parser := { p with live := p.live - v.blocks }

/-- A byte `skip_space` passes over. -/
def isSpace (byte : UInt8) : Bool := byte = 32 || byte = 9 || byte = 10 || byte = 13

/-- `skip_space`. -/
def skipSpace (p : Parser) : Parser := { p with rest := p.rest.dropWhile isSpace }

end Parser

/-! ## Strings -/

/-- `hex_digit`. -/
def hexValue (byte : UInt8) : Option Nat :=
  if 48 ≤ byte ∧ byte ≤ 57 then some (byte.toNat - 48)
  else if 97 ≤ byte ∧ byte ≤ 102 then some (byte.toNat - 87)
  else if 65 ≤ byte ∧ byte ≤ 70 then some (byte.toNat - 55)
  else none

/-- `read_hex4`. -/
def readHex4 : List UInt8 → Option (Nat × List UInt8)
  | a :: b :: c :: d :: rest => do
    let a ← hexValue a
    let b ← hexValue b
    let c ← hexValue c
    let d ← hexValue d
    return (((a * 16 + b) * 16 + c) * 16 + d, rest)
  | _ => none

/-- What `append_codepoint` writes. -/
def codepointBytes (codepoint : Nat) : List UInt8 :=
  if codepoint ≤ 0x7f then [UInt8.ofNat codepoint]
  else if codepoint ≤ 0x7ff then [UInt8.ofNat (0xc0 + codepoint / 64), UInt8.ofNat (0x80 + codepoint % 64)]
  else if codepoint ≤ 0xffff then
    [UInt8.ofNat (0xe0 + codepoint / 4096), UInt8.ofNat (0x80 + codepoint / 64 % 64),
      UInt8.ofNat (0x80 + codepoint % 64)]
  else
    [UInt8.ofNat (0xf0 + codepoint / 262144), UInt8.ofNat (0x80 + codepoint / 4096 % 64),
      UInt8.ofNat (0x80 + codepoint / 64 % 64), UInt8.ofNat (0x80 + codepoint % 64)]

/-- The code point behind `\u`: a high surrogate takes the low one that must follow along. -/
def readCodepoint (rest : List UInt8) : Option (Nat × List UInt8) := do
  let (codepoint, rest) ← readHex4 rest
  if 0xd800 ≤ codepoint ∧ codepoint ≤ 0xdbff then
    match rest with
    | 92 :: 117 :: rest =>
      let (low, rest) ← readHex4 rest
      if low < 0xdc00 ∨ 0xdfff < low then none
      else some (0x10000 + (codepoint - 0xd800) * 1024 + (low - 0xdc00), rest)
    | _ => none
  else if 0xdc00 ≤ codepoint ∧ codepoint ≤ 0xdfff then none
  else some (codepoint, rest)

/-- The byte a letter behind a backslash stands for. -/
def unescape (byte : UInt8) : Option UInt8 :=
  if byte = 34 ∨ byte = 92 ∨ byte = 47 then some byte
  else if byte = 98 then some 8
  else if byte = 102 then some 12
  else if byte = 110 then some 10
  else if byte = 114 then some 13
  else if byte = 116 then some 9
  else none

/-- What is behind a backslash: the bytes it stands for. -/
def readEscape : List UInt8 → Option (List UInt8 × List UInt8)
  | [] => none
  | letter :: rest =>
    if letter = 117 then (readCodepoint rest).map fun r => (codepointBytes r.1, r.2)
    else (unescape letter).map fun byte => ([byte], rest)

/-- The loop of `parse_string`: the bytes of the string and what is behind its end. Each round takes
a byte at least. -/
def stringLoop : Nat → List UInt8 → List UInt8 → Option (List UInt8 × List UInt8)
  | 0, _, _ => none
  | _ + 1, [], _ => none
  | rounds + 1, byte :: rest, buffer =>
    if byte = 34 then some (buffer, rest)
    else if byte < 32 then none
    else if byte ≠ 92 then (append buffer [byte]).bind (stringLoop rounds rest)
    else (readEscape rest).bind fun r => (append buffer r.1).bind (stringLoop rounds r.2)

/-- `parse_string`. The buffer asks for memory, and so does the string; where the string is refused,
and where the text does not begin with a quotation mark, the flag stays down. -/
def parseString (p : Parser) : Option PString × Parser :=
  match p.rest with
  | [] => (none, p)
  | first :: rest =>
    if first ≠ 34 then (none, { p with rest := rest })
    else
      match stringLoop (rest.length + 1) rest [] with
      | none => (none, p.fail)
      | some (bytes, rest) =>
        let (granted, p) := p.ask
        if granted = false then (none, p.fail)
        else
          let (granted, p) := p.ask
          if granted = false then (none, { p with rest := rest })
          else
            match psNew bytes with
            | none => (none, { p with rest := rest })
            | some s => (some s, { p with rest := rest, live := p.live + 1 })

/-! ## Numbers -/

def isDigit (byte : UInt8) : Bool := decide (IsDigit byte)

/-- The digits in front of a point: one zero, or digits without a zero in front. -/
def scanInteger : List UInt8 → Option (List UInt8 × List UInt8)
  | [] => none
  | first :: rest =>
    if first = 48 then some ([48], rest)
    else if isDigit first then some (first :: rest.takeWhile isDigit, rest.dropWhile isDigit)
    else none

/-- At least one digit. -/
def scanDigits (rest : List UInt8) : Option (List UInt8 × List UInt8) :=
  if rest.takeWhile isDigit = [] then none else some (rest.takeWhile isDigit, rest.dropWhile isDigit)

def scanFraction : List UInt8 → Option (List UInt8 × List UInt8)
  | [] => some ([], [])
  | first :: rest =>
    if first = 46 then (scanDigits rest).map fun r => (46 :: r.1, r.2) else some ([], first :: rest)

/-- The sign of an exponent. -/
def scanSign : List UInt8 → List UInt8 × List UInt8
  | [] => ([], [])
  | first :: rest => if first = 43 ∨ first = 45 then ([first], rest) else ([], first :: rest)

def scanExponent : List UInt8 → Option (List UInt8 × List UInt8)
  | [] => some ([], [])
  | first :: rest =>
    if first = 101 ∨ first = 69 then
      (scanDigits (scanSign rest).2).map fun r => (first :: ((scanSign rest).1 ++ r.1), r.2)
    else some ([], first :: rest)

/-- The text of a number, whether it is one with a fraction or an exponent, and what is behind it. -/
def scanNumber (rest : List UInt8) : Option (List UInt8 × Bool × List UInt8) := do
  let sign := if rest.head? = some 45 then [45] else []
  let (digits, rest) ← scanInteger (rest.drop sign.length)
  let (fraction, rest) ← scanFraction rest
  let (exponent, rest) ← scanExponent rest
  return (sign ++ digits ++ fraction ++ exponent, fraction ≠ [] || exponent ≠ [], rest)

/-- The integer a text without fraction and exponent writes. -/
def integerOf (text : List UInt8) : Int :=
  if text.head? = some 45 then -(decimal 0 text.tail : Int) else decimal 0 text

/-- The value of a number: an integer where `pphp_int` holds it, otherwise a float, where there are
floats. -/
def numberValue (cfg : Config) (text : List UInt8) (floating : Bool) : Option Value :=
  if floating = false ∧ cfg.intMin ≤ integerOf text ∧ integerOf text ≤ cfg.intMax then
    some (.int (integerOf text))
  else if cfg.enableFloat then some (.float text)
  else none

/-- `parse_number`. The text is copied to a string for a moment. -/
def parseNumber (cfg : Config) (p : Parser) : Value × Parser :=
  match scanNumber p.rest with
  | none => (.null, p.fail)
  | some (text, floating, rest) =>
    let (granted, p) := p.ask
    if granted = false then (.null, p.fail)
    else
      match numberValue cfg text floating with
      | none => (.null, p.fail)
      | some v => (v, { p with rest := rest })

/-! ## Arrays and objects -/

/-- Release the array that is being built and return null. -/
def abandon (p : Parser) (entries : List (Key × Value)) : Value × Parser :=
  (.null, p.release (.array entries))

/-- The loop of `parse_array`. Each round takes a byte at least. -/
def parseItems (item : Parser → Value × Parser) : Nat → Parser → List (Key × Value) → Value × Parser
  | 0, p, entries => abandon p.fail entries
  | rounds + 1, p, entries =>
    let (v, p) := item p
    if p.failed then abandon (p.release v) entries
    else
      let (granted, p) := p.ask
      if granted = false then abandon (p.release v).fail entries
      else
        let entries := entries ++ [(Key.int entries.length, v)]
        let p := p.skipSpace
        match p.rest with
        | 44 :: rest => parseItems item rounds ({ p with rest := rest } : Parser).skipSpace entries
        | 93 :: rest => (.array entries, { p with rest := rest, depth := p.depth - 1 })
        | _ => abandon p.fail entries

/-- `parse_array`, behind the bracket. -/
def parseArray (item : Parser → Value × Parser) (p : Parser) : Value × Parser :=
  let rounds := p.rest.length + 1
  let (granted, p) := p.ask
  if granted = false then (.null, p.fail)
  else
    let p := ({ p with depth := p.depth + 1, live := p.live + 1 } : Parser).skipSpace
    match p.rest with
    | 93 :: rest => (.array [], { p with rest := rest, depth := p.depth - 1 })
    | _ => parseItems item rounds p []

/-- The key a name of a member stands for. -/
def memberKey (cfg : Config) (name : PString) : Key :=
  match numericStringKey cfg name.bytes with
  | some i => .int i
  | none => .string name

/-- `pa_set` of a member followed by the release of its name: the blocks that are released, which
are the value it replaces and, unless the array holds the name now, the name. -/
def releasedBy (entries : List (Key × Value)) (key : Key) : Nat :=
  match entries.lookup key, key with
  | some old, _ => old.blocks + 1
  | none, .int _ => 1
  | none, .string _ => 0

/-- The loop of `parse_object`. A name that is refused or missing ends it without raising the flag.
-/
def parseMembers (cfg : Config) (item : Parser → Value × Parser) : Nat → Parser → List (Key × Value) → Value × Parser
  | 0, p, entries => abandon p.fail entries
  | rounds + 1, p, entries =>
    let nameless := p.rest.head? ≠ some 34
    match parseString p with
    | (none, p) => abandon { p with nameless := p.nameless || nameless } entries
    | (some name, p) =>
      let p := p.skipSpace
      match p.rest with
      | 58 :: rest =>
        let (v, p) := item ({ p with rest := rest } : Parser).skipSpace
        if p.failed then abandon ((p.release v).release (.string name)) entries
        else
          let (granted, p) := p.ask
          if granted = false then abandon ((p.release v).release (.string name)).fail entries
          else
            let key := memberKey cfg name
            let p := ({ p with live := p.live - releasedBy entries key } : Parser).skipSpace
            let entries := OrderedMap.set entries key v
            match p.rest with
            | 44 :: rest => parseMembers cfg item rounds ({ p with rest := rest } : Parser).skipSpace entries
            | 125 :: rest => (.array entries, { p with rest := rest, depth := p.depth - 1 })
            | _ => abandon p.fail entries
      | _ => abandon (p.release (.string name)).fail entries

/-- `parse_object`, behind the brace. -/
def parseObject (cfg : Config) (item : Parser → Value × Parser) (p : Parser) : Value × Parser :=
  let rounds := p.rest.length + 1
  let (granted, p) := p.ask
  if granted = false then (.null, p.fail)
  else
    let p := ({ p with depth := p.depth + 1, live := p.live + 1 } : Parser).skipSpace
    match p.rest with
    | 125 :: rest => (.array [], { p with rest := rest, depth := p.depth - 1 })
    | _ => parseMembers cfg item rounds p []

/-- `parse_value`. The depth grows with each array and object around it, so that no more than 32
rounds are made. -/
def parseValue (cfg : Config) : Nat → Parser → Value × Parser
  | 0, p => (.null, p.fail)
  | rounds + 1, p =>
    let p := p.skipSpace
    if 32 ≤ p.depth then (.null, p.fail)
    else
      match p.rest with
      | [] => (.null, p.fail)
      | first :: rest =>
        if first = 34 then
          match parseString p with
          | (none, p) => (.null, p)
          | (some s, p) => (.string s, p)
        else if first = 91 then parseArray (parseValue cfg rounds) { p with rest := rest }
        else if first = 123 then parseObject cfg (parseValue cfg rounds) { p with rest := rest }
        else if (ascii "true").isPrefixOf p.rest then (.bool true, { p with rest := p.rest.drop 4 })
        else if (ascii "false").isPrefixOf p.rest then (.bool false, { p with rest := p.rest.drop 5 })
        else if (ascii "null").isPrefixOf p.rest then (.null, { p with rest := p.rest.drop 4 })
        else if first = 45 ∨ isDigit first then parseNumber cfg p
        else (.null, p.fail)

/-- The parser at the beginning of a text. -/
def Parser.start (memory : List Bool) (text : List UInt8) : Parser := ⟨text, 0, false, memory, 0, false⟩

/-- The parser when `json_decode` looks whether the text is used up, with the value that was read. -/
def parseText (cfg : Config) (memory : List Bool) (text : List UInt8) : Value × Parser :=
  let (v, p) := parseValue cfg 33 (Parser.start memory text)
  (v, p.skipSpace)

/-- `json_decode` succeeds: nothing has failed and the text is used up. -/
def Parser.succeeds (p : Parser) : Bool := !p.failed && p.rest.isEmpty

/-- `json_decode`; the second argument, when there is one, must be true. What has not succeeded
gives null, and the value is released. -/
def jsonDecode (cfg : Config) (memory : List Bool) (text : PString) (associative : Option Bool) :
    Except String (Value × Parser) :=
  if associative = some false then .error "json_decode() requires associative array mode"
  else
    let (v, p) := parseText cfg memory text.bytes
    if p.succeeds then .ok (v, p) else .ok (.null, p.release v)

end PhpPico.Json
