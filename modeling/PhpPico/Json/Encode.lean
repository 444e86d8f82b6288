import PhpPico.Parray.Key
import PhpPico.Lib.OrderedMap

/-!
# Encoding JSON

`json_encode` writes to a buffer of at most 65535 bytes; an array at depth 32 is refused. An array whose keys are 0,
1, 2, … in this order is a list, any other one an object. The text of a float is a parameter; objects are left out.
-/

namespace PhpPico.Json

/-- A value of PHP; a float is given by the number it was read from, an array by its entries in
order. -/
inductive Value where
  | null
  | bool (b : Bool)
  | int (i : Int)
  | float (text : List UInt8)
  | string (s : PString)
  | array (entries : List (Key × Value))

/-- `append`; `PPHP_STR_MAX` bounds the buffer. -/
def append (buffer bytes : List UInt8) : Option (List UInt8) :=
  if buffer.length + bytes.length ≤ 65535 then some (buffer ++ bytes) else none

/-- `indentation`. -/
def indentation (depth : Nat) : List UInt8 := (List.replicate depth (ascii "    ")).flatten

/-- A digit of the table `hex`. -/
def hexDigit (n : Nat) : UInt8 := if n < 10 then UInt8.ofNat (48 + n) else UInt8.ofNat (87 + n)

/-- What `encode_string` writes for a byte. -/
def escape (byte : UInt8) : List UInt8 :=
  if byte = 34 then ascii "\\\""
  else if byte = 92 then ascii "\\\\"
  else if byte = 47 then ascii "\\/"
  else if byte = 8 then ascii "\\b"
  else if byte = 12 then ascii "\\f"
  else if byte = 10 then ascii "\\n"
  else if byte = 13 then ascii "\\r"
  else if byte = 9 then ascii "\\t"
  else if byte < 32 then ascii "\\u00" ++ [hexDigit (byte.toNat / 16), hexDigit (byte.toNat % 16)]
  else [byte]

/-- `encode_string`. -/
def encodeString (buffer bytes : List UInt8) : Option (List UInt8) := do
  let buffer ← append buffer [34]
  let buffer ← bytes.foldlM (fun buffer byte => append buffer (escape byte)) buffer
  append buffer [34]

/-- `pphp_format_integer`. -/
def formatInteger (i : Int) : List UInt8 := (if i < 0 then [45] else []) ++ printUnsigned i.natAbs

/-- The keys from `expected` on count up. -/
def countsFrom : Nat → List (Key × Value) → Bool
  | _, [] => true
  | expected, (key, _) :: rest => key == .int expected && countsFrom (expected + 1) rest

/-- `array_is_list`. -/
def arrayIsList (entries : List (Key × Value)) : Bool := countsFrom 0 entries

/-- The bytes of a key between the quotation marks. -/
def keyBytes : Key → List UInt8
  | .int i => formatInteger i
  | .string s => s.bytes

section Encode
variable (formatFloat : List UInt8 → List UInt8) (pretty : Bool)

/-- A line break and the indentation, when they are asked for. -/
def lineBreak (depth : Nat) (buffer : List UInt8) : Option (List UInt8) :=
  if pretty then append buffer (10 :: indentation depth) else some buffer

/-- The name of a member with the colon. -/
def encodeName (key : Key) (buffer : List UInt8) : Option (List UInt8) := do
  let buffer ← encodeString buffer (keyBytes key)
  let buffer ← append buffer [58]
  if pretty then append buffer [32] else some buffer

mutual

/-- `encode_value`, with `encode_array`. -/
def encodeValue (depth : Nat) (buffer : List UInt8) : Value → Option (List UInt8)
  | .null => append buffer (ascii "null")
  | .bool false => append buffer (ascii "false")
  | .bool true => append buffer (ascii "true")
  | .int i => append buffer (formatInteger i)
  | .float text => append buffer (formatFloat text)
  | .string s => encodeString buffer s.bytes
  | .array entries =>
    if 32 ≤ depth then none
    else do
      let list := arrayIsList entries
      let buffer ← append buffer (if list then [91] else [123])
      let buffer ← encodeEntries list depth true buffer entries
      let buffer ← (if entries = [] then some buffer else lineBreak pretty depth buffer)
      append buffer (if list then [93] else [125])

/-- The loop of `encode_array`; the first entry has no comma in front. -/
def encodeEntries (list : Bool) (depth : Nat) (first : Bool) (buffer : List UInt8) :
    List (Key × Value) → Option (List UInt8)
  | [] => some buffer
  | (key, item) :: rest => do
    let buffer ← (if first then some buffer else append buffer [44])
    let buffer ← lineBreak pretty (depth + 1) buffer
    let buffer ← (if list then some buffer else encodeName pretty key buffer)
    let buffer ← encodeValue (depth + 1) buffer item
    encodeEntries list depth false buffer rest

end

/-- `json_encode`; nothing where it returns false. -/
def jsonEncode (v : Value) : Option PString := (encodeValue formatFloat pretty 0 [] v).bind psNew

end Encode

end PhpPico.Json
