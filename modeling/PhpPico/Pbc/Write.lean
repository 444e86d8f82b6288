import PhpPico.Proto

/-!
# Writing an image

`pphp_pbc_write_file` up to the bytes it hands to the file system. The layout pass fixes an offset for every string
and proto, and the writing pass fills a zeroed buffer there. The only failure before the file is opened is
`PPHP_E_NOMEM`, here `none`; totals only grow, so the tests against `UINT32_MAX` are that of the last one.
-/

namespace PhpPico
open ByteLayout

variable {cfg : Config}

/-! ## The string table -/

/-- `strings_add`: a string that is there already is not added. -/
def stringsAdd (list : List PString) (s : PString) : Option (List PString) :=
  if s ∈ list then some list
  else if list.length < 65535 then some (list ++ [s])
  else none

/-- `string_index`. -/
def stringIndex (strings : List PString) (s : PString) : Option UInt16 :=
  (strings.findIdx? (· == s)).map UInt16.ofNat

def TypeMember.name? : TypeMember → Option PString
  | .kind _ => none
  | .named name => some name

/-- The types of the parameters and the return type. -/
def Proto.typeSpecs (p : Proto cfg) : List TypeSpec :=
  (List.range p.nParams.toNat).map p.parameterType ++ [p.returnType]

/-- The types that go into an image. -/
def Proto.recordedTypes (p : Proto cfg) : List TypeSpec := if cfg.typecheck then p.typeSpecs else []

/-- The strings of a proto in the order in which they are collected. -/
def Proto.strings (p : Proto cfg) : List PString :=
  p.name :: p.constants.filterMap Constant.string? ++ p.locals ++
    p.recordedTypes.flatMap fun spec => spec.members.filterMap TypeMember.name?

/-- `collect_strings`. -/
def collectStrings (m : Module cfg) : Option (List PString) :=
  (m.protos.flatMap Proto.strings).foldlM stringsAdd []

/-! ## Sizes -/

def fitsInt32 (v : Int) : Bool := -2147483648 ≤ v && v ≤ 2147483647

/-- `serialized_constant_size`. -/
def serializedConstantSize : Constant cfg → Nat
  | .int value => if cfg.int64 && !fitsInt32 value.toInt then 16 else 8
  | .float _ => if cfg.enableFloat && cfg.useDouble then 16 else 8
  | .string _ => 8

/-- The size of a string record: the length, the bytes and a terminating zero. -/
def stringSize (s : PString) : Nat := align4 (3 + s.bytes.length)

/-- The size of a proto record. -/
def protoSize (p : Proto cfg) : Nat :=
  align4 (16 + align4 p.code.length + (p.constants.map serializedConstantSize).sum +
    p.nLocals * 2 + p.catches.length * 10 +
    (p.recordedTypes.map fun spec => 1 + spec.members.length * 3).sum)

/-! ## Records -/

def boolBit (b : Bool) (bit : UInt8) : UInt8 := if b then bit else 0

/-- The header's flags of a build. -/
def expectedFlags (cfg : Config) : UInt16 :=
  (if cfg.int64 then 1 else 0) ||| (if cfg.useDouble then 2 else 0) |||
    (if cfg.lineInfo then 4 else 0) ||| (if cfg.typecheck then 8 else 0) |||
    (if cfg.enableFloat then 16 else 0) ||| 32

/-- `PPHP_PBC_FORMAT_VERSION`. -/
def formatVersion : UInt16 := 2

def imageHeader (cfg : Config) (total protoCount stringCount : Nat) : List UInt8 :=
  ascii "PPBC" ++ le16 formatVersion ++ le16 (expectedFlags cfg) ++ le32 (UInt32.ofNat total) ++
    le16 (UInt16.ofNat protoCount) ++ le16 (UInt16.ofNat stringCount)

def offsetTable (offsets : List Nat) : List UInt8 :=
  offsets.flatMap fun offset => le32 (UInt32.ofNat offset)

def stringRecord (s : PString) : List UInt8 := le16 (UInt16.ofNat s.bytes.length) ++ s.bytes

/-- A 64-bit word as two 32-bit words, the low one first. -/
def le64 (n : Nat) : List UInt8 :=
  le32 (UInt32.ofNat (n % 4294967296)) ++ le32 (UInt32.ofNat (n / 4294967296))

def constantRecord (strings : List PString) : Constant cfg → Option (List UInt8)
  | .int value =>
    if cfg.int64 && !fitsInt32 value.toInt then
      some ([4, 0, 0, 0, 0, 0, 0, 0] ++ le64 (BitVec.ofInt 64 value.toInt).toNat)
    else
      some ([0, 0, 0, 0] ++ le32 (UInt32.ofNat (BitVec.ofInt 32 value.toInt).toNat))
  | .float bits =>
    if !cfg.enableFloat then none
    else if cfg.useDouble then some ([3, 0, 0, 0, 0, 0, 0, 0] ++ le64 bits.toNat)
    else some ([1, 0, 0, 0] ++ le32 (UInt32.ofNat bits.toNat))
  | .string s => (stringIndex strings s).map fun sid => [2, 0, 0, 0] ++ le32 sid.toUInt32

/-- A catch entry names its class by string index; `UINT16_MAX` is a finally handler. -/
def catchClassSid (strings : List PString) (p : Proto cfg) (entry : PCatch) : Option UInt16 :=
  if entry.classConstant = 0xffff then some 0xffff
  else (p.stringConstant entry.classConstant).bind (stringIndex strings)

def catchRecord (strings : List PString) (p : Proto cfg) (entry : PCatch) : Option (List UInt8) := do
  let classSid ← catchClassSid strings p entry
  some (le16 entry.tryStart ++ le16 entry.tryEnd ++ le16 entry.handlerPc ++ le16 classSid ++ [entry.variableSlot, 0])

def memberRecord (strings : List PString) : TypeMember → Option (List UInt8)
  | .kind kind => some (kind.toByte :: le16 0xffff)
  | .named name => (stringIndex strings name).map fun sid => namedKind :: le16 sid

def specRecord (strings : List PString) (spec : TypeSpec) : Option (List UInt8) :=
  (spec.members.mapM (memberRecord strings)).map fun members =>
    UInt8.ofNat spec.members.length :: members.flatten

def protoHeader (p : Proto cfg) (nameSid : UInt16) : List UInt8 :=
  [p.nParams, p.nRequired, boolBit p.variadic 1 ||| boolBit p.isMethod 2 ||| boolBit p.conditional 8,
    UInt8.ofNat p.nLocals, 0, 0] ++
    le16 p.maxStack ++ le16 (UInt16.ofNat p.code.length) ++
    le16 (UInt16.ofNat p.constants.length) ++ le16 (UInt16.ofNat p.catches.length) ++ le16 nameSid

def protoRecord (strings : List PString) (p : Proto cfg) : Option (List UInt8) := do
  let nameSid ← stringIndex strings p.name
  let constants ← p.constants.mapM (constantRecord strings)
  let locals ← p.locals.mapM (stringIndex strings)
  let catches ← p.catches.mapM (catchRecord strings p)
  let types ← p.recordedTypes.mapM (specRecord strings)
  some (protoHeader p nameSid ++ padTo (align4 p.code.length) p.code ++ constants.flatten ++
    locals.flatMap le16 ++ catches.flatten ++ types.flatten)

/-! ## The image -/

/-- Where the records begin: behind the header and the offset table. -/
def recordsStart (strings protos : Nat) : Nat := align4 (16 + strings * 4 + protos * 4)

/-- `pphp_pbc_write_file` up to the file system. -/
def writeImage (m : Module cfg) : Option (List UInt8) :=
  if m.protos.length = 0 ∨ m.protos.length > 65535 then none
  else do
    let strings ← collectStrings m
    let stringSizes := strings.map stringSize
    let protoSizes := m.protos.map protoSize
    let start := recordsStart strings.length m.protos.length
    let protoStart := start + stringSizes.sum
    let total := protoStart + protoSizes.sum
    if m.protos.any (fun p => p.code.length > 65535 || p.constants.length > 65535 ||
        p.catches.length > 65535) || total > 4294967295 then none
    else
      let records ← m.protos.mapM (protoRecord strings)
      let stringOffsets := recordOffsets start stringSizes
      let protoOffsets := recordOffsets protoStart protoSizes
      let bytes := zeros total
      let bytes := blit bytes 0 (imageHeader cfg total m.protos.length strings.length)
      let bytes := blit bytes 16 (offsetTable (stringOffsets ++ protoOffsets))
      let bytes := blitAll bytes (stringOffsets.zip (strings.map stringRecord))
      some (blitAll bytes (protoOffsets.zip records))

end PhpPico
