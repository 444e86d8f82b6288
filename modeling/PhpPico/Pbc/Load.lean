import PhpPico.Pbc.Write
import PhpPico.Pbc.Validate

/-!
# Loading an image

`pphp_pbc_load`: the header, the offset table, the strings, the protos record by record, and then the checks of
`Validate`. The readers take absolute offsets and return the offset behind what they read.
-/

namespace PhpPico
open ByteLayout

/-- The error codes a load can end with. -/
inductive PbcError where
  | parse | noMem | unsupported
  deriving DecidableEq

abbrev Load := Except PbcError

variable {cfg : Config}

def require (condition : Bool) : Load Unit := if condition then .ok () else .error .parse

def orParse {α : Type} : Option α → Load α
  | some a => .ok a
  | none => .error .parse

def orNoMem {α : Type} : Option α → Load α
  | some a => .ok a
  | none => .error .noMem

/-- The bytes of the image at an offset. -/
def slice (bytes : List UInt8) (offset length : Nat) : List UInt8 := (bytes.drop offset).take length

/-- A string that stands in the image; its length is a 16-bit word. -/
def stringSlice (bytes : List UInt8) (offset : Nat) (length : UInt16) : PString where
  bytes := slice bytes offset length.toNat
  length_le := by
    have := length.toNat_lt
    simp only [slice, List.length_take]
    omega

/-! ## Header and offset table -/

/-- The feature bit was added with the float flag: an image without it has floats. -/
def checkFlags (cfg : Config) (flags : UInt16) : Load Unit :=
  if flags &&& 32 = 0 ∧ cfg.enableFloat = false then .error .unsupported
  else
    let flags := if flags &&& 32 = 0 then flags ||| 16 ||| 32 else flags
    if flags &&& ~~~ 16 ≠ expectedFlags cfg &&& ~~~ 16 then .error .parse
    else if cfg.enableFloat = false ∧ flags &&& 16 ≠ 0 then .error .unsupported
    else if flags ≠ expectedFlags cfg then .error .parse
    else .ok ()

/-- An entry of the offset table: the strings first, then the protos. -/
def tableEntry (bytes : List UInt8) (i : Nat) : Nat := (u32At bytes (16 + i * 4)).toNat

/-- Records are aligned, in order, behind the table and in the image. -/
def tableEntryOk (bytes : List UInt8) (recordsStart i : Nat) : Bool :=
  let offset := tableEntry bytes i
  let previous := if i = 0 then recordsStart else tableEntry bytes (i - 1)
  offset % 4 == 0 && recordsStart ≤ offset && previous ≤ offset && (i == 0 || offset != previous) &&
    offset ≤ bytes.length

/-! ## Strings -/

/-- The string record at `offset`, which must end where the next record starts. -/
def loadString (bytes : List UInt8) (offset limit : Nat) : Load PString := do
  require (offset % 4 == 0 && rangeAvailable offset 2 bytes.length)
  let length := u16At bytes offset
  let size := 2 + length.toNat + 1
  require (rangeAvailable offset size limit && align4 (offset + size) == limit &&
    byteAt bytes (offset + 2 + length.toNat) == 0)
  return stringSlice bytes (offset + 2) length

/-- The string of an index. -/
def stringAt (strings : List PString) (sid : Nat) : Load PString := orParse strings[sid]?

/-! ## Constants -/

/-- `pbc_binary64_to_float`, on the bits. -/
def binary64ToFloat (bits : Nat) : Nat :=
  let sign := bits / 2 ^ 63 * 2 ^ 31
  let sourceExponent := bits / 2 ^ 52 % 2 ^ 11
  let fraction := bits % 2 ^ 52
  if sourceExponent = 0x7ff then
    if fraction = 0 then sign ||| 0x7f800000
    else sign ||| 0x7f800000 ||| (fraction >>> 29) ||| 0x00400000
  else if sourceExponent = 0 then sign
  else
    let exponent : Int := (sourceExponent : Int) - 1023
    let significand := fraction ||| 2 ^ 52
    let shift := if -126 ≤ exponent then 29 else (-exponent - 97).toNat
    let rounded :=
      if exponent < -150 then 0
      else
        let remainder := significand % 2 ^ shift
        let halfway := 2 ^ (shift - 1)
        let kept := significand >>> shift
        if remainder > halfway ∨ (remainder = halfway ∧ kept % 2 = 1) then kept + 1 else kept
    if -126 ≤ exponent then
      let overflowed := rounded = 0x01000000
      let rounded := if overflowed then rounded / 2 else rounded
      let exponent := if overflowed then exponent + 1 else exponent
      if 127 < exponent then sign ||| 0x7f800000
      else sign ||| ((exponent + 127).toNat <<< 23) ||| (rounded % 2 ^ 23)
    else sign ||| rounded

/-- The conversion from `float` to `double`, on the bits. It is exact; a NaN becomes quiet. -/
def floatToBinary64 (bits : Nat) : Nat :=
  let sign := bits / 2 ^ 31 * 2 ^ 63
  let exponent := bits / 2 ^ 23 % 2 ^ 8
  let fraction := bits % 2 ^ 23
  if exponent = 255 then
    if fraction = 0 then sign ||| (0x7ff <<< 52)
    else sign ||| (0x7ff <<< 52) ||| (fraction <<< 29) ||| (1 <<< 51)
  else if exponent = 0 then
    if fraction = 0 then sign
    else
      let k := fraction.log2
      sign ||| ((k + 874) <<< 52) ||| ((fraction - 2 ^ k) <<< (52 - k))
  else sign ||| ((exponent + 896) <<< 52) ||| (fraction <<< 29)

/-- The 64-bit word behind the first eight bytes of a constant. -/
def wideWord (bytes : List UInt8) (offset : Nat) : Nat :=
  (u32At bytes (offset + 8)).toNat + 4294967296 * (u32At bytes (offset + 12)).toNat

/-- The constant at an offset by its tag. -/
def constantAt (cfg : Config) (bytes : List UInt8) (strings : List PString) (offset : Nat) : Load (Constant cfg) :=
  let word := (u32At bytes (offset + 4)).toNat
  match byteAt bytes offset with
  | 0 => .ok (.int (BitVec.ofInt _ (BitVec.ofNat 32 word).toInt))
  | 1 =>
    if cfg.enableFloat then
      .ok (.float (BitVec.ofNat _ (if cfg.useDouble then floatToBinary64 word else word)))
    else .error .unsupported
  | 2 => (stringAt strings word).map .string
  | 3 =>
    if cfg.enableFloat then
      let wide := wideWord bytes offset
      .ok (.float (BitVec.ofNat _ (if cfg.useDouble then wide else binary64ToFloat wide)))
    else .error .unsupported
  | 4 =>
    if cfg.int64 then .ok (.int (BitVec.ofInt _ (BitVec.ofNat 64 (wideWord bytes offset)).toInt))
    else .error .parse
  | _ => .error .parse

def loadConstants (bytes : List UInt8) (strings : List PString) (limit : Nat) :
    Nat → Proto cfg → Nat → Load (Proto cfg × Nat)
  | 0, p, offset => .ok (p, offset)
  | count + 1, p, offset => do
    require (rangeAvailable offset 8 limit)
    let tag := byteAt bytes offset
    let size := if tag = 3 ∨ tag = 4 then 16 else 8
    require (rangeAvailable offset size limit)
    let value ← constantAt cfg bytes strings offset
    let (p, _) ← orNoMem (p.addConstant value)
    loadConstants bytes strings limit count p (offset + size)

/-! ## Locals and catches -/

/-- Every local must get a slot of its own. -/
def loadLocals (bytes : List UInt8) (strings : List PString) (limit : Nat) :
    Nat → Proto cfg → Nat → Load (Proto cfg × Nat)
  | 0, p, offset => .ok (p, offset)
  | count + 1, p, offset => do
    require (rangeAvailable offset 2 limit)
    let name ← stringAt strings (u16At bytes offset).toNat
    let expected := p.nLocals
    let (p, slot) ← orParse (p.addLocal name.bytes)
    require (slot.toNat == expected)
    loadLocals bytes strings limit count p (offset + 2)

/-- The class name of a catch entry becomes a further constant. -/
def addCatchClass (strings : List PString) (p : Proto cfg) (classSid : UInt16) : Load (Proto cfg × UInt16) :=
  if classSid = 0xffff then .ok (p, 0xffff)
  else do
    let name ← stringAt strings classSid.toNat
    orNoMem (p.addConstant (.string name))

def loadCatches (bytes : List UInt8) (strings : List PString) (limit codeLength : Nat) :
    Nat → Proto cfg → Nat → Load (Proto cfg × Nat)
  | 0, p, offset => .ok (p, offset)
  | count + 1, p, offset => do
    require (rangeAvailable offset 10 limit)
    let tryStart := u16At bytes offset
    let tryEnd := u16At bytes (offset + 2)
    let handlerPc := u16At bytes (offset + 4)
    let variableSlot := byteAt bytes (offset + 8)
    require (tryStart ≤ tryEnd && tryEnd.toNat ≤ codeLength && handlerPc.toNat < codeLength &&
      byteAt bytes (offset + 9) == 0 && (variableSlot == 255 || variableSlot.toNat < p.nLocals))
    let (p, classConstant) ← addCatchClass strings p (u16At bytes (offset + 6))
    let p ← orParse (p.addCatch { tryStart, tryEnd, handlerPc, classConstant, variableSlot })
    loadCatches bytes strings limit codeLength count p (offset + 10)

/-! ## Types -/

/-- Two members are the same type. -/
def sameMember : TypeMember → TypeMember → Bool
  | .kind left, .kind right => left == right
  | .named left, .named right => bytesEqualCi left.bytes right.bytes
  | _, _ => false

/-- The member at an offset. -/
def memberAt (bytes : List UInt8) (strings : List PString) (offset : Nat) : Load TypeMember :=
  let sid := u16At bytes (offset + 1)
  if byteAt bytes offset = namedKind then (stringAt strings sid.toNat).map .named
  else
    match TypeKind.ofByte (byteAt bytes offset) with
    | none => .error .parse
    | some kind => if sid = 0xffff then .ok (.kind kind) else .error .parse

/-- Where a member may stand. -/
def memberOk (cfg : Config) (isParameter : Bool) (count : Nat) : TypeMember → Bool
  | .named name => namedTypeValid name
  | .kind kind =>
    !(isParameter && (kind == .void || kind == .static)) &&
      !(count > 1 && (kind == .void || kind == .mixed)) && !(!cfg.enableFloat && kind == .float)

def loadMembers (cfg : Config) (bytes : List UInt8) (strings : List PString) (isParameter : Bool)
    (total : Nat) : Nat → List TypeMember → Nat → Load (List TypeMember × Nat)
  | 0, members, offset => .ok (members, offset)
  | count + 1, members, offset => do
    let member ← memberAt bytes strings offset
    require (memberOk cfg isParameter total member && !members.any (sameMember · member))
    loadMembers cfg bytes strings isParameter total count (members ++ [member]) (offset + 3)

/-- A type: the number of its members, at most sixteen, and the members. -/
def loadSpec (cfg : Config) (bytes : List UInt8) (strings : List PString) (limit : Nat)
    (isParameter : Bool) (offset : Nat) : Load (TypeSpec × Nat) := do
  require (rangeAvailable offset 1 limit)
  let count := (byteAt bytes offset).toNat
  require (count ≤ 16 && rangeAvailable (offset + 1) (count * 3) limit)
  let (members, offset) ← loadMembers cfg bytes strings isParameter count count [] (offset + 1)
  if h : members.length ≤ 255 then return (⟨members, h⟩, offset) else .error .noMem

def loadSpecs (cfg : Config) (bytes : List UInt8) (strings : List PString) (limit : Nat) :
    Nat → List TypeSpec → Nat → Load (List TypeSpec × Nat)
  | 0, specs, offset => .ok (specs, offset)
  | count + 1, specs, offset => do
    let (spec, offset) ← loadSpec cfg bytes strings limit true offset
    loadSpecs cfg bytes strings limit count (specs ++ [spec]) offset

/-- The types of the parameters and of the result. -/
def loadTypes (bytes : List UInt8) (strings : List PString) (limit : Nat) (p : Proto cfg)
    (offset : Nat) : Load (Proto cfg × Nat) :=
  if cfg.typecheck then do
    let (parameterTypes, offset) ← loadSpecs cfg bytes strings limit p.nParams.toNat [] offset
    let (returnType, offset) ← loadSpec cfg bytes strings limit false offset
    return ({ p with parameterTypes, returnType }, offset)
  else .ok (p, offset)

/-! ## Protos -/

/-- What the first bytes of a proto record may say. -/
def protoHeaderOk (isEntry : Bool) (nParams nRequired flags nLocals zero4 zero5 : UInt8) : Bool :=
  let variadic := hasFlag flags 1
  let isMethod := hasFlag flags 2
  let conditional := hasFlag flags 8
  flags &&& ~~~ 11 == 0 && zero4 == 0 && zero5 == 0 && !(isMethod && conditional) &&
    !(isEntry && (nParams != 0 || nRequired != 0 || variadic || isMethod || conditional)) &&
    nParams ≤ 31 && nRequired ≤ nParams && !(variadic && nParams == 0) &&
    nParams.toNat + (if isMethod then 1 else 0) ≤ nLocals.toNat

/-- The proto record between `offset` and `limit`. -/
def loadProto (bytes : List UInt8) (strings : List PString) (isEntry : Bool) (offset limit : Nat) :
    Load (Proto cfg) := do
  require (rangeAvailable offset 16 limit)
  let codeLength := (u16At bytes (offset + 8)).toNat
  let constantCount := (u16At bytes (offset + 10)).toNat
  let catchCount := (u16At bytes (offset + 12)).toNat
  let name ← stringAt strings (u16At bytes (offset + 14)).toNat
  require (rangeAvailable offset (16 + align4 codeLength) limit)
  let nParams := byteAt bytes offset
  let nRequired := byteAt bytes (offset + 1)
  let flags := byteAt bytes (offset + 2)
  let localCount := byteAt bytes (offset + 3)
  require (protoHeaderOk isEntry nParams nRequired flags localCount (byteAt bytes (offset + 4))
    (byteAt bytes (offset + 5)))
  let p : Proto cfg :=
    { Proto.new name with
      nParams, nRequired
      variadic := hasFlag flags 1
      isMethod := hasFlag flags 2
      conditional := hasFlag flags 8
      maxStack := u16At bytes (offset + 6)
      code := slice bytes (offset + 16) codeLength }
  let offset := offset + (16 + align4 codeLength)
  let (p, offset) ← loadConstants bytes strings limit constantCount p offset
  let (p, offset) ← loadLocals bytes strings limit localCount.toNat p offset
  let (p, offset) ← loadCatches bytes strings limit codeLength catchCount p offset
  let (p, offset) ← loadTypes bytes strings limit p offset
  require (align4 offset == limit)
  return p

/-! ## The image -/

/-- The end of a record: the next table entry, or the end of the image. -/
def recordLimit (bytes : List UInt8) (entries i : Nat) : Nat :=
  if i + 1 < entries then tableEntry bytes (i + 1) else bytes.length

/-- Everything up to the validation. -/
def loadRecords (cfg : Config) (bytes : List UInt8) : Load (Module cfg) := do
  require (rangeAvailable 0 16 bytes.length && bytes.take 4 == ascii "PPBC" &&
    u16At bytes 4 == formatVersion && (u32At bytes 8).toNat == bytes.length)
  checkFlags cfg (u16At bytes 6)
  let protoCount := (u16At bytes 12).toNat
  let stringCount := (u16At bytes 14).toNat
  let entries := stringCount + protoCount
  require (protoCount != 0)
  require (rangeAvailable 16 (entries * 4) bytes.length)
  let start := align4 (16 + entries * 4)
  require (start ≤ bytes.length && (List.range entries).all (tableEntryOk bytes start))
  let strings ← (List.range stringCount).mapM fun i =>
    loadString bytes (tableEntry bytes i) (tableEntry bytes (i + 1))
  let protos ← (List.range protoCount).mapM fun i =>
    loadProto bytes strings (i == 0) (tableEntry bytes (stringCount + i))
      (recordLimit bytes entries (stringCount + i))
  return { protos }

/-- `pphp_pbc_load`. -/
def load (cfg : Config) (bytes : List UInt8) : Load (Module cfg) := do
  let m ← loadRecords cfg bytes
  orParse (validateModule m)

end PhpPico
