import PhpPico.Proto

/-!
# Validating loaded code

What `pphp_pbc_load` checks once all protos are read: the instruction size table, the operands of every instruction
(`pbc_validate_code`), the role of every proto (`pbc_finalize_proto_roles`), and with type checks its class context
(`pbc_validate_type_context`).
-/

namespace PhpPico
open ByteLayout

variable {cfg : Config}

/-! ## Names -/

/-- `pbc_range_available`. -/
def rangeAvailable (offset need length : Nat) : Bool := offset ≤ length && need ≤ length - offset

def letterByte (b : UInt8) : Bool :=
  (65 ≤ b && b ≤ 90) || (97 ≤ b && b ≤ 122) || b == 95 || 128 ≤ b

def digitByte (b : UInt8) : Bool := 48 ≤ b && b ≤ 57

/-- `pbc_identifier_bytes`. -/
def identifierBytes : List UInt8 → Bool
  | [] => false
  | first :: rest => letterByte first && rest.all fun b => letterByte b || digitByte b

/-- `pbc_reserved_type_name`. -/
def reservedTypeName (bytes : List UInt8) : Bool :=
  ["int", "float", "string", "bool", "array", "callable", "mixed", "void", "null", "self", "static",
    "parent"].any fun name => bytesEqualCi bytes (ascii name)

/-- `pbc_named_type_valid`. -/
def namedTypeValid (name : PString) : Bool :=
  identifierBytes name.bytes && !reservedTypeName name.bytes

/-- The pieces of a type text between its bars. -/
def splitBars : List UInt8 → List (List UInt8)
  | [] => [[]]
  | b :: rest =>
    if b = 124 then [] :: splitBars rest
    else
      match splitBars rest with
      | [] => [[b]]
      | piece :: pieces => (b :: piece) :: pieces

/-- No two pieces are equal up to case. -/
def piecesDistinct : List (List UInt8) → Bool
  | [] => true
  | piece :: rest => !(rest.any fun other => bytesEqualCi piece other) && piecesDistinct rest

/-- `pbc_property_type_valid`. -/
def propertyTypeValid (cfg : Config) (type : Option PString) (hasParent : Bool) : Bool :=
  match type with
  | none => true
  | some type =>
    let pieces := splitBars type.bytes
    pieces.length ≤ 16 && pieces.all (fun piece => piece != []) && piecesDistinct pieces &&
      pieces.all fun name =>
        !(bytesEqualCi name (ascii "void") || bytesEqualCi name (ascii "static") ||
          bytesEqualCi name (ascii "callable") ||
          (!hasParent && bytesEqualCi name (ascii "parent")) ||
          (pieces.length > 1 && bytesEqualCi name (ascii "mixed")) ||
          (!cfg.enableFloat && bytesEqualCi name (ascii "float"))) &&
        (reservedTypeName name || identifierBytes name)

/-- `pbc_method_proto_name`. -/
def methodProtoName (p : Proto cfg) (className methodName : PString) : Bool :=
  p.name.bytes == className.bytes ++ ascii "::" ++ methodName.bytes

/-- The number a digit string denotes. -/
def decimalValue (digits : List UInt8) : Nat :=
  digits.foldl (fun value d => value * 10 + (d - 48).toNat) 0

/-- `pbc_closure_proto_name`: `{closure#`, the proto's index without leading zeros, and `}`. -/
def closureProtoName (p : Proto cfg) (index : Nat) : Bool :=
  let bytes := p.name.bytes
  let digits := (bytes.drop 9).dropLast
  bytes.length ≥ 11 && bytes.take 9 == ascii "\x7bclosure#" && bytes.getLast? == some 125 &&
    !(digits.head? == some 48 && digits.length > 1) && digits.all digitByte &&
    decimalValue digits == index

/-! ## Instruction sizes -/

/-- Two four-bit instruction sizes in each byte, the even opcode's in the low one; zero marks an
invalid opcode and fifteen the closure, whose size depends on its captures. -/
def instructionSizes (typecheck : Bool) : List UInt8 :=
  [0x11, 0x11, 0x01, 0x00, 0x00, 0x00, 0x00, 0x00, 0x11, 0x21, 0x35, 0x22, 0x21, 0x34, 0x22, 0x00,
    0x11, 0x11, 0x11, 0x11, 0x11, 0x11, 0x11, 0x00, 0x11, 0x11, 0x11, 0x11, 0x11, 0x02, 0x01, 0x00,
    0x33, 0x33, 0x33, 0x03, 0x00, 0x00, 0x00, 0x00,
    0x24, 0x11, 0x32, 0x21, if typecheck then 0x01 else 0x00, 0x00, 0x00, 0x00,
    0x13, 0x11, 0x11, 0x41, 0x11, 0x11, 0x01, 0x00, 0x34, 0x43, 0x33, 0x56, 0x53, 0x55, 0x23, 0x01,
    0x1f, 0x01, 0x33, 0x66, if typecheck then 0x37 else 0x34, 0x31, 0x00, 0x00, 0x13, 0x11, 0x12]

/-- The table's entry for an opcode byte. -/
def sizeEntry (typecheck : Bool) (opcode : UInt8) : Nat :=
  let pair := (instructionSizes typecheck).getD (opcode.toNat / 2) 0
  if opcode.toNat % 2 = 1 then pair.toNat / 16 else pair.toNat % 16

/-- `pbc_instruction_size`; zero where no instruction fits. -/
def instructionSize (cfg : Config) (code : List UInt8) (pc : Nat) : Nat :=
  if pc ≥ code.length then 0
  else
    let opcode := byteAt code pc
    if opcode > 0x95 then 0
    else
      let entry := sizeEntry cfg.typecheck opcode
      if entry = 0 then 0
      else if entry = 15 then
        if rangeAvailable (pc + 1) 3 code.length then
          let size := 4 + (byteAt code (pc + 3)).toNat * 2
          if rangeAvailable (pc + 1) (size - 1) code.length then size else 0
        else 0
      else if rangeAvailable (pc + 1) (entry - 1) code.length then entry else 0

/-- Step from instruction to instruction until `target`; each step moves on, so the code's length
bounds the number of steps. -/
def reachesBoundary (cfg : Config) (code : List UInt8) (target : Nat) : Nat → Nat → Bool
  | 0, pc => pc == target
  | fuel + 1, pc =>
    if pc < target then
      let size := instructionSize cfg code pc
      if size = 0 ∨ size > target - pc then false
      else reachesBoundary cfg code target fuel (pc + size)
    else pc == target

/-- `pbc_instruction_boundary`. -/
def instructionBoundary (cfg : Config) (code : List UInt8) (target : Nat) : Bool :=
  target < code.length && reachesBoundary cfg code target code.length 0

def instructionBoundaryOrEnd (cfg : Config) (code : List UInt8) (target : Nat) : Bool :=
  target == code.length || instructionBoundary cfg code target

/-- A jump target; one before the code wraps to a huge `size_t` and is no boundary. -/
def targetBoundary (cfg : Config) (code : List UInt8) (target : Int) : Bool :=
  0 ≤ target && instructionBoundary cfg code target.toNat

/-- The signed 16-bit operand at an offset. -/
def i16At (code : List UInt8) (offset : Nat) : Int := (u16At code offset).toInt16.toInt

/-! ## Operands -/

/-- The reference a definition opcode makes to a proto; validation keeps it in the proto's role. -/
inductive ProtoRef where
  | function | method | closure
  deriving DecidableEq

/-- The class between `DEF_CLASS` and `DEF_END`. -/
structure BuildingClass where
  name : PString
  isReadonly : Bool
  hasParent : Bool
  deriving DecidableEq

/-- What validation carries from instruction to instruction. -/
structure CodeCheck where
  refs : List (Option ProtoRef)
  building : Option BuildingClass
  typecheckPc : Option Nat
  deriving DecidableEq

def guardSome {α : Type} (condition : Bool) (value : α) : Option α :=
  if condition then some value else none

/-- `pbc_reference_proto`: a proto is referenced once. -/
def referenceProto (st : CodeCheck) (target : Nat) (ref : ProtoRef) : Option CodeCheck :=
  if st.refs[target]? = some none then some { st with refs := st.refs.set target (some ref) }
  else none

/-- `pbc_flag_visibility`: exactly one of the three visibility bits. -/
def flagVisibility (flags : UInt8) : Bool :=
  let visibility := flags &&& 7
  visibility == 1 || visibility == 2 || visibility == 4

def hasFlag (flags bit : UInt8) : Bool := flags &&& bit != 0

/-- The flags a class may carry: not both abstract and final, and an interface is abstract, not
final and not readonly. -/
def classFlagsOk (flags : UInt8) : Bool :=
  flags &&& (~~~ (16 ||| 32 ||| 64 ||| 128)) == 0 && flags &&& (16 ||| 32) != 16 ||| 32 &&
    !(hasFlag flags 128 && (!hasFlag flags 16 || hasFlag flags (32 ||| 64)))

def isConstructorName (name : PString) : Bool := bytesEqualCi name.bytes (ascii "__construct")

def isDestructorName (name : PString) : Bool := bytesEqualCi name.bytes (ascii "__destruct")

def methodFlagsOk (name : PString) (flags : UInt8) (target : Proto cfg) : Bool :=
  flagVisibility flags && flags &&& (~~~ (1 ||| 2 ||| 4 ||| 8 ||| 16 ||| 32)) == 0 &&
    flags &&& (16 ||| 32) != 16 ||| 32 &&
    !((isConstructorName name || isDestructorName name) && hasFlag flags 8) &&
    !(isDestructorName name && target.nParams != 0) && !hasFlag flags 8 == target.isMethod

def propertyFlagsOk (cls : BuildingClass) (flags : UInt8) : Bool :=
  flagVisibility flags && flags &&& (~~~ (1 ||| 2 ||| 4 ||| 8 ||| 64)) == 0 &&
    flags &&& (8 ||| 64) != 8 ||| 64 && !(cls.isReadonly && !hasFlag flags 64)

/-- The type operands of `DEF_PROP`. -/
def propertyTypeOk (p : Proto cfg) (cls : BuildingClass) (flags : UInt8) (typeIndex : UInt16)
    (hasDefault : UInt8) : Bool :=
  hasDefault ≤ 1 && !(hasFlag flags 64 && hasDefault != 0) && !(hasFlag flags 64 && typeIndex == 0xffff) &&
    if typeIndex = 0xffff then propertyTypeValid cfg none cls.hasParent
    else
      match p.stringConstant typeIndex with
      | none => false
      | some type => propertyTypeValid cfg (some type) cls.hasParent

/-- The value types a cast may name: int, string, bool, array, and float if the build has it. -/
def castTarget (cfg : Config) (target : UInt8) : Bool :=
  target == 3 || target == 5 || target == 2 || target == 6 || (cfg.enableFloat && target == 4)

/-- The modes of `INCLUDE`: the token numbers of the four constructs. -/
def includeMode (mode : UInt8) : Bool := mode == 113 || mode == 114 || mode == 129 || mode == 130

/-- One round of the second loop of `pbc_validate_code`: the operands of the instruction at `pc`. -/
def checkInstruction (m : Module cfg) (p : Proto cfg) (pc size : Nat) (st : CodeCheck) : Option CodeCheck :=
  let code := p.code
  let operand := pc + 1
  let first := u16At code operand
  let next : Int := (pc + size : Nat)
  let isString (index : UInt16) : Bool := (p.stringConstant index).isSome
  match Opcode.ofByte (byteAt code pc) with
  | some (.byte .loadLocal) | some (.byte .loadLocalQuiet) | some (.byte .storeLocal)
  | some (.byte .unsetLocal) | some (.byte .bindGlobal) =>
    guardSome ((byteAt code operand).toNat < p.nLocals) st
  | some .staticInit =>
    guardSome ((byteAt code operand).toNat < p.nLocals && targetBoundary cfg code (next + i16At code (operand + 1))) st
  | some (.word .loadConst) => guardSome (first.toNat < p.constants.length) st
  | some (.word .loadNamedConst) | some (.word .defConst) | some (.word .callArray)
  | some (.word .mcallArray) | some (.word .newObjArray) | some (.word .propGet)
  | some (.word .propGetQuiet) | some (.word .propSet) | some (.word .instanceof) =>
    guardSome (isString first) st
  | some (.word .defCconst) | some (.word .defInterface) =>
    guardSome (isString first && st.building.isSome) st
  | some (.word .defFunc) =>
    match m.protos[first.toNat]? with
    | none => none
    | some target =>
      if target.isMethod || !target.conditional then none
      else referenceProto st first.toNat .function
  | some (.named _) =>
    guardSome (isString first && byteAt code (operand + 2) ≤ 31) st
  | some (.byte .callValue) | some (.byte .newObjDynamic) | some (.byte .mcallDynamic) =>
    guardSome (byteAt code operand ≤ 31) st
  | some (.pair _) =>
    guardSome (isString first && isString (u16At code (operand + 2))) st
  | some (.triple .scall) =>
    guardSome (isString first && isString (u16At code (operand + 2)) && byteAt code (operand + 4) ≤ 31) st
  | some (.jump _) => guardSome (targetBoundary cfg code (next + first.toInt16.toInt)) st
  | some .feNext =>
    guardSome (byteAt code (operand + 2) ≤ 1 && targetBoundary cfg code (next + first.toInt16.toInt)) st
  | some (.byte .includeFile) => guardSome (includeMode (byteAt code operand)) st
  | some (.byte .cast) => guardSome (castTarget cfg (byteAt code operand)) st
  | some (.triple .defClass) =>
    let parent := u16At code (operand + 2)
    let flags := byteAt code (operand + 4)
    match p.stringConstant first with
    | none => none
    | some name =>
      if st.building.isSome || !(parent == 0xffff || isString parent) || !classFlagsOk flags then none
      else some { st with building := some ⟨name, hasFlag flags 64, parent != 0xffff⟩ }
  | some (.triple .defMethod) =>
    let target := (u16At code (operand + 2)).toNat
    let flags := byteAt code (operand + 4)
    match st.building, p.stringConstant first, m.protos[target]? with
    | some cls, some name, some method =>
      if target = 0 || method.conditional || !methodProtoName method cls.name name ||
          !methodFlagsOk name flags method then none
      else referenceProto st target .method
    | _, _, _ => none
  | some .defProp =>
    let flags := byteAt code (operand + 2)
    match st.building with
    | none => none
    | some cls =>
      guardSome (isString first && propertyFlagsOk cls flags && (!cfg.typecheck ||
          propertyTypeOk p cls flags (u16At code (operand + 3)) (byteAt code (operand + 5)))) st
  | some (.plain .defEnd) =>
    if st.building.isSome then some { st with building := none } else none
  | some .closure =>
    let count := (byteAt code (operand + 2)).toNat
    match m.protos[first.toNat]? with
    | none => none
    | some target =>
      if first = 0 || target.conditional || !closureProtoName target first.toNat ||
          target.nParams.toNat + count > target.nLocals ||
          !(List.range count).all (fun capture =>
            byteAt code (operand + 3 + capture * 2) == 0 &&
              (byteAt code (operand + 4 + capture * 2)).toNat < p.nLocals) then none
      else referenceProto st first.toNat .closure
  | some (.plain .typecheckArgs) =>
    if st.typecheckPc.isSome then none else some { st with typecheckPc := some pc }
  | _ => some st

/-! ## Whole code -/

/-- The starts of the instructions from `pc` on; `none` when some instruction is invalid. -/
def instructionStarts (cfg : Config) (code : List UInt8) : Nat → Nat → Option (List Nat)
  | 0, pc => if pc < code.length then none else some []
  | fuel + 1, pc =>
    if pc < code.length then
      let size := instructionSize cfg code pc
      if size = 0 then none
      else (instructionStarts cfg code fuel (pc + size)).map (pc :: ·)
    else some []

/-- The first loop of `pbc_validate_code`. -/
def codeStarts (cfg : Config) (code : List UInt8) : Option (List Nat) :=
  instructionStarts cfg code code.length 0

/-- The three positions of a catch entry. -/
def catchBoundaries (p : Proto cfg) (entry : PCatch) : Bool :=
  instructionBoundary cfg p.code entry.tryStart.toNat && instructionBoundaryOrEnd cfg p.code entry.tryEnd.toNat &&
    instructionBoundary cfg p.code entry.handlerPc.toNat

/-- Where the code that fills in optional parameters ends. Each optional parameter is guarded by
`LOAD_ARGC; LOAD_I8 parameter; GT; JMP_IF` over code that stores it. -/
def defaultsEnd (p : Proto cfg) : List Nat → Nat → Option Nat
  | [], cursor => some cursor
  | parameter :: rest, cursor =>
    let code := p.code
    let target : Int := (cursor + 7 : Nat) + i16At code (cursor + 5)
    if rangeAvailable cursor 7 code.length && byteAt code cursor == (Opcode.plain .loadArgc).toByte &&
        byteAt code (cursor + 1) == (Opcode.byte .loadI8).toByte &&
        (byteAt code (cursor + 2)).toNat == parameter &&
        byteAt code (cursor + 3) == (Opcode.plain .gt).toByte &&
        byteAt code (cursor + 4) == (Opcode.jump .jmpIf).toByte &&
        (cursor + 9 : Nat) ≤ target && target ≤ code.length &&
        byteAt code (target.toNat - 2) == (Opcode.byte .storeLocal).toByte &&
        (byteAt code (target.toNat - 1)).toNat == parameter + (if p.isMethod then 1 else 0) then
      defaultsEnd p rest target.toNat
    else none

/-- The parameters that may be left out. -/
def Proto.optionalParameters (p : Proto cfg) : List Nat :=
  let fixed := if p.variadic then p.nParams.toNat - 1 else p.nParams.toNat
  (List.range fixed).drop p.nRequired.toNat

/-- The place of `TYPECHECK_ARGS`: never in the entry, and behind the defaults elsewhere. -/
def typecheckPlace (p : Proto cfg) (isEntry : Bool) (typecheckPc : Option Nat) : Bool :=
  if isEntry then typecheckPc.isNone
  else
    match defaultsEnd p p.optionalParameters 0, typecheckPc with
    | some cursor, some pc => pc == cursor
    | _, _ => false

/-- `pbc_validate_code`: the references as the proto leaves them, if it is valid. -/
def validateCode (m : Module cfg) (p : Proto cfg) (isEntry : Bool)
    (refs : List (Option ProtoRef)) : Option (List (Option ProtoRef)) := do
  let starts ← codeStarts cfg p.code
  let st ← starts.foldlM (fun st pc => checkInstruction m p pc (instructionSize cfg p.code pc) st)
    ⟨refs, none, none⟩
  if st.building.isSome || !p.catches.all (catchBoundaries p) ||
      (cfg.typecheck && !typecheckPlace p isEntry st.typecheckPc) then none
  else some st.refs

/-- Validate the protos in order; the references accumulate. -/
def validateProtos (m : Module cfg) : List (Proto cfg) → Bool → List (Option ProtoRef) → Option (List (Option ProtoRef))
  | [], _, refs => some refs
  | p :: rest, isEntry, refs => do
    let refs ← validateCode m p isEntry refs
    validateProtos m rest false refs

/-! ## Roles -/

/-- The role of a proto that is not the entry, from the reference made to it. -/
def finalRole (p : Proto cfg) : Option ProtoRef → Option ProtoRole
  | some .method => some .method
  | some .closure => guardSome (!p.isMethod) .closure
  | ref =>
    guardSome ((ref == some .function) == p.conditional && !p.isMethod && identifierBytes p.name.bytes) .function

/-- `pbc_finalize_proto_roles`. -/
def finalizeProtoRoles (m : Module cfg) (refs : List (Option ProtoRef)) : Option (Module cfg) :=
  match m.protos with
  | [] => some m
  | entry :: rest => do
    let rest ← (rest.zipIdx 1).mapM fun (p, target) =>
      (finalRole p (refs.getD target none)).map fun role => { p with role := role }
    if (refs.getD 0 none).isSome then none
    else some { protos := { entry with role := .main } :: rest }

/-! ## Class contexts -/

/-- The scope bits of a context: one in a class, two in a class with a parent. -/
def scopeMask : UInt8 := 3

def methodContext : UInt8 := 4
def constructorContext : UInt8 := 8
def destructorContext : UInt8 := 16
def closureContext : UInt8 := 32

def contextScope (context : UInt8) : UInt8 := context &&& scopeMask

def contextRole (context : UInt8) : UInt8 := context &&& ~~~ scopeMask

/-- The context bit of a method of that name. -/
def methodContextBit (name : Option PString) : UInt8 :=
  match name with
  | none => methodContext
  | some name =>
    if isConstructorName name then constructorContext
    else if isDestructorName name then destructorContext
    else methodContext

/-- The first pass over one proto: definitions give the protos they name their role and scope. -/
def markContexts (p : Proto cfg) : List Nat → UInt8 → List UInt8 → Option (List UInt8)
  | [], _, contexts => some contexts
  | pc :: rest, scope, contexts =>
    match Opcode.ofByte (byteAt p.code pc) with
    | some (.triple .defClass) =>
      markContexts p rest (if u16At p.code (pc + 3) = 0xffff then 1 else 2) contexts
    | some (.triple .defMethod) =>
      let target := (u16At p.code (pc + 3)).toNat
      let context := contexts.getD target 0
      if contextRole context ≠ 0 ∨ (contextScope context ≠ 0 ∧ contextScope context ≠ scope) then none
      else
        markContexts p rest scope
          (contexts.set target (scope ||| methodContextBit (p.stringConstant (u16At p.code (pc + 1)))))
    | some .closure =>
      let target := (u16At p.code (pc + 1)).toNat
      markContexts p rest scope (contexts.set target (contexts.getD target 0 ||| closureContext))
    | some (.plain .defEnd) => markContexts p rest 0 contexts
    | _ => markContexts p rest scope contexts

/-- A closure inherits the scope of the proto that creates it. -/
def inheritScope (p : Proto cfg) (scope : UInt8) : List Nat → List UInt8 → Option (List UInt8)
  | [], contexts => some contexts
  | pc :: rest, contexts =>
    if Opcode.ofByte (byteAt p.code pc) = some .closure then
      let target := (u16At p.code (pc + 1)).toNat
      let context := contexts.getD target 0
      if context &&& closureContext = 0 ∨ (contextScope context ≠ 0 ∧ contextScope context ≠ scope) then none
      else if contextScope context = 0 then
        inheritScope p scope rest (contexts.set target (context ||| scope))
      else inheritScope p scope rest contexts
    else inheritScope p scope rest contexts

/-- The starts of a proto's instructions, once they are known to be valid. -/
def Proto.starts (p : Proto cfg) : List Nat := (codeStarts cfg p.code).getD []

/-- Code outside of classes passes on nothing. -/
def inheritFrom (p : Proto cfg) (scope : UInt8) (contexts : List UInt8) : Option (List UInt8) :=
  if scope = 0 then some contexts else inheritScope p scope p.starts contexts

/-- One round over all protos. -/
def inheritRound : List (Proto cfg) → Nat → List UInt8 → Option (List UInt8)
  | [], _, contexts => some contexts
  | p :: rest, i, contexts => do
    let contexts ← inheritFrom p (contextScope (contexts.getD i 0)) contexts
    inheritRound rest (i + 1) contexts

/-- Rounds until nothing changes. A round that changes something gives some proto its scope, so
there are at most as many rounds as protos before the last. -/
def inheritScopes (m : Module cfg) : Nat → List UInt8 → Option (List UInt8)
  | 0, contexts => some contexts
  | fuel + 1, contexts => do
    let next ← inheritRound m.protos 0 contexts
    if next = contexts then some contexts else inheritScopes m fuel next

def TypeSpec.isVoid (spec : TypeSpec) : Bool := spec.members == [.kind .void]

/-- The type kinds a context allows. -/
def memberAllowed (scope role : UInt8) (isParameter : Bool) : TypeMember → Bool
  | .kind .self => scope != 0
  | .kind .parent => scope == 2
  | .kind .static => !isParameter && role != 0 && role != closureContext
  | _ => true

/-- The last pass: the types of one proto against its context. -/
def contextTypesOk (p : Proto cfg) (context : UInt8) : Bool :=
  let scope := contextScope context
  let role := contextRole context
  let special := role == constructorContext || role == destructorContext
  let noValueReturn := special || p.returnType.isVoid
  !(special && !(p.returnType.members.isEmpty || p.returnType.isVoid)) &&
    (List.range p.nParams.toNat).all (fun j =>
      (p.parameterType j).members.all (memberAllowed scope role true)) &&
    p.returnType.members.all (memberAllowed scope role false) &&
    !(noValueReturn && p.starts.any fun pc => byteAt p.code pc == (Opcode.plain .ret).toByte)

/-- The first pass of `pbc_validate_type_context`. -/
def markAll : List (Proto cfg) → List UInt8 → Option (List UInt8)
  | [], contexts => some contexts
  | p :: rest, contexts => do
    let contexts ← markContexts p p.starts 0 contexts
    markAll rest contexts

/-- `pbc_validate_type_context`. -/
def validateTypeContext (m : Module cfg) : Bool :=
  let contexts := List.replicate m.protos.length (0 : UInt8)
  match (markAll m.protos contexts).bind (inheritScopes m (m.protos.length + 1)) with
  | none => false
  | some contexts => (m.protos.zip contexts).all fun (p, context) => contextTypesOk p context

/-- All checks made once the protos are read. -/
def validateModule (m : Module cfg) : Option (Module cfg) := do
  let refs ← validateProtos m m.protos true (List.replicate m.protos.length none)
  let m ← finalizeProtoRoles m refs
  if cfg.typecheck && !validateTypeContext m then none else some m

end PhpPico
