import PhpPico.Lib.ByteLayout

/-!
# Build options, opcodes and instructions

The instruction set of `opcode.h`. Opcodes are grouped by their operands, and an `Instr` is an opcode with such
operands. `TYPECHECK_ARGS` exists, and `DEF_PROP` carries a type, only when run-time type checks are compiled in.
-/

namespace PhpPico
open ByteLayout

/-- The build options of `pphp_config.h` that the compiler, the image format and the virtual
machine depend on. -/
structure Config where
  int64 : Bool
  useDouble : Bool
  enableFloat : Bool
  lineInfo : Bool
  typecheck : Bool
  deriving DecidableEq

/-- Opcodes without operands. -/
inductive PlainOp where
  | nop | halt | pop | dup | swap | loadNull | loadTrue | loadFalse | loadArgc | add | sub | mul
  | div | mod | pow | neg | concat | band | bor | bxor | bnot | shl | shr | eq | ne | ident
  | nident | lt | le | gt | ge | cmp | not | instanceofDynamic | ret | retNull | callValueArray
  | typecheckArgs | arrPush | arrSet | idxGet | idxSet | idxAppend | feInit | feFree | arrExtend
  | arrSeparate | idxUnset | idxGetQuiet | newObjDynamicArray | throw | clone | defEnd
  | propGetDynamic | propSetDynamic | propGetDynamicQuiet | mcallDynamicArray
  deriving DecidableEq

/-- Opcodes with one byte operand. -/
inductive ByteOp where
  | loadI8 | loadLocal | storeLocal | bindGlobal | loadLocalQuiet | unsetLocal | cast | callValue
  | echo | includeFile | newObjDynamic | mcallDynamic
  deriving DecidableEq

/-- Opcodes with one 16-bit operand. -/
inductive WordOp where
  | loadConst | loadNamedConst | callArray | newArray | propGet | propSet | mcallArray
  | newObjArray | instanceof | propGetQuiet | defFunc | defCconst | defConst | defInterface | line
  deriving DecidableEq

/-- Opcodes with a signed 16-bit displacement, relative to the next instruction. -/
inductive JumpOp where
  | jmp | jmpIf | jmpUnless | jmpIfKeep | jmpUnlessKeep | jmpNotnullKeep | jmpIfnullKeep
  deriving DecidableEq

/-- Opcodes with a 16-bit name and an argument count. -/
inductive CallOp where
  | call | newObj | mcall
  deriving DecidableEq

/-- Opcodes with two 16-bit operands. -/
inductive PairOp where
  | scallArray | spropGet | spropSet | clsconst
  deriving DecidableEq

/-- Opcodes with two 16-bit operands and a byte. -/
inductive TripleOp where
  | scall | defClass | defMethod
  deriving DecidableEq

/-- The opcodes of the instruction set, grouped by the operands that follow them. -/
inductive Opcode where
  | plain (op : PlainOp)
  | byte (op : ByteOp)
  | word (op : WordOp)
  | jump (op : JumpOp)
  | named (op : CallOp)
  | pair (op : PairOp)
  | triple (op : TripleOp)
  | loadI32 | staticInit | feNext | defProp | closure
  deriving DecidableEq

def PlainOp.toByte : PlainOp → UInt8
  | .nop => 0x00 | .halt => 0x01 | .pop => 0x02 | .dup => 0x03 | .swap => 0x04 | .loadNull => 0x10
  | .loadTrue => 0x11 | .loadFalse => 0x12 | .loadArgc => 0x18 | .add => 0x20 | .sub => 0x21
  | .mul => 0x22 | .div => 0x23 | .mod => 0x24 | .pow => 0x25 | .neg => 0x26 | .concat => 0x27
  | .band => 0x28 | .bor => 0x29 | .bxor => 0x2a | .bnot => 0x2b | .shl => 0x2c | .shr => 0x2d
  | .eq => 0x30 | .ne => 0x31 | .ident => 0x32 | .nident => 0x33 | .lt => 0x34 | .le => 0x35
  | .gt => 0x36 | .ge => 0x37 | .cmp => 0x38 | .not => 0x39 | .instanceofDynamic => 0x3c
  | .ret => 0x52 | .retNull => 0x53 | .callValueArray => 0x56 | .typecheckArgs => 0x58
  | .arrPush => 0x61 | .arrSet => 0x62 | .idxGet => 0x63 | .idxSet => 0x64 | .idxAppend => 0x65
  | .feInit => 0x66 | .feFree => 0x68 | .arrExtend => 0x69 | .arrSeparate => 0x6a
  | .idxUnset => 0x6b | .idxGetQuiet => 0x6c | .newObjDynamicArray => 0x7e | .throw => 0x81
  | .clone => 0x82 | .defEnd => 0x8a | .propGetDynamic => 0x91 | .propSetDynamic => 0x92
  | .propGetDynamicQuiet => 0x93 | .mcallDynamicArray => 0x95

def ByteOp.toByte : ByteOp → UInt8
  | .loadI8 => 0x13 | .loadLocal => 0x16 | .storeLocal => 0x17 | .bindGlobal => 0x19
  | .loadLocalQuiet => 0x1c | .unsetLocal => 0x1d | .cast => 0x3a | .callValue => 0x51
  | .echo => 0x54 | .includeFile => 0x57 | .newObjDynamic => 0x7d | .mcallDynamic => 0x94

def WordOp.toByte : WordOp → UInt8
  | .loadConst => 0x15 | .loadNamedConst => 0x1b | .callArray => 0x55 | .newArray => 0x60
  | .propGet => 0x71 | .propSet => 0x72 | .mcallArray => 0x74 | .newObjArray => 0x75
  | .instanceof => 0x78 | .propGetQuiet => 0x7c | .defFunc => 0x84 | .defCconst => 0x85
  | .defConst => 0x89 | .defInterface => 0x8b | .line => 0x90

def JumpOp.toByte : JumpOp → UInt8
  | .jmp => 0x40 | .jmpIf => 0x41 | .jmpUnless => 0x42 | .jmpIfKeep => 0x43
  | .jmpUnlessKeep => 0x44 | .jmpNotnullKeep => 0x45 | .jmpIfnullKeep => 0x46

def CallOp.toByte : CallOp → UInt8
  | .call => 0x50 | .newObj => 0x70 | .mcall => 0x73

def PairOp.toByte : PairOp → UInt8
  | .scallArray => 0x77 | .spropGet => 0x79 | .spropSet => 0x7a | .clsconst => 0x7b

def TripleOp.toByte : TripleOp → UInt8
  | .scall => 0x76 | .defClass => 0x86 | .defMethod => 0x87

/-- The byte of an opcode. -/
def Opcode.toByte : Opcode → UInt8
  | .plain op => op.toByte
  | .byte op => op.toByte
  | .word op => op.toByte
  | .jump op => op.toByte
  | .named op => op.toByte
  | .pair op => op.toByte
  | .triple op => op.toByte
  | .loadI32 => 0x14 | .staticInit => 0x1a | .feNext => 0x67 | .defProp => 0x88 | .closure => 0x80

/-- The opcode of a byte, if it is one. -/
def Opcode.ofByte (b : UInt8) : Option Opcode :=
  match b with
  | 0x00 => some (.plain .nop) | 0x01 => some (.plain .halt) | 0x02 => some (.plain .pop)
  | 0x03 => some (.plain .dup) | 0x04 => some (.plain .swap) | 0x10 => some (.plain .loadNull)
  | 0x11 => some (.plain .loadTrue) | 0x12 => some (.plain .loadFalse)
  | 0x13 => some (.byte .loadI8) | 0x14 => some .loadI32 | 0x15 => some (.word .loadConst)
  | 0x16 => some (.byte .loadLocal) | 0x17 => some (.byte .storeLocal)
  | 0x18 => some (.plain .loadArgc) | 0x19 => some (.byte .bindGlobal) | 0x1a => some .staticInit
  | 0x1b => some (.word .loadNamedConst) | 0x1c => some (.byte .loadLocalQuiet)
  | 0x1d => some (.byte .unsetLocal) | 0x20 => some (.plain .add) | 0x21 => some (.plain .sub)
  | 0x22 => some (.plain .mul) | 0x23 => some (.plain .div) | 0x24 => some (.plain .mod)
  | 0x25 => some (.plain .pow) | 0x26 => some (.plain .neg) | 0x27 => some (.plain .concat)
  | 0x28 => some (.plain .band) | 0x29 => some (.plain .bor) | 0x2a => some (.plain .bxor)
  | 0x2b => some (.plain .bnot) | 0x2c => some (.plain .shl) | 0x2d => some (.plain .shr)
  | 0x30 => some (.plain .eq) | 0x31 => some (.plain .ne) | 0x32 => some (.plain .ident)
  | 0x33 => some (.plain .nident) | 0x34 => some (.plain .lt) | 0x35 => some (.plain .le)
  | 0x36 => some (.plain .gt) | 0x37 => some (.plain .ge) | 0x38 => some (.plain .cmp)
  | 0x39 => some (.plain .not) | 0x3a => some (.byte .cast)
  | 0x3c => some (.plain .instanceofDynamic) | 0x40 => some (.jump .jmp)
  | 0x41 => some (.jump .jmpIf) | 0x42 => some (.jump .jmpUnless) | 0x43 => some (.jump .jmpIfKeep)
  | 0x44 => some (.jump .jmpUnlessKeep) | 0x45 => some (.jump .jmpNotnullKeep)
  | 0x46 => some (.jump .jmpIfnullKeep) | 0x50 => some (.named .call)
  | 0x51 => some (.byte .callValue) | 0x52 => some (.plain .ret) | 0x53 => some (.plain .retNull)
  | 0x54 => some (.byte .echo) | 0x55 => some (.word .callArray)
  | 0x56 => some (.plain .callValueArray) | 0x57 => some (.byte .includeFile)
  | 0x58 => some (.plain .typecheckArgs) | 0x60 => some (.word .newArray)
  | 0x61 => some (.plain .arrPush) | 0x62 => some (.plain .arrSet) | 0x63 => some (.plain .idxGet)
  | 0x64 => some (.plain .idxSet) | 0x65 => some (.plain .idxAppend)
  | 0x66 => some (.plain .feInit) | 0x67 => some .feNext | 0x68 => some (.plain .feFree)
  | 0x69 => some (.plain .arrExtend) | 0x6a => some (.plain .arrSeparate)
  | 0x6b => some (.plain .idxUnset) | 0x6c => some (.plain .idxGetQuiet)
  | 0x70 => some (.named .newObj) | 0x71 => some (.word .propGet) | 0x72 => some (.word .propSet)
  | 0x73 => some (.named .mcall) | 0x74 => some (.word .mcallArray)
  | 0x75 => some (.word .newObjArray) | 0x76 => some (.triple .scall)
  | 0x77 => some (.pair .scallArray) | 0x78 => some (.word .instanceof)
  | 0x79 => some (.pair .spropGet) | 0x7a => some (.pair .spropSet)
  | 0x7b => some (.pair .clsconst) | 0x7c => some (.word .propGetQuiet)
  | 0x7d => some (.byte .newObjDynamic) | 0x7e => some (.plain .newObjDynamicArray)
  | 0x80 => some .closure | 0x81 => some (.plain .throw) | 0x82 => some (.plain .clone)
  | 0x84 => some (.word .defFunc) | 0x85 => some (.word .defCconst)
  | 0x86 => some (.triple .defClass) | 0x87 => some (.triple .defMethod) | 0x88 => some .defProp
  | 0x89 => some (.word .defConst) | 0x8a => some (.plain .defEnd)
  | 0x8b => some (.word .defInterface) | 0x90 => some (.word .line)
  | 0x91 => some (.plain .propGetDynamic) | 0x92 => some (.plain .propSetDynamic)
  | 0x93 => some (.plain .propGetDynamicQuiet) | 0x94 => some (.byte .mcallDynamic)
  | 0x95 => some (.plain .mcallDynamicArray)
  | _ => none

@[simp] theorem Opcode.ofByte_toByte (op : Opcode) : Opcode.ofByte op.toByte = some op := by
  cases op with
  | plain op => cases op <;> rfl
  | byte op => cases op <;> rfl
  | word op => cases op <;> rfl
  | jump op => cases op <;> rfl
  | named op => cases op <;> rfl
  | pair op => cases op <;> rfl
  | triple op => cases op <;> rfl
  | _ => rfl

theorem Opcode.toByte_of_ofByte {b : UInt8} {op : Opcode} (h : Opcode.ofByte b = some op) : op.toByte = b := by
  unfold Opcode.ofByte at h
  split at h <;> first | (cases h; rfl) | exact absurd h nofun

/-! ## Instructions -/

/-- The captures of a closure: one kind and one slot for each, at most 255 of them. -/
abbrev Captures := { captures : List (UInt8 × UInt8) // captures.length ≤ 255 }

inductive Instr where
  | plain (op : PlainOp)
  | byte (op : ByteOp) (a : UInt8)
  | word (op : WordOp) (a : UInt16)
  | jump (op : JumpOp) (rel : Int16)
  | named (op : CallOp) (name : UInt16) (argc : UInt8)
  | pair (op : PairOp) (a b : UInt16)
  | triple (op : TripleOp) (a b : UInt16) (c : UInt8)
  | loadI32 (value : Int32)
  | staticInit (slot : UInt8) (rel : Int16)
  | feNext (rel : Int16) (hasKey : UInt8)
  /-- The property's type and whether it has a default are there only with type checks. -/
  | defProp (name : UInt16) (flags : UInt8) (type : Option (UInt16 × UInt8))
  | closure (proto : UInt16) (captures : Captures)
  deriving DecidableEq

def Instr.opcode : Instr → Opcode
  | .plain op => .plain op
  | .byte op _ => .byte op
  | .word op _ => .word op
  | .jump op _ => .jump op
  | .named op _ _ => .named op
  | .pair op _ _ => .pair op
  | .triple op _ _ _ => .triple op
  | .loadI32 _ => .loadI32
  | .staticInit _ _ => .staticInit
  | .feNext _ _ => .feNext
  | .defProp _ _ _ => .defProp
  | .closure _ _ => .closure

/-- The bytes of a signed displacement. -/
def lei16 (rel : Int16) : List UInt8 := le16 rel.toUInt16

def captureBytes (captures : List (UInt8 × UInt8)) : List UInt8 :=
  captures.flatMap fun capture => [capture.1, capture.2]

/-- The operand bytes of an instruction. -/
def Instr.operands : Instr → List UInt8
  | .plain _ => []
  | .byte _ a => [a]
  | .word _ a => le16 a
  | .jump _ rel => lei16 rel
  | .named _ name argc => le16 name ++ [argc]
  | .pair _ a b => le16 a ++ le16 b
  | .triple _ a b c => le16 a ++ le16 b ++ [c]
  | .loadI32 value => le32 value.toUInt32
  | .staticInit slot rel => slot :: lei16 rel
  | .feNext rel hasKey => lei16 rel ++ [hasKey]
  | .defProp name flags none => le16 name ++ [flags]
  | .defProp name flags (some (type, hasDefault)) => le16 name ++ [flags] ++ le16 type ++ [hasDefault]
  | .closure proto captures =>
    le16 proto ++ [UInt8.ofNat captures.val.length] ++ captureBytes captures.val

def Instr.encode (i : Instr) : List UInt8 := i.opcode.toByte :: i.operands

/-- The instructions that exist in a build. -/
def Instr.Valid (cfg : Config) : Instr → Prop
  | .plain .typecheckArgs => cfg.typecheck = true
  | .defProp _ _ type => type.isSome = cfg.typecheck
  | _ => True

instance (cfg : Config) (i : Instr) : Decidable (i.Valid cfg) := by
  unfold Instr.Valid
  split <;> infer_instance

@[simp] theorem lei16_length (rel : Int16) : (lei16 rel).length = 2 := rfl

@[simp] theorem captureBytes_length (captures : List (UInt8 × UInt8)) :
    (captureBytes captures).length = 2 * captures.length := by
  induction captures with
  | nil => rfl
  | cons capture rest ih =>
    rw [captureBytes, List.flatMap_cons, List.length_append, ← captureBytes, ih]
    simp only [List.length_cons, List.length_nil]
    omega

/-- The length of an instruction's bytes. -/
def Instr.size (i : Instr) : Nat := i.encode.length

theorem Instr.size_pos (i : Instr) : 0 < i.size := by
  simp [size, encode]

theorem Instr.encode_ne_nil (i : Instr) : i.encode ≠ [] := List.cons_ne_nil _ _

/-! ## Instruction sequences -/

/-- The bytes of an instruction sequence. -/
def encodeAll (instrs : List Instr) : List UInt8 := instrs.flatMap Instr.encode

end PhpPico
