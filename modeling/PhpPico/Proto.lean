import PhpPico.Instr

/-!
# Protos and modules

A module is the list of protos of one source file, the entry first; a proto is one function body with its constants,
locals and catch ranges. The operations are those of `pbc.c`, with allocation failure left out.
-/

namespace PhpPico
open ByteLayout

/-! ## Strings -/

/-- A runtime string: `pstring` keeps its length in 16 bits. -/
structure PString where
  bytes : List UInt8
  length_le : bytes.length ≤ 65535
  deriving DecidableEq

/-- `ps_new`: strings longer than `PPHP_STR_MAX` are refused. -/
def psNew (bytes : List UInt8) : Option PString :=
  if h : bytes.length ≤ 65535 then some ⟨bytes, h⟩ else none

@[simp] theorem psNew_bytes (s : PString) : psNew s.bytes = some s := by
  simp [psNew, s.length_le]

/-- The bytes of a text. -/
def ascii (text : String) : List UInt8 := text.toList.map fun c => UInt8.ofNat c.toNat

/-- What `%u` and `%lu` print. -/
def printUnsigned (n : Nat) : List UInt8 := (Nat.toDigits 10 n).map fun digit => UInt8.ofNat digit.toNat

/-- What `snprintf` leaves in a buffer of `size` bytes. -/
def clip (size : Nat) (text : List UInt8) : List UInt8 := text.take (size - 1)

/-- What `%.*s` prints of a string. -/
def printed (bytes : List UInt8) : List UInt8 := bytes.takeWhile (· ≠ 0)

/-- ASCII lower case of a byte. -/
def lowerByte (b : UInt8) : UInt8 := if 65 ≤ b ∧ b ≤ 90 then b + 32 else b

/-- `pbc_bytes_equal_ci`. -/
def bytesEqualCi (left right : List UInt8) : Bool :=
  left.map lowerByte == right.map lowerByte

theorem bytesEqualCi_iff {a b : List UInt8} : bytesEqualCi a b = true ↔ a.map lowerByte = b.map lowerByte := by
  simp [bytesEqualCi]

theorem bytesEqualCi_refl (a : List UInt8) : bytesEqualCi a a = true := bytesEqualCi_iff.mpr rfl

theorem bytesEqualCi_symm {a b : List UInt8} (h : bytesEqualCi a b = true) : bytesEqualCi b a = true :=
  bytesEqualCi_iff.mpr (bytesEqualCi_iff.mp h).symm

theorem bytesEqualCi_trans {a b c : List UInt8} (hab : bytesEqualCi a b = true)
    (hbc : bytesEqualCi b c = true) : bytesEqualCi a c = true :=
  bytesEqualCi_iff.mpr ((bytesEqualCi_iff.mp hab).trans (bytesEqualCi_iff.mp hbc))

/-! ## Constants and types -/

/-- The width of `pphp_int`. -/
def Config.intWidth (cfg : Config) : Nat := if cfg.int64 then 64 else 32

/-- The width of `pphp_float`. -/
def Config.floatWidth (cfg : Config) : Nat := if cfg.useDouble then 64 else 32

/-- A constant of a proto. Floating point constants are kept as their bits. -/
inductive Constant (cfg : Config) where
  | int (value : BitVec cfg.intWidth)
  | float (bits : BitVec cfg.floatWidth)
  | string (s : PString)
  deriving DecidableEq

/-- The string a constant holds, if it is one. -/
def Constant.string? {cfg : Config} : Constant cfg → Option PString
  | .string s => some s
  | _ => none

/-- The type kinds below `PTYPE_NAMED`. -/
inductive TypeKind where
  | int | float | string | bool | array | callable | mixed | void | null | self | static | parent
  deriving DecidableEq

def TypeKind.toByte : TypeKind → UInt8
  | .int => 1 | .float => 2 | .string => 3 | .bool => 4 | .array => 5 | .callable => 6 | .mixed => 7
  | .void => 8 | .null => 9 | .self => 10 | .static => 11 | .parent => 12

def TypeKind.ofByte (b : UInt8) : Option TypeKind :=
  match b with
  | 1 => some .int | 2 => some .float | 3 => some .string | 4 => some .bool | 5 => some .array
  | 6 => some .callable | 7 => some .mixed | 8 => some .void | 9 => some .null | 10 => some .self
  | 11 => some .static | 12 => some .parent
  | _ => none

@[simp] theorem TypeKind.ofByte_toByte (k : TypeKind) : TypeKind.ofByte k.toByte = some k := by
  cases k <;> rfl

/-- `PTYPE_NAMED`. -/
def namedKind : UInt8 := 13

theorem TypeKind.toByte_ne_named (k : TypeKind) : k.toByte ≠ namedKind := by
  cases k <;> decide

inductive TypeMember where
  | kind (kind : TypeKind)
  | named (name : PString)
  deriving DecidableEq

/-- A type: the alternatives of a union, none for an absent type. `count` is one byte. -/
structure TypeSpec where
  members : List TypeMember
  count_le : members.length ≤ 255
  deriving DecidableEq

def TypeSpec.none : TypeSpec := ⟨[], by decide⟩

/-! ## Protos -/

structure PCatch where
  tryStart : UInt16
  tryEnd : UInt16
  handlerPc : UInt16
  classConstant : UInt16
  variableSlot : UInt8
  deriving DecidableEq

inductive ProtoRole where
  | function | main | method | closure
  deriving DecidableEq

structure Proto (cfg : Config) where
  name : PString
  nParams : UInt8
  nRequired : UInt8
  variadic : Bool
  isMethod : Bool
  conditional : Bool
  role : ProtoRole
  maxStack : UInt16
  code : List UInt8
  constants : List (Constant cfg)
  locals : List PString
  locals_le : locals.length ≤ 255
  catches : List PCatch
  parameterTypes : List TypeSpec
  returnType : TypeSpec
  deriving DecidableEq

structure Module (cfg : Config) where
  protos : List (Proto cfg)
  deriving DecidableEq

variable {cfg : Config}

/-- `n_locals`. -/
def Proto.nLocals (p : Proto cfg) : Nat := p.locals.length

/-- The type of a parameter; absent when `parameter_types` does not reach it. -/
def Proto.parameterType (p : Proto cfg) (j : Nat) : TypeSpec := p.parameterTypes.getD j TypeSpec.none

/-- The string constant at an index, `pbc_string_constant`. -/
def Proto.stringConstant (p : Proto cfg) (index : UInt16) : Option PString :=
  (p.constants[index.toNat]?).bind Constant.string?

/-- `pproto_new`. -/
def Proto.new (name : PString) : Proto cfg where
  name := name
  nParams := 0
  nRequired := 0
  variadic := false
  isMethod := false
  conditional := false
  role := .function
  maxStack := 0
  code := []
  constants := []
  locals := []
  locals_le := by decide
  catches := []
  parameterTypes := []
  returnType := TypeSpec.none

/-- `pproto_patch_i16`: the displacement from behind the operand to the target. -/
def patchI16 (code : List UInt8) (operandOffset target : Nat) : Option (List UInt8) :=
  if operandOffset + 2 ≤ code.length then
    let relative : Int := (target : Int) - (operandOffset + 2 : Nat)
    if -32768 ≤ relative ∧ relative ≤ 32767 then
      some (blit code operandOffset (lei16 (Int16.ofInt relative)))
    else none
  else none

/-- `pproto_add_constant`: at most `UINT16_MAX` constants. -/
def Proto.addConstant (p : Proto cfg) (value : Constant cfg) : Option (Proto cfg × UInt16) :=
  if p.constants.length < 65535 then
    some ({ p with constants := p.constants ++ [value] }, UInt16.ofNat p.constants.length)
  else none

/-- `pproto_find_local`. -/
def Proto.findLocal (p : Proto cfg) (name : List UInt8) : Option UInt8 :=
  (p.locals.findIdx? fun candidate => candidate.bytes == name).map UInt8.ofNat

/-- `pproto_add_local`: an existing local is found, a new one gets the next slot. -/
def Proto.addLocal (p : Proto cfg) (name : List UInt8) : Option (Proto cfg × UInt8) :=
  match p.findLocal name with
  | some slot => some (p, slot)
  | none =>
    if full : p.locals.length < 255 then
      (psNew name).map fun string =>
        ({ p with
            locals := p.locals ++ [string]
            locals_le := by rw [List.length_append, List.length_singleton]; omega }, UInt8.ofNat p.locals.length)
    else none

/-- `pproto_add_catch`. -/
def Proto.addCatch (p : Proto cfg) (entry : PCatch) : Option (Proto cfg) :=
  if p.catches.length < 65535 then some { p with catches := p.catches ++ [entry] } else none

end PhpPico
