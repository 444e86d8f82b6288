import PhpPico.Closure.Captures

/-!
# Code of expressions

What `compile_expression` emits, and the state it emits into. Locals are written by names, temporary slots by numbers,
constants by what the pool holds, and a jump by the number of instructions it leaves out. The limits of buffers, pools
and distances are left out: they only refuse more.
-/

namespace PhpPico.Compiler

open Call Closure

/-- A constant of the pool; floating point numbers and strings are kept as their tokens. -/
inductive Pooled where
  | int (value : Int)
  | float (token : Token)
  | integerFloat (token : Token)
  | string (token : Token)

/-- An instruction of an expression. -/
inductive Code where
  | plain (op : PlainOp)
  | byte (op : ByteOp) (operand : Nat)
  | loadI32 (value : Nat)
  | loadConst (value : Pooled)
  | loadLocal (quiet : Bool) (name : Name)
  | storeLocal (name : Name)
  | unsetLocal (name : Name)
  | loadTemporary (number : Nat)
  | storeTemporary (number : Nat)
  | word (op : WordOp) (name : Name)
  | newArray (count : Nat)
  | jump (op : JumpOp) (skipped : Nat)
  | named (op : CallOp) (name : Name) (count : Nat)
  | pair (op : PairOp) (className name : Name)
  | scall (className name : Name) (count : Nat)
  | closure (node : Ast) (captures : List Name)

namespace Code

/-- The locals that an instruction reads. -/
def reads : Code → List Name
  | loadLocal _ name => [name]
  | closure _ captures => captures
  | _ => []

/-- The local that an instruction writes. -/
def writes : Code → Option Name
  | storeLocal name | unsetLocal name => some name
  | _ => none

/-- A jump over so many instructions. -/
def withOver (skipped : Nat) : Code → Code
  | jump op _ => jump op skipped
  | i => i

end Code

/-- The state of the generator: the code, and how many temporary slots there are. -/
structure Generated where
  code : List Code
  temporaries : Nat

/-- The variables that the code so far reads. -/
def readIn (s : Generated) : List Name := s.code.flatMap Code.reads

/-- A step of the generator; it fails with a text. Code that reads a variable goes on to read it. -/
structure Gen (α : Type) where
  run : Generated → Except (List UInt8) (α × Generated)
  keeps : ∀ s a s', run s = .ok (a, s') → ∀ x ∈ readIn s, x ∈ readIn s'

namespace Gen
variable {α β : Type}

/-- A step that changes nothing. -/
def value (a : α) : Gen α where
  run s := .ok (a, s)
  keeps s b s' ran := by
    cases ran
    exact fun x mem => mem

/-- One step, and then another. -/
def andThen (g : Gen α) (f : α → Gen β) : Gen β where
  run s :=
    match g.run s with
    | .error failure => .error failure
    | .ok (a, s) => (f a).run s
  keeps s b s' ran x mem := by
    split at ran
    · cases ran
    · rename_i a between first
      exact (f a).keeps between b s' ran x (g.keeps s a between first x mem)

instance : Monad Gen where
  pure := value
  bind := andThen

/-- A step that fails. -/
def failure (text : List UInt8) : Gen α where
  run _ := .error text
  keeps s a s' ran := by cases ran

/-- A step that changes the state to one whose code reads no less. -/
def changes (f : Generated → α × Generated) (keeps : ∀ s, ∀ x ∈ readIn s, x ∈ readIn (f s).2) : Gen α where
  run s := .ok (f s)
  keeps s a s' ran x mem := by
    have same : f s = (a, s') := Except.ok.inj ran
    have kept := keeps s x mem
    rw [same] at kept
    exact kept

end Gen

theorem Code.withOver_reads (skipped : Nat) (i : Code) : (i.withOver skipped).reads = i.reads := by cases i <;> rfl

theorem readIn_modify (code : List Code) (position skipped : Nat) :
    (code.modify position (Code.withOver skipped)).flatMap Code.reads = code.flatMap Code.reads := by
  induction code generalizing position with
  | nil => simp
  | cons i rest ih =>
    cases position with
    | zero => simp [Code.withOver_reads]
    | succ position => simp [ih]

theorem readIn_emit (s : Generated) (i : Code) : readIn { s with code := s.code ++ [i] } = readIn s ++ i.reads := by
  simp [readIn]

/-- `fail`. -/
def failWith {α : Type} (text : List UInt8) : Gen α := Gen.failure text

/-- `emit_byte` and its siblings, for a whole instruction. -/
def emit (i : Code) : Gen Unit :=
  Gen.changes (fun s => ((), { s with code := s.code ++ [i] })) fun s x mem => by
    rw [readIn_emit]
    exact List.mem_append_left _ mem

/-- The position behind the code. -/
def codeLength : Gen Nat := Gen.changes (fun s => (s.code.length, s)) fun _ _ mem => mem

/-- `emit_jump`: the position of the jump. -/
def emitJump (op : JumpOp) : Gen Nat := do
  let position ← codeLength
  emit (.jump op 0)
  return position

/-- `patch_jump`. -/
def patchTo (position target : Nat) : Gen Unit :=
  Gen.changes
    (fun s => ((), { s with code := s.code.modify position (Code.withOver (target - (position + 1))) }))
    fun s x mem => by
      dsimp only [readIn]
      rw [readIn_modify]
      exact mem

/-- `patch_jump` to the position behind the code. -/
def patchJump (position : Nat) : Gen Unit := do
  let target ← codeLength
  patchTo position target

/-- `patch_jump` on several jumps. -/
def patchJumps : List Nat → Gen Unit
  | [] => return ()
  | position :: rest => do
    patchJump position
    patchJumps rest

/-- `temporary_slot`. -/
def temporarySlot : Gen Nat :=
  Gen.changes (fun s => (s.temporaries, { s with temporaries := s.temporaries + 1 })) fun _ _ mem => mem

/-- `clear_temporary_slot`. -/
def clearTemporarySlot (slot : Nat) : Gen Unit := do
  emit (.plain .loadNull)
  emit (.storeTemporary slot)

/-! ## Literals -/

/-- The digits of an integer literal and their base. -/
def integerTokenPrefix : List UInt8 → List UInt8 × Nat
  | 48 :: 120 :: digits | 48 :: 88 :: digits => (digits, 16)
  | 48 :: 98 :: digits | 48 :: 66 :: digits => (digits, 2)
  | 48 :: 111 :: digits | 48 :: 79 :: digits => (digits, 8)
  | 48 :: digit :: digits =>
    if 48 ≤ digit ∧ digit ≤ 55 then (digit :: digits, 8) else (48 :: digit :: digits, 10)
  | text => (text, 10)

/-- `integer_token_digit`. -/
def integerTokenDigit (value : UInt8) : Nat :=
  if 48 ≤ value ∧ value ≤ 57 then value.toNat - 48
  else if 97 ≤ value ∧ value ≤ 102 then value.toNat - 97 + 10
  else value.toNat - 65 + 10

/-- The loop of `parse_integer_token`. -/
def parseIntegerDigits (base : Nat) : List UInt8 → Nat → Bool → Nat × Bool
  | [], value, overflow => (value, overflow)
  | byte :: rest, value, overflow =>
    if byte = 95 then parseIntegerDigits base rest value overflow
    else
      let digit := integerTokenDigit byte
      if (2 ^ 64 - 1 - digit) / base < value then parseIntegerDigits base rest value true
      else parseIntegerDigits base rest (value * base + digit) overflow

/-- `parse_integer_token`: the magnitude, and whether it overflows. -/
def parseIntegerToken (token : Token) : Nat × Bool :=
  let (digits, base) := integerTokenPrefix token.text
  parseIntegerDigits base digits 0 false

/-- `PPHP_INT_MAXIMUM`. -/
def intMaximum (cfg : Config) : Nat := 2 ^ (cfg.intWidth - 1) - 1

/-- The case of `AST_INT`. -/
def emitInteger (cfg : Config) (token : Token) : Gen Unit :=
  let (magnitude, overflow) := parseIntegerToken token
  if overflow then
    if cfg.enableFloat then emit (.loadConst (.integerFloat token))
    else failWith (ascii "integer literal is out of range")
  else if magnitude ≤ 127 then emit (.byte .loadI8 magnitude)
  else if magnitude ≤ 2 ^ 31 - 1 then emit (.loadI32 magnitude)
  else if magnitude ≤ intMaximum cfg then emit (.loadConst (.int magnitude))
  else if cfg.enableFloat then emit (.loadConst (.integerFloat token))
  else if cfg.int64 then failWith (ascii "integer literal is out of range")
  else failWith (ascii "integer literal requires float support")

/-- The cases of the kinds that hold just a token; a variable is read quietly in a quiet access chain. -/
def emitLiteral (cfg : Config) (quiet : Bool) (kind : LiteralKind) (token : Token) : Gen Unit :=
  match kind with
  | .bool => emit (.plain (if token.type = .tTrue then .loadTrue else .loadFalse))
  | .int => emitInteger cfg token
  | .float => if cfg.enableFloat then emit (.loadConst (.float token)) else failWith (ascii "float support disabled")
  | .string => emit (.loadConst (.string token))
  | .identifier => emit (.word .loadNamedConst token.text)
  | .variable => emit (.loadLocal quiet (variableName token))

/-! ## Operators -/

/-- `binary_opcode`; `none` stands for `OP_NOP`. -/
def binaryOpcode : TokenType → Option PlainOp
  | .tPlus => some .add
  | .tMinus => some .sub
  | .tStar => some .mul
  | .tSlash => some .div
  | .tPercent => some .mod
  | .tPow => some .pow
  | .tDot => some .concat
  | .tAmp => some .band
  | .tPipe => some .bor
  | .tCaret => some .bxor
  | .tShiftLeft => some .shl
  | .tShiftRight => some .shr
  | .tEqualEqual => some .eq
  | .tNotEqual => some .ne
  | .tIdentical => some .ident
  | .tNotIdentical => some .nident
  | .tLt => some .lt
  | .tLtEqual => some .le
  | .tGt => some .gt
  | .tGtEqual => some .ge
  | .tSpaceship => some .cmp
  | _ => none

/-- `compound_operator`. -/
def compoundOperator : TokenType → TokenType
  | .tPlusEqual => .tPlus
  | .tMinusEqual => .tMinus
  | .tStarEqual => .tStar
  | .tSlashEqual => .tSlash
  | .tDotEqual => .tDot
  | .tPercentEqual => .tPercent
  | .tPowEqual => .tPow
  | .tAmpEqual => .tAmp
  | .tPipeEqual => .tPipe
  | .tCaretEqual => .tCaret
  | .tShiftLeftEqual => .tShiftLeft
  | .tShiftRightEqual => .tShiftRight
  | type => type

/-- The operation of a compound assignment. -/
def emitCompound (op : TokenType) : Gen Unit :=
  match binaryOpcode (compoundOperator op) with
  | some opcode => emit (.plain opcode)
  | none => failWith (ascii "unsupported compound assignment")

/-- The target of a cast, as a `pvalue_type`. -/
def castTarget : TokenType → Option Nat
  | .tIntType => some 3
  | .tFloatType => some 4
  | .tStringType => some 5
  | .tBoolType => some 2
  | .tArray => some 6
  | _ => none

/-- The operation of a unary operator behind its operand. -/
def emitUnary (op : TokenType) : Gen Unit :=
  match op with
  | .tMinus => emit (.plain .neg)
  | .tPlus => do
    emit (.byte .loadI8 0)
    emit (.plain .add)
  | .tBang => emit (.plain .not)
  | .tTilde => emit (.plain .bnot)
  | .tClone => emit (.plain .clone)
  | op =>
    match castTarget op with
    | some target => emit (.byte .cast target)
    | none => failWith (ascii "unsupported unary operator")

/-! ## Targets of assignments -/

/-- What an index of an assignment starts from: a variable, or a property whose value, object and name are kept in
temporary slots. -/
inductive Root where
  | named (name : Name) (quiet : Bool)
  | property (slot object : Nat) (dynamicName : Option Nat) (name : Name)
  | staticProperty (slot : Nat) (className name : Name)

/-- `index_lvalue`: the slots of the keys, none for an empty index, and of the arrays between. -/
structure IndexLvalue where
  root : Root
  keys : List (Option Nat)
  parents : List Nat

/-- Loads the root. -/
def Root.emitLoad : Root → Gen Unit
  | .named name quiet => emit (.loadLocal quiet name)
  | .property slot .. | .staticProperty slot .. => emit (.loadTemporary slot)

namespace IndexLvalue

/-- `emit_index_parent`. -/
def emitParent (lvalue : IndexLvalue) (index : Nat) : Gen Unit :=
  match index with
  | 0 => lvalue.root.emitLoad
  | before + 1 => emit (.loadTemporary (lvalue.parents.getD before 0))

/-- Loads a key; a slot that was not given is slot zero. -/
def emitKey (lvalue : IndexLvalue) (index : Nat) : Gen Unit :=
  emit (.loadTemporary ((lvalue.keys.getD index none).getD 0))

/-- The position of the last index. -/
def leaf (lvalue : IndexLvalue) : Nat := lvalue.keys.length - 1

/-- Whether the last index is empty. -/
def isAppend (lvalue : IndexLvalue) : Bool := (lvalue.keys.getD lvalue.leaf none).isNone

/-- `emit_index_current`. -/
def emitCurrent (lvalue : IndexLvalue) : Gen Unit := do
  lvalue.emitParent lvalue.leaf
  lvalue.emitKey lvalue.leaf
  emit (.plain .idxGet)

/-- `store_index_root`. -/
def storeRoot (lvalue : IndexLvalue) : Gen Unit :=
  match lvalue.root with
  | .named name _ => emit (.storeLocal name)
  | .staticProperty slot className name => do
    emit (.storeTemporary slot)
    emit (.loadTemporary slot)
    emit (.pair .spropSet className name)
    emit (.plain .pop)
  | .property slot object (some dynamicName) _ => do
    emit (.storeTemporary slot)
    emit (.loadTemporary object)
    emit (.loadTemporary dynamicName)
    emit (.loadTemporary slot)
    emit (.plain .propSetDynamic)
    emit (.plain .pop)
  | .property slot object none name => do
    emit (.storeTemporary slot)
    emit (.loadTemporary object)
    emit (.loadTemporary slot)
    emit (.word .propSet name)
    emit (.plain .pop)

/-- The loop of `propagate_index_update`. -/
def propagateFrom (lvalue : IndexLvalue) (update : Nat) : Nat → Gen Unit
  | index + 2 => do
    emit (.storeTemporary update)
    lvalue.emitParent index
    lvalue.emitKey index
    emit (.loadTemporary update)
    emit (.plain .idxSet)
    emit (.plain .pop)
    propagateFrom lvalue update (index + 1)
  | _ => return ()

/-- `propagate_index_update`. -/
def propagateUpdate (lvalue : IndexLvalue) : Gen Unit := do
  let update ← temporarySlot
  lvalue.propagateFrom update lvalue.keys.length
  lvalue.storeRoot
  clearTemporarySlot update

/-- `store_index_value`. -/
def storeValue (lvalue : IndexLvalue) (value : Nat) : Gen Unit := do
  lvalue.emitParent lvalue.leaf
  if !lvalue.isAppend then lvalue.emitKey lvalue.leaf
  emit (.loadTemporary value)
  emit (.plain (if lvalue.isAppend then .idxAppend else .idxSet))
  emit (.plain .pop)
  lvalue.propagateUpdate
  emit (.loadTemporary value)

/-- The loop of `clear_index_lvalue`. -/
def clearSlots : List (Option Nat) → List Nat → Gen Unit
  | [], _ => return ()
  | key :: keys, parents => do
    match key with
    | some slot => clearTemporarySlot slot
    | none => return ()
    match parents with
    | [] => clearSlots keys []
    | parent :: parents =>
      clearTemporarySlot parent
      clearSlots keys parents

/-- `clear_index_lvalue`. -/
def clear (lvalue : IndexLvalue) : Gen Unit := do
  clearSlots lvalue.keys lvalue.parents
  match lvalue.root with
  | .named .. => return ()
  | .staticProperty slot .. => clearTemporarySlot slot
  | .property slot object dynamicName _ =>
    clearTemporarySlot slot
    clearTemporarySlot object
    match dynamicName with
    | some name => clearTemporarySlot name
    | none => return ()

/-- `unset_index_value`. -/
def unsetValue (lvalue : IndexLvalue) : Gen Unit :=
  if lvalue.isAppend then failWith (ascii "cannot unset an empty array index")
  else do
    lvalue.emitParent lvalue.leaf
    lvalue.emitKey lvalue.leaf
    emit (.plain .idxUnset)
    lvalue.propagateUpdate
    emit (.plain .loadNull)
    lvalue.clear

end IndexLvalue

end PhpPico.Compiler
