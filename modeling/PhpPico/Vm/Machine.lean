import Mathlib.Logic.Relation
import PhpPico.Vm.Fetch

/-!
# The virtual machine

The step relation of `pphp_vm_execute` on the operand stack and the call frames, innermost first. What an instruction
does depends on values and the runtime; here any of its outcomes may happen: it moves on, enters a function, returns,
raises an error before or after its effect, or ends the run. Exact are the operands, the slots it may write, the
position it goes on at, and where an exception is delivered. Callbacks of builtins run on a stack of their own, within
one step.
-/

namespace PhpPico

/-! ## Stack effects -/

/-- The operands an opcode pops or looks at. -/
def PlainOp.takes : PlainOp → Nat
  | .nop | .halt | .loadNull | .loadTrue | .loadFalse | .loadArgc | .retNull | .typecheckArgs
  | .defEnd => 0
  | .pop | .dup | .neg | .bnot | .not | .ret | .feInit | .feFree | .arrSeparate | .throw
  | .clone => 1
  | .swap | .add | .sub | .mul | .div | .mod | .pow | .concat | .band | .bor | .bxor | .shl | .shr
  | .eq | .ne | .ident | .nident | .lt | .le | .gt | .ge | .cmp | .instanceofDynamic
  | .callValueArray | .arrPush | .idxGet | .idxAppend | .arrExtend | .idxUnset | .idxGetQuiet
  | .newObjDynamicArray | .propGetDynamic | .propGetDynamicQuiet => 2
  | .arrSet | .idxSet | .propSetDynamic | .mcallDynamicArray => 3

/-- The operands an opcode leaves in place of those, when the frame goes on. -/
def PlainOp.leaves : PlainOp → Option Nat
  | .halt | .ret | .retNull | .throw => none
  | .nop | .pop | .feFree | .typecheckArgs | .defEnd => some 0
  | .dup | .swap | .idxSet | .idxAppend => some 2
  | .loadNull | .loadTrue | .loadFalse | .loadArgc | .add | .sub | .mul | .div | .mod | .pow | .neg
  | .concat | .band | .bor | .bxor | .bnot | .shl | .shr | .eq | .ne | .ident | .nident | .lt | .le
  | .gt | .ge | .cmp | .not | .instanceofDynamic | .callValueArray | .arrPush | .arrSet | .idxGet
  | .feInit | .arrExtend | .arrSeparate | .idxUnset | .idxGetQuiet | .newObjDynamicArray | .clone
  | .propGetDynamic | .propSetDynamic | .propGetDynamicQuiet | .mcallDynamicArray => some 1

def ByteOp.takes (a : UInt8) : ByteOp → Nat
  | .loadI8 | .loadLocal | .bindGlobal | .loadLocalQuiet | .unsetLocal => 0
  | .storeLocal | .cast | .includeFile => 1
  | .echo => a.toNat
  | .callValue | .newObjDynamic => a.toNat + 1
  | .mcallDynamic => a.toNat + 2

def ByteOp.leaves : ByteOp → Nat
  | .storeLocal | .bindGlobal | .unsetLocal | .echo => 0
  | .loadI8 | .loadLocal | .loadLocalQuiet | .cast | .callValue | .includeFile | .newObjDynamic
  | .mcallDynamic => 1

def WordOp.takes : WordOp → Nat
  | .loadConst | .loadNamedConst | .newArray | .defFunc | .defInterface | .line => 0
  | .callArray | .propGet | .newObjArray | .instanceof | .propGetQuiet | .defCconst
  | .defConst => 1
  | .propSet | .mcallArray => 2

def WordOp.leaves : WordOp → Nat
  | .defFunc | .defCconst | .defConst | .defInterface | .line => 0
  | .loadConst | .loadNamedConst | .callArray | .newArray | .propGet | .propSet | .mcallArray
  | .newObjArray | .instanceof | .propGetQuiet => 1

def JumpOp.takes : JumpOp → Nat
  | .jmp => 0
  | .jmpIf | .jmpUnless | .jmpIfKeep | .jmpUnlessKeep | .jmpNotnullKeep | .jmpIfnullKeep => 1

/-- The ways a jump moves on: what is left of its operand, and whether it is taken. -/
def JumpOp.moves : JumpOp → List (Nat × Bool)
  | .jmp => [(0, true)]
  | .jmpIf | .jmpUnless => [(0, false), (0, true)]
  | .jmpIfKeep | .jmpUnlessKeep | .jmpNotnullKeep => [(0, false), (1, true)]
  | .jmpIfnullKeep => [(1, false), (1, true)]

def CallOp.takes (argc : UInt8) : CallOp → Nat
  | .call | .newObj => argc.toNat
  | .mcall => argc.toNat + 1

def PairOp.takes : PairOp → Nat
  | .spropGet | .clsconst => 0
  | .scallArray | .spropSet => 1

def TripleOp.takes (argc : UInt8) : TripleOp → Nat
  | .scall => argc.toNat
  | .defClass | .defMethod => 0

def TripleOp.leaves : TripleOp → Nat
  | .scall => 1
  | .defClass | .defMethod => 0

/-- The operands an instruction pops or looks at. -/
def Instr.takes : Instr → Nat
  | .plain op => op.takes
  | .byte op a => op.takes a
  | .word op _ => op.takes
  | .jump op _ => op.takes
  | .named op _ argc => op.takes argc
  | .pair op _ _ => op.takes
  | .triple op _ _ argc => op.takes argc
  | .loadI32 _ | .staticInit _ _ | .closure _ _ => 0
  | .feNext _ _ | .defProp _ _ _ => 1

/-- The ways an instruction moves on in its frame: the operands left in place of those it takes,
and whether it jumps. -/
def Instr.moves : Instr → List (Nat × Bool)
  | .plain op => op.leaves.toList.map (·, false)
  | .byte op _ => [(op.leaves, false)]
  | .word op _ => [(op.leaves, false)]
  | .jump op _ => op.moves
  | .named _ _ _ | .pair _ _ _ | .loadI32 _ | .closure _ _ => [(1, false)]
  | .triple op _ _ _ => [(op.leaves, false)]
  | .staticInit _ _ => [(0, false), (0, true)]
  | .feNext _ hasKey => [(if hasKey = 0 then 2 else 3, false), (0, true)]
  | .defProp _ _ _ => [(0, false)]

/-- The displacement of an instruction that jumps. -/
def Instr.displacement : Instr → Int16
  | .jump _ rel | .staticInit _ rel | .feNext rel _ => rel
  | _ => 0

/-- The instructions that may enter a function. Its frame begins where their operands begin, and
its result takes their place. -/
def Instr.calls : Instr → Bool
  | .plain .callValueArray | .plain .newObjDynamicArray | .plain .mcallDynamicArray
  | .plain .clone => true
  | .byte .callValue _ | .byte .newObjDynamic _ | .byte .mcallDynamic _ => true
  | .word .callArray _ | .word .mcallArray _ | .word .newObjArray _ => true
  | .named _ _ _ => true
  | .pair .scallArray _ _ | .triple .scall _ _ _ => true
  | _ => false

/-- `OP_RET` and `OP_RET_NULL`. -/
def Instr.returns : Instr → Bool
  | .plain .ret | .plain .retNull => true
  | _ => false

/-- The local slot an instruction writes. -/
def Instr.writes : Instr → Option UInt8
  | .byte .storeLocal slot | .byte .unsetLocal slot | .byte .bindGlobal slot
  | .staticInit slot _ => some slot
  | _ => none

/-- `jump_relative`; the end of the code is in range. -/
def jumpRelative (code : List UInt8) (pc : Nat) (relative : Int16) : Option Nat :=
  let target : Int := pc + relative.toInt
  if 0 ≤ target ∧ target ≤ code.length then some target.toNat else none

/-- Where a way to move on leads. -/
def Instr.target (i : Instr) (code : List UInt8) (next : Nat) (jumps : Bool) : Option Nat :=
  if jumps then jumpRelative code next i.displacement else some next

/-! ## States -/

variable {cfg : Config}

/-- A call frame. Line numbers, argument counts, bindings, class scopes and pending constructor results are values of
the runtime and left out. -/
structure Frame (cfg : Config) where
  module : Module cfg
  proto : Proto cfg
  pc : Nat
  base : Nat

structure Vm (cfg : Config) (Value : Type) where
  slots : Nat → Value
  /-- `stack_count`; slots from here on hold leftovers. -/
  count : Nat
  /-- Innermost first. -/
  frames : List (Frame cfg)

/-- The operand base of a frame: its operands lie above its locals. -/
def Frame.operandBase (f : Frame cfg) : Nat := f.base + f.proto.nLocals

def Frame.fetch (f : Frame cfg) : Read (Instr × Nat) := PhpPico.fetch cfg f.proto.code f.pc

/-! ## Exceptions -/

/-- An entry catches every exception when it is a `finally`, and otherwise those of its class. An
exception is here the set of class names it is an instance of. -/
def PCatch.catches (entry : PCatch) (p : Proto cfg) (isA : PString → Bool) : Bool :=
  entry.classConstant == 0xffff || (p.stringConstant entry.classConstant).any isA

/-- The entry whose try range holds `pc`. -/
def PCatch.covers (entry : PCatch) (pc : Nat) : Bool :=
  entry.tryStart.toNat ≤ pc && pc < entry.tryEnd.toNat

/-- The first entry of the table that covers the position and catches the exception. -/
def Proto.catchFor (p : Proto cfg) (isA : PString → Bool) (pc : Nat) : Option PCatch :=
  p.catches.find? fun entry => entry.covers pc && entry.catches p isA

/-- The position an exception has in the frame that called: one byte before it goes on. -/
def callerPc : List (Frame cfg) → Nat
  | [] => 0
  | caller :: _ => caller.pc - 1

/-- The frames loop of `throw_exception`: the entry found, its frame and the frames below. A `finally` without a slot
ends the run, as does an uncaught exception. -/
def throwException (isA : PString → Bool) : Nat → List (Frame cfg) → Option (PCatch × Frame cfg × List (Frame cfg))
  | _, [] => none
  | throwPc, f :: rest =>
    match f.proto.catchFor isA throwPc with
    | some entry =>
      if entry.classConstant = 0xffff ∧ f.proto.nLocals ≤ entry.variableSlot.toNat then none
      else some (entry, f, rest)
    | none => throwException isA (callerPc rest) rest

/-- The slot a delivered exception is stored in. -/
def PCatch.slotIn (entry : PCatch) (f : Frame cfg) : Option Nat :=
  if entry.variableSlot.toNat < f.proto.nLocals then some (f.base + entry.variableSlot.toNat)
  else none

/-! ## Steps -/

variable {Value : Type}

/-- Below `n` the slots are the same, but for the one written. -/
def SameBelow (n : Nat) (written : Option Nat) (slots slots' : Nat → Value) : Prop :=
  ∀ k < n, some k ≠ written → slots' k = slots k

/-- The effects of the instruction `i` of the running frame, which ends before `next`. Functions
entered are protos of the modules of the `program`. -/
inductive Effect (program : Module cfg → Prop) (i : Instr) (next : Nat) :
    Vm cfg Value → Vm cfg Value → Prop where
  | move {slots slots' : Nat → Value} {count leaves pc : Nat} {jumps : Bool} {f : Frame cfg}
      {rest : List (Frame cfg)} (mem : (leaves, jumps) ∈ i.moves)
      (target : i.target f.proto.code next jumps = some pc) (enough : i.takes ≤ count)
      (same : SameBelow (count - i.takes) (i.writes.map (f.base + ·.toNat)) slots slots') :
      Effect program i next ⟨slots, count, f :: rest⟩
        ⟨slots', count - i.takes + leaves, { f with pc } :: rest⟩
  | enter {slots slots' : Nat → Value} {count : Nat} {f : Frame cfg} {rest : List (Frame cfg)}
      {m : Module cfg} {p : Proto cfg} (calls : i.calls = true) (known : program m)
      (mem : p ∈ m.protos) (enough : i.takes ≤ count)
      (same : SameBelow (count - i.takes) none slots slots') :
      Effect program i next ⟨slots, count, f :: rest⟩
        ⟨slots', count - i.takes + p.nLocals,
          ⟨m, p, 0, count - i.takes⟩ :: { f with pc := next } :: rest⟩
  | leave {slots slots' : Nat → Value} {count : Nat} {f g : Frame cfg} {rest : List (Frame cfg)}
      (returns : i.returns = true) (enough : i.takes ≤ count)
      (same : SameBelow f.base none slots slots') :
      Effect program i next ⟨slots, count, f :: g :: rest⟩ ⟨slots', f.base + 1, g :: rest⟩

/-- What an instruction has done when it raises: a part of its work on operands and slots, or all
of it (an error of a destructor that runs late). -/
inductive Partly (program : Module cfg → Prop) (i : Instr) (next : Nat) :
    Vm cfg Value → Vm cfg Value → Prop where
  | cut {slots slots' : Nat → Value} {count : Nat} {f : Frame cfg} {rest : List (Frame cfg)}
      (same : SameBelow (count - i.takes) (i.writes.map (f.base + ·.toNat)) slots slots') :
      Partly program i next ⟨slots, count, f :: rest⟩ ⟨slots', count, f :: rest⟩
  | done {s s' : Vm cfg Value} (effect : Effect program i next s s') : Partly program i next s s'

/-- An exception with the throw position `throwPc` reaches a handler. -/
inductive Delivered (throwPc : Nat) : Vm cfg Value → Vm cfg Value → Prop where
  | intro {slots slots' : Nat → Value} {count : Nat} {frames outer : List (Frame cfg)}
      {isA : PString → Bool} {entry : PCatch} {g : Frame cfg}
      (thrown : throwException isA throwPc frames = some (entry, g, outer))
      (same : SameBelow g.operandBase (entry.slotIn g) slots slots') :
      Delivered throwPc ⟨slots, count, frames⟩
        ⟨slots', g.operandBase, { g with pc := entry.handlerPc.toNat } :: outer⟩

/-- One round of the loop of `pphp_vm_execute`. The position of an error is the start of the
instruction, whatever frame is on top when it is raised. -/
inductive Step (program : Module cfg → Prop) : Vm cfg Value → Vm cfg Value → Prop where
  | run {s s' : Vm cfg Value} {f : Frame cfg} {rest : List (Frame cfg)} {i : Instr} {next : Nat}
      (top : s.frames = f :: rest) (fetched : f.fetch = .ok (i, next))
      (effect : Effect program i next s s') : Step program s s'
  | raise {s mid s' : Vm cfg Value} {f : Frame cfg} {rest : List (Frame cfg)} {i : Instr}
      {next : Nat} (top : s.frames = f :: rest) (fetched : f.fetch = .ok (i, next))
      (partly : Partly program i next s mid) (delivered : Delivered f.pc mid s') :
      Step program s s'
  | fault {s s' : Vm cfg Value} {f : Frame cfg} {rest : List (Frame cfg)} {fault : Fault}
      (top : s.frames = f :: rest) (fetched : f.fetch = .error fault)
      (delivered : Delivered f.pc s s') : Step program s s'
  | stop {s : Vm cfg Value} : Step program s { s with count := 0, frames := [] }

/-- The state in which the proto `p` starts to run. -/
def Vm.start (slots : Nat → Value) (m : Module cfg) (p : Proto cfg) : Vm cfg Value :=
  ⟨slots, p.nLocals, [⟨m, p, 0, 0⟩]⟩

/-- The states a run may start in. -/
def Vm.Initial (program : Module cfg → Prop) (s : Vm cfg Value) : Prop :=
  ∃ slots m p, program m ∧ p ∈ m.protos ∧ s = Vm.start slots m p

/-- A run of protos of the program. -/
def Vm.Run (program : Module cfg → Prop) (s s' : Vm cfg Value) : Prop :=
  Relation.ReflTransGen (Step program) s s'

end PhpPico
