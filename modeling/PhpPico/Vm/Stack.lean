import PhpPico.Proto
import PhpPico.Lib.Guarded

/-!
# The operand stack and the call frames

The routines of `vm.c` that read and write `state->stack` and `state->frames`, with their tests of the sizes. A write
outside either array ends a routine with `none`. What a routine finds (a callee, the kind of a value, memory) is an
argument; an error is a flag.
-/

namespace PhpPico.Stack
open Guarded

variable {cfg : Config} {Value : Type}

/-! ## States -/

/-- The sizes of the arrays. -/
structure Limits where
  slots : Nat
  frames : Nat

/-- `PPHP_STACK_SLOTS` and `PPHP_FRAME_MAX`. -/
def Limits.vm : Limits := ⟨384, 48⟩

/-- `pframe`, as far as the stack is concerned. -/
structure Frame (cfg : Config) where
  proto : Proto cfg
  base : Nat

/-- Where the locals of a frame end. -/
def Frame.localsEnd (f : Frame cfg) : Nat := f.base + f.proto.nLocals

/-- The frames are listed innermost first; `frame_count` is their number. -/
structure State (cfg : Config) (Value : Type) where
  stack : Nat → Value
  stackCount : Nat
  frames : List (Frame cfg)
  error : Bool

abbrev Run (cfg : Config) (Value α : Type) := Routine (State cfg Value) α

/-! ## Writes -/

/-- A write to `state->stack`. -/
def setSlot (l : Limits) (i : Nat) (value : Value) : Run cfg Value Unit := fun s =>
  if i < l.slots then some ((), { s with stack := fun j => if j = i then value else s.stack j }) else none

/-- `memmove` within `state->stack`. -/
def memmove (l : Limits) (target source count : Nat) : Run cfg Value Unit := fun s =>
  if count = 0 ∨ target + count ≤ l.slots then
    some ((), { s with stack := fun j =>
      if target ≤ j ∧ j < target + count then s.stack (source + (j - target)) else s.stack j })
  else none

/-- A write to `state->frames[state->frame_count]`, which then counts. -/
def setFrame (l : Limits) (f : Frame cfg) : Run cfg Value Unit := fun s =>
  if s.frames.length < l.frames then some ((), { s with frames := f :: s.frames }) else none

def setCount (count : Nat) : Run cfg Value Unit := modify fun s => { s with stackCount := count }

/-- `pphp_runtime_error`. -/
def runtimeError : Run cfg Value Unit := modify fun s => { s with error := true }

/-- An error is raised, and the routine returns 0. -/
def fail : Run cfg Value Bool := do
  runtimeError
  pure false

/-- What may raise an error on its way. -/
def mayRaise (raises : Bool) : Run cfg Value Unit := if raises then runtimeError else pure ()

/-- `push`. -/
def push (l : Limits) (value : Value) : Run cfg Value Bool := do
  let s ← get
  if l.slots ≤ s.stackCount then fail
  else do
    setSlot l s.stackCount value
    setCount (s.stackCount + 1)
    pure true

/-- `pop`; NULL is of no interest here. -/
def pop : Run cfg Value Unit := do
  let s ← get
  if s.stackCount = 0 then runtimeError else setCount (s.stackCount - 1)

/-! ## Calls -/

/-- A builtin, a native function or a native method has run: its result, and whether it has raised. -/
structure Native (Value : Type) where
  result : Option Value
  raises : Bool

/-- Its arguments, from `base` on, are replaced by its result. -/
def finishNative (l : Limits) (base : Nat) (native : Native Value) : Run cfg Value Bool := do
  mayRaise native.raises
  setCount base
  match native.result with
  | some value => push l value
  | none => pure false

variable [Inhabited Value]

/-- `undefined_local_value()` in the slots of a range. -/
def clearSlots (l : Limits) (start count : Nat) : Run cfg Value Unit :=
  (List.range count).forM fun i => setSlot l (start + i) default

/-- `bind_arguments`; `rest` is the array of variadic arguments, if memory is left. -/
def bindArguments (l : Limits) (callee : Proto cfg) (targetBase argumentBase argumentCount localOffset : Nat)
    (rest : Option Value) : Run cfg Value Bool :=
  let nParams := callee.nParams.toNat
  let fixedCount := if callee.variadic then nParams - 1 else nParams
  let supplied := min argumentCount fixedCount
  if callee.variadic ∧ nParams = 0 then fail
  else if l.slots ≤ targetBase + callee.nLocals ∨ callee.nLocals < localOffset + nParams then fail
  else if callee.variadic ∧ rest = none then fail
  else do
    memmove l (targetBase + localOffset) argumentBase
      (if supplied ≠ 0 ∧ targetBase + localOffset ≠ argumentBase then supplied else 0)
    clearSlots l (targetBase + localOffset + supplied) (fixedCount - supplied)
    (if callee.variadic then setSlot l (targetBase + localOffset + fixedCount) (rest.getD default) else pure ())
    clearSlots l (targetBase + (localOffset + nParams)) (callee.nLocals - (localOffset + nParams))
    pure true

/-- The captured values of a closure, behind its parameters. -/
def bindCaptures (l : Limits) (start : Nat) : List Value → Run cfg Value Unit
  | [] => pure ()
  | value :: captures => do
    setSlot l start value
    bindCaptures l (start + 1) captures

/-- The frame of a function is set up when its locals are. -/
def enterFrame (l : Limits) (callee : Proto cfg) (base : Nat) : Run cfg Value Bool := do
  setCount (base + callee.nLocals)
  setFrame l ⟨callee, base⟩
  pure true

/-- The end of the routines that call a proto: the tests of its arguments and of the frames, then the
locals and the frame. -/
def enterProto (l : Limits) (callee : Proto cfg) (base argumentBase argumentCount localOffset : Nat)
    (rest : Option Value) : Run cfg Value Bool := do
  let s ← get
  if argumentCount < callee.nRequired.toNat then fail
  else if l.frames ≤ s.frames.length then fail
  else do
    let bound ← bindArguments l callee base argumentBase argumentCount localOffset rest
    if bound then enterFrame l callee base else pure false

/-- What a name is the function of. -/
inductive Function (cfg : Config) (Value : Type) where
  | native (native : Native Value)
  | proto (callee : Proto cfg) (rest : Option Value)
  | undefined

/-- `call_function`; `valid` says that the name is a string constant. -/
def callFunction (l : Limits) (valid : Bool) (argumentCount : Nat) (function : Function cfg Value) :
    Run cfg Value Bool := do
  let s ← get
  if valid = false ∨ s.stackCount < argumentCount then fail
  else
    match function with
    | .native native => finishNative l (s.stackCount - argumentCount) native
    | .undefined => fail
    | .proto callee rest =>
      enterProto l callee (s.stackCount - argumentCount) (s.stackCount - argumentCount) argumentCount 0 rest

/-- `call_named_value`: the callable at `base` is replaced, too. -/
def callNamedValue (l : Limits) (argumentCount base : Nat) (function : Function cfg Value) : Run cfg Value Bool :=
  match function with
  | .native native => finishNative l base native
  | .undefined => fail
  | .proto callee rest => enterProto l callee base (base + 1) argumentCount 0 rest

/-- What a method consists of; neither may be there. -/
inductive Body (cfg : Config) (Value : Type) where
  | native (native : Native Value)
  | proto (callee : Proto cfg) (rest : Option Value)
  | missing

structure Method (cfg : Config) (Value : Type) where
  isStatic : Bool
  body : Body cfg Value

/-- `enter_method`; `isObject` tells of the value below the arguments. -/
def enterMethod (l : Limits) (method : Method cfg Value) (isObject : Bool) (argumentCount : Nat)
    (constructor : Bool) : Run cfg Value Bool := do
  let s ← get
  if method.isStatic ∨ s.stackCount < argumentCount + 1 then fail
  else if isObject = false then fail
  else
    match method.body with
    | .native native =>
      if constructor then do
        mayRaise native.raises
        setCount (s.stackCount - argumentCount - 1 + 1)
        pure native.result.isSome
      else finishNative l (s.stackCount - argumentCount - 1) native
    | .missing => fail
    | .proto callee rest =>
      enterProto l callee (s.stackCount - argumentCount - 1) (s.stackCount - argumentCount - 1 + 1) argumentCount 1 rest

/-- `enter_static_method`. -/
def enterStaticMethod (l : Limits) (method : Method cfg Value) (argumentCount : Nat) : Run cfg Value Bool := do
  let s ← get
  if method.isStatic = false ∨ s.stackCount < argumentCount then fail
  else
    match method.body with
    | .native native => finishNative l (s.stackCount - argumentCount) native
    | .missing => fail
    | .proto callee rest =>
      enterProto l callee (s.stackCount - argumentCount) (s.stackCount - argumentCount) argumentCount 0 rest

/-- The slot of a callable, a class name or a method name below the arguments is taken out. -/
def removeSlot (l : Limits) (argumentCount position : Nat) : Run cfg Value Unit := do
  memmove l position (position + 1) argumentCount
  modify fun s => { s with stackCount := s.stackCount - 1 }

/-- An object is put below the arguments. -/
def insertSlot (l : Limits) (argumentCount base : Nat) (object : Value) : Run cfg Value Unit := do
  memmove l (base + 1) base argumentCount
  setSlot l base object
  modify fun s => { s with stackCount := s.stackCount + 1 }

/-- What the callable below the arguments is. -/
inductive Callable (cfg : Config) (Value : Type) where
  /-- A string or an array that names a static method. -/
  | static (method : Method cfg Value)
  | named (function : Function cfg Value)
  /-- An array of an object and the name of a method. -/
  | bound (object : Value) (method : Method cfg Value)
  /-- An object with `__invoke`. -/
  | object (method : Method cfg Value)
  | closure (callee : Proto cfg) (captures : List Value) (rest : Option Value)
  | invalid

/-- `call_value`. -/
def callValue (l : Limits) (argumentCount : Nat) (callable : Callable cfg Value) : Run cfg Value Bool := do
  let s ← get
  if s.stackCount < argumentCount + 1 then fail
  else
    let base := s.stackCount - argumentCount - 1
    match callable with
    | .static method => do
      removeSlot l argumentCount base
      enterStaticMethod l method argumentCount
    | .named function => callNamedValue l argumentCount base function
    | .bound object method => do
      setSlot l base object
      enterMethod l method true argumentCount false
    | .object method => enterMethod l method true argumentCount false
    | .invalid => fail
    | .closure callee captures rest =>
      if argumentCount < callee.nRequired.toNat then fail
      else if l.frames ≤ s.frames.length ∨ callee.nLocals < callee.nParams.toNat + captures.length then fail
      else do
        let bound ← bindArguments l callee base (base + 1) argumentCount 0 rest
        if bound then do
          bindCaptures l (base + callee.nParams.toNat) captures
          enterFrame l callee base
        else pure false

/-- What the method of an object is found to be. -/
inductive NamedMethod (cfg : Config) (Value : Type) where
  | notObject
  /-- `getMessage` and its like. -/
  | field (value : Value)
  | inaccessible
  | method (method : Method cfg Value)

/-- `invoke_named_method`; `named` says that there is a name. -/
def invokeNamedMethod (l : Limits) (named : Bool) (argumentCount : Nat) (found : NamedMethod cfg Value) :
    Run cfg Value Bool := do
  let s ← get
  if named = false ∨ s.stackCount < argumentCount + 1 then fail
  else
    match found with
    | .notObject => fail
    | .field value => do
      setCount (s.stackCount - argumentCount - 1)
      push l value
    | .inaccessible => fail
    | .method method => enterMethod l method true argumentCount false

/-- What a static call is found to call. -/
inductive StaticMethod (cfg : Config) (Value : Type) where
  | missing
  | static (method : Method cfg Value)
  /-- A method of the object whose method runs. -/
  | parent (object : Value) (method : Method cfg Value)
  | notStatic

/-- `invoke_static_method`. -/
def invokeStaticMethod (l : Limits) (named : Bool) (argumentCount : Nat) (found : StaticMethod cfg Value) :
    Run cfg Value Bool := do
  let s ← get
  if named = false ∨ s.stackCount < argumentCount then fail
  else
    match found with
    | .missing => fail
    | .static method => enterStaticMethod l method argumentCount
    | .parent object method =>
      if l.slots ≤ s.stackCount then fail
      else do
        insertSlot l argumentCount (s.stackCount - argumentCount) object
        enterMethod l method true argumentCount false
    | .notStatic => fail

/-- What the class of an object to construct is found to be. -/
inductive Constructed (cfg : Config) (Value : Type) where
  /-- There is no such class, or no object of it. -/
  | missing
  | inaccessible (object : Value)
  | constructor (object : Value) (method : Method cfg Value)
  /-- An exception without a constructor, whose arguments are of the right types or not. -/
  | throwable (object : Value) (valid : Bool)
  | plain (object : Value)

/-- What is behind the insertion of the object. -/
def runConstructor (l : Limits) (argumentCount base : Nat) (found : Constructed cfg Value) : Run cfg Value Bool :=
  match found with
  | .missing => pure false
  | .inaccessible _ => fail
  | .constructor _ method => enterMethod l method true argumentCount true
  | .throwable _ valid =>
    if 2 < argumentCount then fail
    else if valid then do
      setCount (base + 1)
      pure true
    else fail
  | .plain _ => if argumentCount ≠ 0 then fail else pure true

/-- The object that is constructed. -/
def Constructed.object? : Constructed cfg Value → Option Value
  | .missing => none
  | .inaccessible object | .constructor object _ | .throwable object _ | .plain object => some object

/-- `construct_object`; where there is no name its caller has raised. -/
def constructObject (l : Limits) (named : Bool) (argumentCount : Nat) (found : Constructed cfg Value) :
    Run cfg Value Bool := do
  let s ← get
  if named = false ∨ s.stackCount < argumentCount then pure false
  else
    match found.object? with
    | none => fail
    | some object =>
      if l.slots ≤ s.stackCount + 1 then fail
      else do
        insertSlot l argumentCount (s.stackCount - argumentCount) object
        runConstructor l argumentCount (s.stackCount - argumentCount) found

/-- The loop of `expand_argument_array`; an entry with a string key has no value here. -/
def expandEntries (l : Limits) : List (Option Value) → Nat → Run cfg Value (Option Nat)
  | [], count => pure (some count)
  | none :: _, _ => do
    runtimeError
    pure none
  | some value :: entries, count =>
    if 31 ≤ count then do
      runtimeError
      pure none
    else do
      let pushed ← push l value
      if pushed then expandEntries l entries (count + 1) else pure none

/-- `expand_argument_array`: the number of arguments; `none` for a value that is no array. -/
def expandArgumentArray (l : Limits) (entries : Option (List (Option Value))) : Run cfg Value (Option Nat) := do
  pop
  match entries with
  | none => do
    runtimeError
    pure none
  | some entries => expandEntries l entries 0

/-- `return_from_function`; `accepted` says that the result is of the declared type. -/
def returnFromFunction (l : Limits) (accepted : Bool) (result : Value) : Run cfg Value Bool := do
  let s ← get
  match s.frames with
  | [] => fail
  | f :: frames =>
    if accepted = false then fail
    else do
      modify fun s => { s with stackCount := f.base, frames := frames }
      if frames.isEmpty then pure true else push l result

/-! ## Exceptions -/

/-- Which entry of the catch table of a frame, told by the number of frames below it, catches; whether its variable is
a slot, and if not, whether storing it raises. -/
structure Handler where
  find : Nat → Option PCatch
  inFrame : Bool
  raises : Bool

/-- `store_local_value` and `unset_local_value`: the local is a slot of the frame, or a global or static
variable. -/
def storeLocal (l : Limits) (f : Frame cfg) (slot : Nat) (value : Value) (inFrame raises : Bool) : Run cfg Value Unit :=
  if inFrame then setSlot l (f.base + slot) value else mayRaise raises

/-- What `throw_exception` does in the frame that catches. -/
def deliver (l : Limits) (handler : Handler) (f : Frame cfg) (entry : PCatch) : Run cfg Value Bool :=
  if entry.variableSlot ≠ 255 ∧ entry.variableSlot.toNat < f.proto.nLocals then do
    storeLocal l f entry.variableSlot.toNat default handler.inFrame handler.raises
    pure true
  else if entry.classConstant = 0xffff then fail
  else pure true

/-- `throw_exception`, on the frames there are. -/
def throwException (l : Limits) (handler : Handler) : List (Frame cfg) → Run cfg Value Bool
  | [] => fail
  | f :: frames =>
    match handler.find frames.length with
    | some entry => do
      modify fun s => { s with stackCount := f.localsEnd, frames := f :: frames }
      deliver l handler f entry
    | none => do
      modify fun s => { s with stackCount := f.base, frames := frames }
      throwException l handler frames

/-- `convert_runtime_error`; without memory for an exception the error stays. -/
def convertRuntimeError (l : Limits) (handler : Option Handler) : Run cfg Value Unit := do
  let s ← get
  match handler with
  | none => pure ()
  | some handler => do
    modify fun s => { s with error := false }
    let _ ← throwException l handler s.frames
    pure ()

/-! ## Instructions -/

/-- Most instructions touch the stack by `push` and `pop` alone. -/
inductive Operand (Value : Type) where
  | push (value : Value)
  | pop
  | raise

def runOperands (l : Limits) : List (Operand Value) → Run cfg Value Unit
  | [] => pure ()
  | .push value :: rest => do
    let _ ← push l value
    runOperands l rest
  | .pop :: rest => do
    pop
    runOperands l rest
  | .raise :: rest => do
    runtimeError
    runOperands l rest

/-- The arguments of a call: as many as the instruction says, or the entries of an array on the stack. -/
inductive Arguments (Value : Type) where
  | count (count : UInt8)
  | array (entries : Option (List (Option Value)))

def withArguments (l : Limits) (arguments : Arguments Value) (call : Nat → Run cfg Value Bool) : Run cfg Value Unit :=
  match arguments with
  | .count count => do
    let _ ← call count.toNat
    pure ()
  | .array entries => do
    let count ← expandArgumentArray l entries
    match count with
    | some count => do
      let _ ← call count
      pure ()
    | none => pure ()

/-- What an instruction does to the stack and the frames, whatever instruction it is. -/
inductive Work (cfg : Config) (Value : Type) where
  | operands (script : List (Operand Value))
  | swap
  | storeLocal (slot : UInt8) (value : Value) (inFrame raises : Bool)
  | unsetLocal (slot : UInt8) (inFrame raises : Bool)
  /-- `OP_BIND_GLOBAL` and `OP_STATIC_INIT`. -/
  | bind (slot : UInt8) (raises : Bool)
  | echo (count : UInt8) (raises : Bool)
  | call (valid : Bool) (arguments : Arguments Value) (function : Function cfg Value)
  | callValue (arguments : Arguments Value) (callable : Callable cfg Value)
  | construct (named : Bool) (arguments : Arguments Value) (found : Constructed cfg Value)
  | constructDynamic (isString : Bool) (arguments : Arguments Value) (found : Constructed cfg Value)
  | method (named : Bool) (arguments : Arguments Value) (found : NamedMethod cfg Value)
  | methodDynamic (isString : Bool) (arguments : Arguments Value) (found : NamedMethod cfg Value)
  | staticMethod (named : Bool) (arguments : Arguments Value) (found : StaticMethod cfg Value)
  /-- `OP_CLONE`: the copy, and its method `__clone`. -/
  | clone (copy : Option Value) (method : Option (Method cfg Value)) (isObject : Bool)
  /-- `OP_RET`, behind a `pop`, and `OP_RET_NULL`. -/
  | ret (popped accepted : Bool) (result : Value)
  /-- `OP_THROW`, of an exception or of something else. -/
  | throw (handler : Option Handler)
  | halt

/-- What touches a local of the running frame tests the slot first. -/
def onLocal (slot : UInt8) (touch : Frame cfg → Run cfg Value Unit) : Run cfg Value Unit := do
  let s ← get
  match s.frames with
  | [] => pure ()
  | f :: _ => if f.proto.nLocals ≤ slot.toNat then runtimeError else touch f

/-- The name below the arguments of a dynamic call is taken out. -/
def withoutName (l : Limits) (isString : Bool) (below argumentCount : Nat) (call : Run cfg Value Bool) :
    Run cfg Value Bool := do
  let s ← get
  if s.stackCount < argumentCount + below then fail
  else if isString = false then fail
  else do
    removeSlot l argumentCount (s.stackCount - argumentCount - 1)
    call

/-- The branches of the loop of `pphp_vm_execute`. -/
def Work.run (l : Limits) : Work cfg Value → Run cfg Value Unit
  | .operands script => runOperands l script
  | .swap => do
    let s ← get
    if s.stackCount < 2 then runtimeError
    else do
      setSlot l (s.stackCount - 1) (s.stack (s.stackCount - 2))
      setSlot l (s.stackCount - 2) (s.stack (s.stackCount - 1))
  | .storeLocal slot value inFrame raises => do
    pop
    onLocal slot fun f => Stack.storeLocal l f slot.toNat value inFrame raises
  | .unsetLocal slot inFrame raises =>
    onLocal slot fun f => Stack.storeLocal l f slot.toNat default inFrame raises
  | .bind slot raises =>
    onLocal slot fun f => do
      setSlot l (f.base + slot.toNat) default
      mayRaise raises
  | .echo count raises => do
    let s ← get
    if s.stackCount < count.toNat then runtimeError
    else do
      mayRaise raises
      setCount (s.stackCount - count.toNat)
  | .call valid arguments function => do
    mayRaise (!valid)
    withArguments l arguments fun count => callFunction l valid count function
  | .callValue arguments callable => withArguments l arguments fun count => Stack.callValue l count callable
  | .construct named arguments found => do
    mayRaise (!named)
    withArguments l arguments fun count => constructObject l named count found
  | .constructDynamic isString arguments found =>
    withArguments l arguments fun count => withoutName l isString 1 count (constructObject l true count found)
  | .method named arguments found => do
    mayRaise (!named)
    withArguments l arguments fun count => invokeNamedMethod l named count found
  | .methodDynamic isString arguments found =>
    withArguments l arguments fun count => withoutName l isString 2 count (invokeNamedMethod l true count found)
  | .staticMethod named arguments found => do
    mayRaise (!named)
    withArguments l arguments fun count => invokeStaticMethod l named count found
  | .clone copy magic isObject => do
    pop
    match copy with
    | none => runtimeError
    | some copy => do
      let _ ← push l copy
      match magic with
      | none => pure ()
      | some magic => do
        let _ ← enterMethod l magic isObject 0 true
        pure ()
  | .ret popped accepted result => do
    (if popped then pop else pure ())
    let _ ← returnFromFunction l accepted result
    pure ()
  | .throw handler => do
    pop
    match handler with
    | none => runtimeError
    | some handler => do
      let s ← get
      let _ ← throwException l handler s.frames
      pure ()
  | .halt => do
    let s ← get
    if s.frames.length ≠ 1 then runtimeError
    else modify fun s => { s with stackCount := 0, frames := [] }

/-- `exception_processed`. -/
def Work.processed : Work cfg Value → Bool
  | .throw (some _) => true
  | _ => false

/-- One round of the loop: an error becomes an exception. -/
def round (l : Limits) (work : Work cfg Value) (handler : Option Handler) : Run cfg Value Unit := do
  work.run l
  let s ← get
  if s.error ∧ work.processed = false ∧ s.frames ≠ [] then convertRuntimeError l handler else pure ()

/-- The beginning of `pphp_vm_execute`, with the entry of a module. -/
def execute (l : Limits) (entry : Proto cfg) : Run cfg Value Unit := do
  modify fun s => { s with frames := [] }
  setCount entry.nLocals
  setFrame l ⟨entry, 0⟩
  clearSlots l 0 entry.nLocals

/-- The states of a run in front of its rounds: there is one more while frames are left and no error is. -/
inductive Reaches (l : Limits) (started : State cfg Value) : State cfg Value → Prop
  | start : Reaches l started started
  | round {s s' : State cfg Value} (reached : Reaches l started s) (running : s.error = false ∧ s.frames ≠ [])
      (work : Work cfg Value) (handler : Option Handler) (ran : (round l work handler).run s = some ((), s')) :
      Reaches l started s'

end PhpPico.Stack
