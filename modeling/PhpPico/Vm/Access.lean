import PhpPico.Class.Private
import PhpPico.Vm.Pending

/-!
# Member access by name

`$o->name` takes the name from the constants, `$o->$name` and `$o->{...}` from the stack; reading, writing and calling
are implemented once for either. What both call is in `Runtime`.
-/

namespace PhpPico.Access
open Members (Classes PMethod isThrowable exceptionField memberVisible)

/-! ## States -/

/-- `pvalue`; what is behind a header is in the world. The bytes of a string do not change. -/
inductive Value where
  | null
  | bool (b : Bool)
  | int (n : Int)
  | string (header : Nat) (bytes : List UInt8)
  | array (header : Nat)
  | object (header : Nat)
  | other (header : Nat)
deriving DecidableEq, Repr

/-- The reference count a value takes part in. -/
def Value.header : Value → Option Nat
  | .string header _ | .array header | .object header | .other header => some header
  | _ => none

/-- A property with what an access of it checks. Without type checks none is typed. -/
structure Property extends Members.PProperty where
  slot : Nat
  isReadonly : Bool
  isTyped : Bool
  initialized : Bool
deriving DecidableEq, Repr

/-- An object: its class, its slots, and which of them were written. -/
structure PObject where
  classEntry : Nat
  slots : List Value
  written : List Bool
deriving DecidableEq, Repr

/-- What all executions share; `rest` is whatever PHP code can reach besides. -/
structure World (ρ : Type) where
  classes : Classes
  /-- The properties of each class, inherited ones among them. -/
  properties : Nat → List Property
  objects : Nat → PObject
  /-- The entries of each array: keys and values. -/
  arrays : Nat → List (Value × Value)
  refcnt : Nat → Nat
  rest : ρ

/-- The frame that runs. -/
structure Frame where
  calledScope : Option Nat
  line : Nat
deriving DecidableEq, Repr

/-- A `pphp_state`: the operands, the last one first, the error that is pending, and the world. -/
structure State (ρ : Type) where
  stack : List Value
  fields : Pending.Fields
  world : World ρ

/-- How a call of a magic method ends. -/
inductive Invoked (ρ : Type) where
  | noMethod
  | failed (s : State ρ)
  | returned (value : Value) (s : State ρ)

/-- What member accesses call: code that runs PHP code, or may do so. -/
structure Runtime (ρ : Type) where
  /-- `pv_release`. A destructor runs in an execution of its own and leaves the operands and the
  pending error as they are. -/
  release : Value → World ρ → World ρ
  /-- The callable `invoke_magic` makes of an object and a method, with `pphp_vm_invoke`. -/
  invoke : Nat → List UInt8 → List Value → State ρ → State ρ × Option Value
  /-- The text of `check_property_type`, for a value that is refused. -/
  refuses : World ρ → Nat → Property → Value → Option (List UInt8)
  /-- `enter_method`. -/
  enterMethod : Frame → PMethod → Nat → State ρ → State ρ

variable {ρ : Type}

/-- `PPHP_STACK_SLOTS`. -/
def stackSlots : Nat := 384

/-- `pclass_find_property`. -/
def World.findProperty (w : World ρ) (classEntry : Nat) (name : List UInt8) : Option Property :=
  (w.properties classEntry).find? fun p => p.name = name

/-- `pobject_property_written`. -/
def World.propertyWritten (w : World ρ) (object slot : Nat) : Bool := (w.objects object).written.getD slot false

/-- The name of a class, as messages print it. -/
def World.className (w : World ρ) (classEntry : Nat) : List UInt8 :=
  printed (((Members.classAt w.classes classEntry).map Members.PClass.name).getD [])

/-- A slot of an object. -/
def World.slot (w : World ρ) (object slot : Nat) : Value := (w.objects object).slots.getD slot .null

/-- A slot gets a value, and `pobject_mark_property_written`. -/
def World.store (w : World ρ) (object slot : Nat) (value : Value) : World ρ :=
  let o := w.objects object
  let stored : PObject := { o with slots := o.slots.set slot value, written := o.written.set slot true }
  { w with objects := Function.update w.objects object stored }

/-- `pv_retain`. -/
def World.retain (w : World ρ) (value : Value) : World ρ :=
  match value.header with
  | none => w
  | some header => { w with refcnt := Function.update w.refcnt header (w.refcnt header + 1) }

namespace State

def runtimeError (s : State ρ) (line : Nat) (text : List UInt8) : State ρ :=
  { s with fields := s.fields.runtimeError line text }

def raiseDeclaredTypeError (s : State ρ) (line : Nat) (text : List UInt8) : State ρ :=
  { s with fields := s.fields.raiseDeclaredTypeError line text }

def retain (s : State ρ) (value : Value) : State ρ := { s with world := s.world.retain value }

def pop (s : State ρ) : Value × State ρ :=
  match s.stack with
  | [] => (.null, s.runtimeError 0 (ascii "bytecode stack underflow"))
  | value :: rest => (value, { s with stack := rest })

/-- `constant_string`. -/
def constantString (s : State ρ) (f : Frame) (constant : Value) : Option (Nat × List UInt8) × State ρ :=
  match constant with
  | .string header bytes => (some (header, bytes), s)
  | _ => (none, s.runtimeError f.line (ascii "name constant is invalid"))

end State

namespace Runtime

variable (rt : Runtime ρ)

def releases (s : State ρ) (value : Value) : State ρ := { s with world := rt.release value s.world }

/-- Values released one after the other; `release_range` goes from the oldest operand to the last. -/
def releaseAll (s : State ρ) (values : List Value) : State ρ := values.foldl rt.releases s

def push (s : State ρ) (value : Value) : State ρ :=
  if stackSlots ≤ s.stack.length then rt.releases (s.runtimeError 0 (ascii "value stack overflow")) value
  else { s with stack := value :: s.stack }

/-- `invoke_magic`. -/
def invokeMagic (s : State ρ) (object : Nat) (name : List UInt8) (arguments : List Value) : Invoked ρ :=
  match Members.findMethod s.world.classes (s.world.objects object).classEntry name with
  | none => .noMethod
  | some method =>
    if method.isStatic then .noMethod
    else
      match rt.invoke object name arguments s with
      | (s', some value) => .returned value s'
      | (s', none) => .failed s'

/-! ## Reading -/

/-- `OP_PROP_GET`. -/
def propGet (f : Frame) (constant : Value) (s : State ρ) : State ρ :=
  let (name, s) := s.constantString f constant
  let (objectValue, s) := s.pop
  match name, objectValue with
  | some (header, bytes), .object o =>
    let s :=
      match s.world.findProperty (s.world.objects o).classEntry bytes with
      | none =>
        match rt.invokeMagic s o (ascii "__get") [.string header bytes] with
        | .returned value s => rt.push s value
        | .noMethod => s.runtimeError f.line (ascii "undefined property " ++ printed bytes)
        | .failed s => s
      | some p =>
        if memberVisible s.world.classes p.visibility p.owner f.calledScope = false then
          s.runtimeError f.line (ascii "cannot access non-public property " ++ printed bytes)
        else if p.isTyped ∧ p.initialized = false ∧ s.world.propertyWritten o p.slot = false then
          s.runtimeError f.line (ascii "Typed property " ++ s.world.className p.owner ++ ascii "::$" ++
            printed p.name ++ ascii " must not be accessed before initialization")
        else
          let value := s.world.slot o p.slot
          rt.push (s.retain value) value
    rt.releases s objectValue
  | _, _ => (rt.releases s objectValue).runtimeError f.line (ascii "property access on non-object")

/-- `OP_PROP_GET_DYNAMIC`. -/
def propGetDynamic (f : Frame) (s : State ρ) : State ρ :=
  let (nameValue, s) := s.pop
  let (objectValue, s) := s.pop
  let s :=
    match nameValue, objectValue with
    | .string header bytes, .object o =>
      match s.world.findProperty (s.world.objects o).classEntry bytes with
      | none =>
        match rt.invokeMagic s o (ascii "__get") [.string header bytes] with
        | .returned value s => rt.push s value
        | .noMethod => s.runtimeError f.line (ascii "undefined property " ++ printed bytes)
        | .failed s => s
      | some p =>
        if memberVisible s.world.classes p.visibility p.owner f.calledScope = false then
          s.runtimeError f.line (ascii "cannot access non-public property " ++ printed bytes)
        else if p.isTyped ∧ p.initialized = false ∧ s.world.propertyWritten o p.slot = false then
          s.runtimeError f.line (ascii "Typed property " ++ s.world.className p.owner ++ ascii "::$" ++
            printed p.name ++ ascii " must not be accessed before initialization")
        else
          let value := s.world.slot o p.slot
          rt.push (s.retain value) value
    | .string _ _, _ => s.runtimeError f.line (ascii "property access on non-object")
    | _, _ => s.runtimeError f.line (ascii "dynamic property name must be a string")
  rt.releases (rt.releases s nameValue) objectValue

/-! ## Writing -/

/-- `OP_PROP_SET`. A value that was pushed is not released. -/
def propSet (f : Frame) (constant : Value) (s : State ρ) : State ρ :=
  let (name, s) := s.constantString f constant
  let (value, s) := s.pop
  let (objectValue, s) := s.pop
  match name, objectValue with
  | some (header, bytes), .object o =>
    let (value, s) : Value × State ρ :=
      match s.world.findProperty (s.world.objects o).classEntry bytes with
      | none =>
        match rt.invokeMagic s o (ascii "__set") [.string header bytes, value] with
        | .returned ignored s => (.null, rt.push (rt.releases s ignored) value)
        | .noMethod => (value, s.runtimeError f.line (ascii "undefined property " ++ printed bytes))
        | .failed s => (value, s)
      | some p =>
        if memberVisible s.world.classes p.visibility p.owner f.calledScope = false then
          (value, s.runtimeError f.line (ascii "cannot access non-public property " ++ printed bytes))
        else if p.isReadonly ∧ (f.calledScope ≠ some p.owner ∨ s.world.propertyWritten o p.slot) then
          (value, s.runtimeError f.line (ascii "cannot modify readonly property " ++ printed bytes))
        else
          match rt.refuses s.world (s.world.objects o).classEntry p value with
          | some text => (value, s.raiseDeclaredTypeError f.line text)
          | none =>
            let s := rt.releases (s.retain value) (s.world.slot o p.slot)
            (.null, rt.push { s with world := s.world.store o p.slot value } value)
    rt.releases (rt.releases s objectValue) value
  | _, _ =>
    (rt.releases (rt.releases s objectValue) value).runtimeError f.line
      (ascii "property assignment on non-object")

/-- `OP_PROP_SET_DYNAMIC`. -/
def propSetDynamic (f : Frame) (s : State ρ) : State ρ :=
  let (value, s) := s.pop
  let (nameValue, s) := s.pop
  let (objectValue, s) := s.pop
  let (value, s) : Value × State ρ :=
    match nameValue, objectValue with
    | .string header bytes, .object o =>
      match s.world.findProperty (s.world.objects o).classEntry bytes with
      | none =>
        match rt.invokeMagic s o (ascii "__set") [.string header bytes, value] with
        | .returned ignored s => (.null, rt.push (rt.releases s ignored) value)
        | .noMethod => (value, s.runtimeError f.line (ascii "undefined property " ++ printed bytes))
        | .failed s => (value, s)
      | some p =>
        if memberVisible s.world.classes p.visibility p.owner f.calledScope = false then
          (value, s.runtimeError f.line (ascii "cannot access non-public property " ++ printed bytes))
        else if p.isReadonly ∧ (f.calledScope ≠ some p.owner ∨ s.world.propertyWritten o p.slot) then
          (value, s.runtimeError f.line (ascii "cannot modify readonly property " ++ printed bytes))
        else
          match rt.refuses s.world (s.world.objects o).classEntry p value with
          | some text => (value, s.raiseDeclaredTypeError f.line text)
          | none =>
            let s := rt.releases (s.retain value) (s.world.slot o p.slot)
            (.null, rt.push { s with world := s.world.store o p.slot value } value)
    | .string _ _, _ => (value, s.runtimeError f.line (ascii "property assignment on non-object"))
    | _, _ => (value, s.runtimeError f.line (ascii "dynamic property name must be a string"))
  rt.releases (rt.releases (rt.releases s value) nameValue) objectValue

/-! ## Calling -/

/-- The entries of an array are pushed, at most 31. -/
def expandEntries (line : Nat) (arrayValue : Value) : List (Value × Value) → Nat → State ρ → Option Nat × State ρ
  | [], count, s => (some count, rt.releases s arrayValue)
  | (key, value) :: rest, count, s =>
    let s := rt.releases ((s.retain key).retain value) key
    match key with
    | .int _ =>
      if 31 ≤ count then
        (none, (rt.releases (rt.releases s value) arrayValue).runtimeError line
          (ascii "a call may have at most 31 arguments"))
      else if stackSlots ≤ s.stack.length then (none, rt.releases (rt.push s value) arrayValue)
      else expandEntries line arrayValue rest (count + 1) (rt.push s value)
    | _ =>
      (none, (rt.releases (rt.releases s value) arrayValue).runtimeError line
        (ascii "named arguments are not supported in argument unpacking"))

/-- `expand_argument_array`. -/
def expandArgumentArray (line : Nat) (s : State ρ) : Option Nat × State ρ :=
  let (arrayValue, s) := s.pop
  match arrayValue with
  | .array a => rt.expandEntries line arrayValue (s.world.arrays a) 0 s
  | _ => (none, (rt.releases s arrayValue).runtimeError line (ascii "only arrays can be unpacked as arguments"))

/-- The field of an exception that a call without arguments returns, as far as there is one. -/
def accessedField (s : State ρ) (object : Nat) (name : List UInt8) (argumentCount : Nat) : Option Value :=
  let classEntry := (s.world.objects object).classEntry
  if isThrowable s.world.classes classEntry ∧ argumentCount = 0 then
    (exceptionField name).bind fun field =>
      (s.world.findProperty classEntry field).map fun p => s.world.slot object p.slot
  else none

/-- `invoke_named_method`. -/
def invokeNamedMethod (f : Frame) (name : Option (List UInt8)) (argumentCount : Nat) (s : State ρ) : State ρ :=
  match name, s.stack[argumentCount]? with
  | some name, some (.object o) =>
    match accessedField s o name argumentCount with
    | some value =>
      let s := rt.releaseAll (s.retain value) (s.stack.take (argumentCount + 1)).reverse
      rt.push { s with stack := s.stack.drop (argumentCount + 1) } value
    | none =>
      match Members.findMethod s.world.classes (s.world.objects o).classEntry name with
      | none => s.runtimeError f.line (ascii "undefined method " ++ printed name ++ ascii "()")
      | some method =>
        if memberVisible s.world.classes method.visibility method.owner f.calledScope = false then
          s.runtimeError f.line (ascii "cannot access non-public method " ++ printed name ++ ascii "()")
        else rt.enterMethod f method argumentCount s
  | some _, some _ => s.runtimeError f.line (ascii "method call on non-object")
  | _, _ => s.runtimeError f.line (ascii "invalid method call operands")

/-- `OP_MCALL`. -/
def mcall (f : Frame) (constant : Value) (argumentCount : Nat) (s : State ρ) : State ρ :=
  let (name, s) := s.constantString f constant
  rt.invokeNamedMethod f (name.map Prod.snd) argumentCount s

/-- `OP_MCALL_ARRAY`. -/
def mcallArray (f : Frame) (constant : Value) (s : State ρ) : State ρ :=
  let (name, s) := s.constantString f constant
  match rt.expandArgumentArray f.line s with
  | (none, s) => s
  | (some argumentCount, s) => rt.invokeNamedMethod f (name.map Prod.snd) argumentCount s

/-- `OP_MCALL_DYNAMIC`, when the number of arguments is known. -/
def mcallDynamic (f : Frame) (argumentCount : Nat) (s : State ρ) : State ρ :=
  if s.stack.length < argumentCount + 2 then s.runtimeError f.line (ascii "invalid dynamic method operands")
  else
    match s.stack[argumentCount]? with
    | some (.string header bytes) =>
      let s := { s with stack := s.stack.eraseIdx argumentCount }
      rt.releases (rt.invokeNamedMethod f (some bytes) argumentCount s) (.string header bytes)
    | _ => s.runtimeError f.line (ascii "dynamic method name must be a string")

/-- `OP_MCALL_DYNAMIC_ARRAY`. -/
def mcallDynamicArray (f : Frame) (s : State ρ) : State ρ :=
  match rt.expandArgumentArray f.line s with
  | (none, s) => s
  | (some argumentCount, s) => rt.mcallDynamic f argumentCount s

end Runtime

end PhpPico.Access
