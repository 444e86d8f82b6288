import PhpPico.Lib.CopyOnWrite
import PhpPico.Parray.Refine
import PhpPico.Vm.Access

/-!
# Arrays and properties at run time

What the instructions do to arrays and to properties: arrays are counted and shared, and separated before a write by a
comparison of their count with 2. What has lost a reference waits in `pending` for its release, so that destructors
may run in between; which instruction comes next is left open.
-/

namespace PhpPico.Sharing
open CopyOnWrite Members OrderedMap
open Access (Property)

/-! ## States -/

/-- A value that is no array. -/
inductive Data where
  | null
  | bool (b : Bool)
  | int (n : Int)
  | string (bytes : List UInt8)
  | object (o : Nat)
  | other (header : Nat)
deriving DecidableEq, Repr

abbrev PValue := Value Data

def pvNull : PValue := .data .null

/-- What is in an array: its keys are distinct. -/
structure Content where
  dict : Dict PValue
  distinct : (keys dict.entries).Nodup

def Content.entries (c : Content) : List (Key × PValue) := c.dict.entries

/-- `pa_new` -/
def Content.empty : Content := ⟨Dict.empty, List.nodup_nil⟩

/-- A slot of a frame: the value is here, or at a place in the storage of globals and statics. -/
inductive Variable where
  | own (v : PValue)
  | stored (i : Nat)
deriving DecidableEq, Repr

def Variable.values : Variable → List PValue
  | .own v => [v]
  | .stored _ => []

/-- An operand. `OP_ARR_PUSH`, `OP_ARR_SET` and `OP_ARR_EXTEND` are emitted only for the array `OP_NEW_ARRAY` made,
which nothing else refers to: it is `literal` until it is used. -/
inductive Operand where
  | value (v : PValue)
  | literal (c : Content)

def Operand.values : Operand → List PValue
  | .value v => [v]
  | .literal c => CopyOnWrite.values Content.entries c

structure Frame where
  calledScope : Option Nat
  locals : List Variable
  operands : List Operand

def Frame.values (f : Frame) : List PValue := f.operands.flatMap Operand.values ++ f.locals.flatMap Variable.values

structure PObject where
  classEntry : Nat
  slots : List PValue
  written : List Bool
deriving DecidableEq, Repr

structure State where
  heap : Heap Content
  /-- Objects, `none` once they are destroyed. -/
  objects : List (Option PObject)
  frame : Frame
  callers : List Frame
  /-- Globals, statics, static properties, defaults, constants, captured variables, and what natives hold. -/
  stored : List PValue
  pending : List PValue
  error : Bool

def slotsOf (o : Option PObject) : List PValue := o.elim [] PObject.slots

/-- Whatever holds a value and is no array. -/
def State.places (s : State) : List PValue :=
  s.frame.values ++ s.callers.flatMap Frame.values ++ s.objects.flatMap slotsOf ++ s.stored ++ s.pending

/-- Some place or some entry holds the value. -/
def State.Held (s : State) (v : PValue) : Prop :=
  ∀ a, v = .array a → 0 < count a s.places + inside Content.entries s.heap a

/-- The classes of a program, and which key a value stands for in an array. -/
structure Program where
  classes : Classes
  properties : Nat → List Property
  slots : ∀ (c i : Nat) (p : Property), (properties c)[i]? = some p → p.slot = i
  cfg : Config
  keyOf : PValue → Option Key

/-- The count at which `pv_retain` stops. -/
def refcntMax : Nat := 65535

/-! ## Contents -/

theorem Content.distinct_set (cfg : Config) (c : Content) (key : Key) (v : PValue) :
    (keys (c.dict.set cfg key v).entries).Nodup := by
  unfold Dict.set
  split
  · exact nodup_set key v c.distinct
  · exact nodup_set key v c.distinct

def Content.set (cfg : Config) (c : Content) (key : Key) (v : PValue) : Content :=
  ⟨c.dict.set cfg key v, c.distinct_set cfg key v⟩

/-- `pa_push` -/
def Content.push (cfg : Config) (c : Content) (v : PValue) : Content := c.set cfg (.int c.dict.next) v

/-- `OP_ARR_EXTEND` pushes what has a number as key. -/
def Content.unpackedKey (c : Content) : Key → Key
  | .int _ => .int c.dict.next
  | key => key

def Content.erase (c : Content) (key : Key) : Content := ⟨c.dict.erase key, nodup_erase key c.distinct⟩

/-- The value that goes when a key is set or erased. -/
def Content.old (c : Content) (key : Key) : List PValue := (c.dict.get key).toList

/-! ## Moving values -/

namespace State
variable (prog : Program)

def retained (s : State) (v : PValue) : State := { s with heap := retain refcntMax s.heap v }

def retainedAll (s : State) (vs : List PValue) : State := { s with heap := retainAll refcntMax s.heap vs }

def released (s : State) (v : PValue) : State := { s with pending := v :: s.pending }

def releasedAll (s : State) (vs : List PValue) : State := { s with pending := vs ++ s.pending }

def fail (s : State) : State := { s with error := true }

def operands (s : State) (l : List Operand) : State := { s with frame := { s.frame with operands := l } }

def push (s : State) (v : PValue) : State := s.operands (.value v :: s.frame.operands)

def pop (s : State) : Option (PValue × State) :=
  match s.frame.operands with
  | .value v :: rest => some (v, s.operands rest)
  | _ => none

/-- A new array, held by whoever asked for it. -/
def created (s : State) (c : Content) : State := { s with heap := alloc s.heap c }

def written (s : State) (a : Nat) (c : Content) : State := { s with heap := overwrite s.heap a c }

def object (s : State) (o : Nat) : Option PObject := (s.objects[o]?).join

/-! ## Variables -/

/-- `read_local_value` -/
def readLocal (s : State) (slot : Nat) : Option PValue :=
  match s.frame.locals[slot]? with
  | none => none
  | some (.own v) => some v
  | some (.stored i) => s.stored[i]?

/-- `OP_LOAD_LOCAL` and `OP_LOAD_LOCAL_QUIET` -/
def loadLocal (slot : Nat) (s : State) : Option State := do
  let v ← s.readLocal slot
  some ((s.retained v).push v)

/-- `store_local_value`, in `OP_STORE_LOCAL` -/
def storeLocal (slot : Nat) (s : State) : Option State := do
  let (v, s) ← s.pop
  match s.frame.locals[slot]? with
  | none => none
  | some (.own old) =>
    some ({ s with frame := { s.frame with locals := s.frame.locals.set slot (.own v) } }.released old)
  | some (.stored i) =>
    let old ← s.stored[i]?
    some ({ s with stored := s.stored.set i v }.released old)

/-- A slot becomes one of the storage, for `global` and `static`. -/
def bindLocal (slot i : Nat) (s : State) : Option State :=
  match s.frame.locals[slot]? with
  | some (.own old) =>
    some ({ s with frame := { s.frame with locals := s.frame.locals.set slot (.stored i) } }.released old)
  | some (.stored _) => some { s with frame := { s.frame with locals := s.frame.locals.set slot (.stored i) } }
  | none => none

/-! ## Operands -/

/-- `OP_POP`, and what unwinding drops. -/
def drop (s : State) : Option State :=
  match s.frame.operands with
  | .value v :: rest => some ((s.operands rest).released v)
  | .literal c :: rest => some ((s.operands rest).releasedAll (values Content.entries c))
  | [] => none

/-- `OP_DUP` -/
def dup (s : State) : Option State :=
  match s.frame.operands with
  | .value v :: _ => some ((s.retained v).push v)
  | _ => none

/-- Constants and results that are no arrays. -/
def pushData (d : Data) (s : State) : Option State := some (s.push (.data d))

/-- A copy of a value that is at some place: an argument a native reads, one that is passed on. -/
def copy (v : PValue) (s : State) : Option State := some ((s.retained v).push v)

/-- A value goes to a place of its own: a captured variable, a default, a new static or global. -/
def keep (s : State) : Option State := do
  let (v, s) ← s.pop
  some { s with stored := s.stored ++ [v] }

/-- Such a place gets another value, null when it is given up. -/
def replaceStored (i : Nat) (s : State) : Option State := do
  let (v, s) ← s.pop
  let old ← s.stored[i]?
  some ({ s with stored := s.stored.set i v }.released old)

/-! ## Array literals -/

/-- `OP_NEW_ARRAY` -/
def newArray (s : State) : Option State := some (s.operands (.literal .empty :: s.frame.operands))

/-- `pa_set` on a literal, for `OP_ARR_PUSH` without a key. -/
def arrPut (key : Option Key) (v : PValue) (rest : List Operand) (c : Content) (s : State) : State :=
  let key := key.getD (.int c.dict.next)
  (s.operands (.literal (c.set prog.cfg key v) :: rest)).releasedAll (c.old key)

/-- `OP_ARR_PUSH` -/
def arrPush (s : State) : Option State :=
  match s.frame.operands with
  | .value v :: .literal c :: rest => some (s.arrPut prog none v rest c)
  | _ => none

/-- `OP_ARR_SET` -/
def arrSet (s : State) : Option State :=
  match s.frame.operands with
  | .value v :: .value key :: .literal c :: rest =>
    match prog.keyOf key with
    | none => some (((s.operands rest).releasedAll (v :: key :: values Content.entries c)).fail)
    | some k => some ((s.arrPut prog (some k) v rest c).released key)
  | _ => none

/-- An entry that is unpacked, and the value that goes. -/
def extend (cfg : Config) (r : Content × List PValue) (e : Key × PValue) : Content × List PValue :=
  (r.1.set cfg (r.1.unpackedKey e.1) e.2, r.1.old (r.1.unpackedKey e.1) ++ r.2)

/-- `OP_ARR_EXTEND` -/
def arrExtend (s : State) : Option State :=
  match s.frame.operands with
  | .value (.array a) :: .literal c :: rest => do
    let cell ← cellAt s.heap a
    let r := cell.content.entries.foldl (extend prog.cfg) (c, [])
    let s := (s.retainedAll (values Content.entries cell.content)).operands (.literal r.1 :: rest)
    some ((s.releasedAll r.2).released (.array a))
  | .value (.data _) :: .literal c :: rest => some (((s.operands rest).releasedAll (values Content.entries c)).fail)
  | _ => none

/-- The literal is used. -/
def built (s : State) : Option State :=
  match s.frame.operands with
  | .literal c :: rest => some (((s.operands rest).created c).push (.array s.heap.length))
  | _ => none

/-! ## Writing arrays -/

/-- `array_for_write`; without memory there is none. -/
def arrayForWrite (granted : Bool) (s : State) (a : Nat) : Option (Option Nat × State) := do
  let cell ← cellAt s.heap a
  if cell.refcnt ≤ 2 then some (some a, s)
  else if granted then
    some (some s.heap.length,
      ((s.retainedAll (values Content.entries cell.content)).created cell.content).released (.array a))
  else some (none, s)

/-- The entry is written, and the array and the value pushed. -/
def writeEntry (granted : Bool) (key : Option Key) (v : PValue) (a : Nat) (s : State) : Option State := do
  let cell ← cellAt s.heap a
  if granted then
    match key with
    | none => some (((s.released (.array a)).released v).fail)
    | some k =>
      some (((((s.retained v).written a (cell.content.set prog.cfg k v)).releasedAll (cell.content.old k)).push
        (.array a)).push v)
  else some (((s.released (.array a)).released v).fail)

/-- `execute_array_set`, for an array and its key; `pa_push` takes the next one. The bits tell which allocations
succeed. -/
def setEntry (separates writes : Bool) (key : Option PValue) (v : PValue) (a : Nat) (s : State) :
    Option State := do
  let (writable, s) ← s.arrayForWrite separates a
  match writable with
  | none => some (((s.released (.array a)).released v).fail)
  | some b =>
    let cell ← cellAt s.heap b
    s.writeEntry prog writes (match key with | none => some (.int cell.content.dict.next) | some k => prog.keyOf k) v b

/-- `pa_push` has no key. -/
def popKey (append : Bool) (s : State) : Option (Option PValue × State) :=
  if append then some (none, s) else s.pop.map fun r => (some r.1, r.2)

/-- `execute_array_set` -/
def executeArraySet (separates writes append : Bool) (s : State) : Option State := do
  let (v, s) ← s.pop
  let (key, s) ← s.popKey append
  let (base, s) ← s.pop
  let s := s.releasedAll key.toList
  match base with
  | .array a => s.setEntry prog separates writes key v a
  | .data .null =>
    if separates then (s.created .empty).setEntry prog separates writes key v s.heap.length
    else some ((s.released v).fail)
  | .data _ => some ((s.released v).fail)

/-- `execute_array_unset` -/
def executeArrayUnset (separates removes : Bool) (s : State) : Option State := do
  let (key, s) ← s.pop
  let (base, s) ← s.pop
  let s := s.released key
  match base with
  | .data _ => some s.fail
  | .array a =>
    let (writable, s) ← s.arrayForWrite separates a
    match writable with
    | none => some ((s.released (.array a)).fail)
    | some b =>
      let cell ← cellAt s.heap b
      match (if removes then prog.keyOf key else none) with
      | none => some (s.push (.array b))
      | some k => some (((s.written b (cell.content.erase k)).releasedAll (cell.content.old k)).push (.array b))

/-- `OP_ARR_SEPARATE` -/
def arrSeparate (separates : Bool) (s : State) : Option State := do
  let (v, s) ← s.pop
  match v with
  | .data _ => some s.fail
  | .array a =>
    let (writable, s) ← s.arrayForWrite separates a
    match writable with
    | none => some ((s.released (.array a)).fail)
    | some b => some (s.push (.array b))

/-- `execute_index_get` on an array. -/
def indexGet (s : State) : Option State := do
  let (key, s) ← s.pop
  let (base, s) ← s.pop
  match base with
  | .data _ => some (((s.released key).push pvNull))
  | .array a =>
    let cell ← cellAt s.heap a
    let v := ((prog.keyOf key).bind cell.content.dict.get).getD pvNull
    some ((((s.retained v).push v).released key).released (.array a))

/-! The compiler emits the writes of arrays only behind loads of a variable that holds the array. -/

def loadKey (s : State) (keySlot : Nat) : Option State := s.loadLocal keySlot

/-- `store_index_value` and `propagate_index_update`. -/
def setIndex (separates writes : Bool) (slot : Nat) (keySlot : Option Nat) (valueSlot : Nat)
    (s : State) : Option State := do
  let s ← s.loadLocal slot
  let s ← keySlot.elim (some s) s.loadKey
  let s ← s.loadLocal valueSlot
  s.executeArraySet prog separates writes keySlot.isNone

/-- `unset_index_value` -/
def unsetIndex (separates removes : Bool) (slot keySlot : Nat) (s : State) : Option State := do
  let s ← s.loadLocal slot
  let s ← s.loadLocal keySlot
  s.executeArrayUnset prog separates removes

/-! ## Natives -/

/-- A result that is an array, of values that are at some place. -/
def fresh (c : Content) (s : State) : Option State :=
  some (((s.retainedAll (values Content.entries c)).created c).push (.array s.heap.length))

/-- `call_array_mutator` and `call_array_sort` write the array they are given, whoever else has it: `array_push`
pushes the arguments one by one. -/
def mutatePush (i : Nat) (v : PValue) (s : State) : Option State :=
  match s.frame.operands[i]? with
  | some (.value (.array a)) => do
    let cell ← cellAt s.heap a
    some (((s.retained v).written a (cell.content.push prog.cfg v)).releasedAll
      (cell.content.old (.int cell.content.dict.next)))
  | _ => none

/-- `replace_array_storage`, for the others: the entries of the replacement were retained when it was made. -/
def mutateReplace (i : Nat) (replacement : Content) (s : State) : Option State :=
  match s.frame.operands[i]? with
  | some (.value (.array a)) => do
    let cell ← cellAt s.heap a
    some (((s.retainedAll (values Content.entries replacement)).written a replacement).releasedAll
      (values Content.entries cell.content))
  | _ => none

/-! ## Objects -/

/-- `pclass_find_property` -/
def findProperty (obj : PObject) (name : List UInt8) : Option Property :=
  (prog.properties obj.classEntry).find? fun p => p.name = name

/-- A magic method is called. -/
def hasMagic (obj : PObject) (name : String) : Bool :=
  (findMethod prog.classes obj.classEntry (ascii name)).any fun m => !m.isStatic

/-- `OP_PROP_GET` and `OP_PROP_GET_QUIET`, with the name from the constants or an operand. -/
def getProperty (quiet : Bool) (o : Nat) (name : List UInt8) (s : State) : Option State := do
  let obj ← s.object o
  match findProperty prog obj name with
  | none => some (if quiet then s.push pvNull else if hasMagic prog obj "__get" then s else s.fail)
  | some p =>
    if memberVisible prog.classes p.visibility p.owner s.frame.calledScope = false then
      some (if quiet then s.push pvNull else s.fail)
    else if quiet = false ∧ p.isTyped ∧ p.initialized = false ∧ obj.written.getD p.slot false = false then some s.fail
    else
      let v := obj.slots.getD p.slot pvNull
      some ((s.retained v).push v)

/-- A slot of an object gets a value. -/
def slotSet (s : State) (o : Nat) (obj : PObject) : State := { s with objects := s.objects.set o (some obj) }

/-- `OP_PROP_SET`, with the name from the constants or an operand; `accepts` is what `check_property_type`
answers. -/
def setProperty (accepts : Bool) (o : Nat) (name : List UInt8) (v : PValue) (s : State) :
    Option State := do
  let obj ← s.object o
  match findProperty prog obj name with
  | none => some (if hasMagic prog obj "__set" then s.push v else (s.released v).fail)
  | some p =>
    if memberVisible prog.classes p.visibility p.owner s.frame.calledScope = false then some (s.released v).fail
    else if p.isReadonly ∧ (s.frame.calledScope ≠ some p.owner ∨ obj.written.getD p.slot false = true) then
      some (s.released v).fail
    else if accepts = false then some (s.released v).fail
    else
      some ((((s.retained v).slotSet o
        { obj with slots := obj.slots.set p.slot v, written := obj.written.set p.slot true }).released
          (obj.slots.getD p.slot pvNull)).push v)

/-- A value that is no object has no property. -/
def noObject (quiet : Bool) (s : State) : State := if quiet then s.push pvNull else s.fail

/-- `OP_PROP_GET` and `OP_PROP_GET_QUIET` -/
def propGet (quiet : Bool) (name : List UInt8) (s : State) : Option State := do
  let (v, s) ← s.pop
  match v with
  | .data (.object o) => s.getProperty prog quiet o name
  | v => some ((s.released v).noObject quiet)

/-- `OP_PROP_GET_DYNAMIC` and `OP_PROP_GET_DYNAMIC_QUIET` -/
def propGetDynamic (quiet : Bool) (s : State) : Option State := do
  let (name, s) ← s.pop
  let (v, s) ← s.pop
  match name, v with
  | .data (.string bytes), .data (.object o) => s.getProperty prog quiet o bytes
  | name, v => some (((s.released v).released name).noObject quiet)

/-- `OP_PROP_SET` -/
def propSet (accepts : Bool) (name : List UInt8) (s : State) : Option State := do
  let (v, s) ← s.pop
  let (base, s) ← s.pop
  match base with
  | .data (.object o) => s.setProperty prog accepts o name v
  | base => some ((s.released base).released v).fail

/-- `OP_PROP_SET_DYNAMIC` -/
def propSetDynamic (accepts : Bool) (s : State) : Option State := do
  let (v, s) ← s.pop
  let (name, s) ← s.pop
  let (base, s) ← s.pop
  match name, base with
  | .data (.string bytes), .data (.object o) => s.setProperty prog accepts o bytes v
  | name, base => some (((s.released v).released name).released base).fail

def addObject (s : State) (obj : PObject) : State := { s with objects := s.objects ++ [some obj] }

/-- `pobject_new`; the defaults of the class are among the places of values. -/
def newObject (classEntry : Nat) (defaults : List Nat) (s : State) : Option State :=
  let slots := defaults.map fun i => s.stored.getD i pvNull
  some (((s.retainedAll slots).addObject ⟨classEntry, slots, slots.map fun _ => false⟩).push
    (.data (.object s.objects.length)))

/-- `pobject_clone` -/
def cloneObject (s : State) : Option State := do
  let (v, s) ← s.pop
  match v with
  | .data (.object o) =>
    let obj ← s.object o
    some (((s.retainedAll obj.slots).addObject obj).push (.data (.object s.objects.length)))
  | v => some (s.released v).fail

/-- `set_field` in exception.c: the fields of a throwable, as it is constructed or thrown. -/
def setField (o : Nat) (name : List UInt8) (d : Data) (s : State) : Option State := do
  let obj ← s.object o
  match findProperty prog obj name with
  | none => some s
  | some p =>
    some ((s.slotSet o { obj with slots := obj.slots.set p.slot (.data d) }).released (obj.slots.getD p.slot pvNull))

/-! ## Calls -/

/-- The values of arguments, the last one on the stack. -/
def popArguments : Nat → State → Option (List PValue × State)
  | 0, s => some ([], s)
  | n + 1, s => do
    let (v, s) ← s.pop
    let (vs, s) ← popArguments n s
    some (vs ++ [v], s)

/-- A function is entered, in the scope of a class or in none. -/
def enter (scope : Option Nat) (arguments locals : Nat) (s : State) : Option State := do
  let (vs, s) ← popArguments arguments s
  some { s with
    frame := ⟨scope, vs.map .own ++ List.replicate locals (.own pvNull), []⟩
    callers := s.frame :: s.callers }

/-- A function is left, with nothing. -/
def abandon (s : State) : Option State :=
  match s.callers with
  | [] => none
  | caller :: rest =>
    some { s with frame := caller, callers := rest, pending := s.frame.values ++ s.pending }

/-- `return_from_function` -/
def leave (s : State) : Option State := do
  let (v, s) ← s.pop
  let s ← s.abandon
  some (s.push v)

/-! ## The end of values -/

/-- `pv_release`, for one of the references that have gone. -/
def releaseOne (s : State) : Option State :=
  match s.pending with
  | [] => none
  | .data _ :: rest => some { s with pending := rest }
  | .array a :: rest =>
    let r := release refcntMax Content.entries s.heap a
    some { s with heap := r.1, pending := r.2 ++ rest }

/-- `pobject_destroy`, behind the destructor. -/
def destroy (o : Nat) (s : State) : Option State := do
  let obj ← s.object o
  some ({ s with objects := s.objects.set o none }.releasedAll obj.slots)

/-- The collector takes the entries out of an array that is garbage. -/
def collect (a : Nat) (s : State) : Option State := do
  let cell ← cellAt s.heap a
  some ((s.written a .empty).releasedAll (values Content.entries cell.content))

/-- An error is caught. -/
def caught (s : State) : Option State := some { s with error := false }

end State

/-! ## Runs -/

/-- What happens next. -/
inductive Op where
  | loadLocal (slot : Nat)
  | storeLocal (slot : Nat)
  | bindLocal (slot i : Nat)
  | drop
  | dup
  | pushData (d : Data)
  | copy (v : PValue)
  | keep
  | replaceStored (i : Nat)
  | newArray
  | arrPush
  | arrSet
  | arrExtend
  | built
  | indexGet
  | setIndex (separates writes : Bool) (slot : Nat) (keySlot : Option Nat) (valueSlot : Nat)
  | unsetIndex (separates removes : Bool) (slot keySlot : Nat)
  | arrSeparate (separates : Bool)
  | fresh (c : Content)
  | mutatePush (i : Nat) (v : PValue)
  | mutateReplace (i : Nat) (replacement : Content)
  | propGet (quiet : Bool) (name : List UInt8)
  | propGetDynamic (quiet : Bool)
  | propSet (accepts : Bool) (name : List UInt8)
  | propSetDynamic (accepts : Bool)
  | newObject (classEntry : Nat) (defaults : List Nat)
  | cloneObject
  | setField (o : Nat) (name : List UInt8) (d : Data)
  | enter (scope : Option Nat) (arguments locals : Nat)
  | abandon
  | leave
  | releaseOne
  | destroy (o : Nat)
  | collect (a : Nat)
  | caught

section Runs
variable (prog : Program)

def exec : Op → State → Option State
  | .loadLocal slot => State.loadLocal slot
  | .storeLocal slot => State.storeLocal slot
  | .bindLocal slot i => State.bindLocal slot i
  | .drop => State.drop
  | .dup => State.dup
  | .pushData d => State.pushData d
  | .copy v => State.copy v
  | .keep => State.keep
  | .replaceStored i => State.replaceStored i
  | .newArray => State.newArray
  | .arrPush => State.arrPush prog
  | .arrSet => State.arrSet prog
  | .arrExtend => State.arrExtend prog
  | .built => State.built
  | .indexGet => State.indexGet prog
  | .setIndex separates writes slot keySlot valueSlot => State.setIndex prog separates writes slot keySlot valueSlot
  | .unsetIndex separates removes slot keySlot => State.unsetIndex prog separates removes slot keySlot
  | .arrSeparate separates => State.arrSeparate separates
  | .fresh c => State.fresh c
  | .mutatePush i v => State.mutatePush prog i v
  | .mutateReplace i replacement => State.mutateReplace i replacement
  | .propGet quiet name => State.propGet prog quiet name
  | .propGetDynamic quiet => State.propGetDynamic prog quiet
  | .propSet accepts name => State.propSet prog accepts name
  | .propSetDynamic accepts => State.propSetDynamic prog accepts
  | .newObject classEntry defaults => State.newObject classEntry defaults
  | .cloneObject => State.cloneObject
  | .setField o name d => State.setField prog o name d
  | .enter scope arguments locals => State.enter scope arguments locals
  | .abandon => State.abandon
  | .leave => State.leave
  | .releaseOne => State.releaseOne
  | .destroy o => State.destroy o
  | .collect a => State.collect a
  | .caught => State.caught

/-- Values are had from somewhere, and the collector takes only what nothing reaches. -/
def Allowed (s : State) : Op → Prop
  | .copy v => s.Held v
  | .mutatePush _ v => s.Held v
  | .fresh c => ∀ v ∈ values Content.entries c, s.Held v
  | .mutateReplace _ c => ∀ v ∈ values Content.entries c, s.Held v
  | .collect a => ∀ v ∈ s.places, ¬ Reaches Content.entries s.heap v a
  | _ => True

/-- Runs whose steps all meet a condition. -/
inductive Run (condition : Op → State → Prop) : State → State → Prop
  | refl (s : State) : Run condition s s
  | step {s s' s'' : State} {op : Op} (before : Run condition s s') (allowed : Allowed s' op) (meets : condition op s')
      (next : exec prog op s' = some s'') : Run condition s s''

/-- A program begins with the frame of its script. -/
def State.start (locals : Nat) : State := ⟨[], [], ⟨none, List.replicate locals (.own pvNull), []⟩, [], [], [], false⟩

end Runs
end PhpPico.Sharing
