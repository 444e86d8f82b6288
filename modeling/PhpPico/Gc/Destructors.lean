import PhpPico.Gc.Collect

/-!
# Destructors

A heap with objects whose classes declare `__destruct`, run step by step. What is under way is a stack of tasks: code,
a release, a value that is being destroyed, a walk over all objects, a collection, the phases of `pphp_close`. A
destructor is code on top of its task. Code does any sequence of actions. A task that reads a freed value has no next
step.
-/

namespace PhpPico.Destruction

open Gc (discoverFrom marks condemned)

/-- `__destruct` as `pclass_find_method` finds it; the compiler and the loader take no static one. -/
structure Destructor where
  isPublic : Bool
  deriving DecidableEq

/-- The destructor of each class that has one. -/
abbrev ClassTable := Nat → Option Destructor

/-- What happens to an object: its destructor is invoked, its properties begin to be released. -/
inductive Event where
  | invoked (a : Nat)
  | emptied (a : Nat)
  deriving DecidableEq, Repr

/-- The object of an event. -/
def Event.subject : Event → Nat
  | .invoked a => a
  | .emptied a => a

/-- Which objects a walk selects: all (`pphp_close`), those of classes that are rolled back (`object_uses_new_class`),
those no root reaches (`reachability_has_container`). -/
inductive Sweep where
  | all
  | classes (rolledBack : List Nat)
  | unreached (containers : List Nat)
  deriving DecidableEq, Repr

/-- `run_rolled_back_destructors` walks again while a destructor was invoked. -/
def Sweep.again : Sweep → Bool
  | .classes _ => true
  | _ => false

/-- What is under way. -/
inductive Task where
  | code
  | release (a : Nat)
  | unlink (a : Nat)
  | drop (a i : Nat)
  | unguard (a : Nat)
  | sweep (next : Option Nat) (which : Sweep) (invoked : Bool)
  | collect
  | clear (a i : Nat)
  | collected
  | destroyArray (a : Nat)
  | definitions
  | freeState
  deriving DecidableEq, Repr

/-- What the program does next, or a step of the runtime: `ready` tells whether a destructor that
is to be invoked there can be, as far as memory and interrupts go. -/
inductive Action where
  | go (ready : Bool)
  | make (type : HeapType) (slots : List Slot)
  | new (class_entry : Nat) (slots : List Slot)
  | constructed (a : Nat)
  | retain (a : Nat)
  | release (a : Nat)
  | write (a : Nat) (slots : List Slot)
  | sweep (which : Sweep)
  | collect
  | done
  | close
  deriving DecidableEq

/-- `pphp_state`, as far as objects go: `objects` is the list `gc_objects`. `events`, `constructed` and `closing`, the
number of values when `pphp_close` began, are kept to speak of runs. -/
structure State where
  gc : Gc
  collecting : Bool
  objects : List Nat
  class_entry : Nat → Option Nat
  tasks : List Task
  events : List Event
  constructed : List Nat
  closing : Option Nat
  closed : Bool

/-- The arrays of globals, static variables, constants and included files. -/
def rootArrays : List Nat := [0, 1, 2, 3]

/-- A container or string nothing has been done to. -/
def freshValue (type : HeapType) (refcnt : Nat) (slots : List Slot) : HeapValue :=
  ⟨type, refcnt, false, false, false, slots⟩

/-- After `pphp_open`, when the program begins. -/
def start : State :=
  ⟨⟨rootArrays.map fun _ => some (freshValue .array 1 []), [], false⟩, false, [], fun _ => none, [.code], [], [],
    none, false⟩

namespace State

/-- How many values have been made; the next one gets this address. -/
def size (s : State) : Nat := s.gc.heap.length

def push (s : State) (tasks : List Task) : State := { s with tasks := tasks ++ s.tasks }

/-- Change a value; nothing when it is freed. -/
def update (s : State) (f : HeapValue → HeapValue) (a : Nat) : Option State :=
  (s.gc.value a).map fun v => { s with gc := s.gc.put a (f v) }

/-- `pv_retain`. -/
def retain (s : State) (a : Nat) : Option State := s.update HeapValue.retained a

/-- Call `__destruct` through an array that holds the object and the name. -/
def invoke (s : State) (d : Destructor) (a : Nat) (after : List Task) : State :=
  let name := freshValue .leaf 2 []
  let callable := freshValue .array 1 [.scalar 0, .ref a, .scalar 1, .ref s.size]
  { s with
    gc := { s.gc with heap := s.gc.heap ++ [some name, some callable] }
    events := s.events ++ if d.isPublic then [.invoked a] else []
    tasks := (if d.isPublic then [Task.code] else []) ++ [Task.release (s.size + 1), .release s.size] ++ after ++ s.tasks }

/-- The destructor of an object; nothing for other values. -/
def destructor (table : ClassTable) (s : State) (a : Nat) : Option Destructor := (s.class_entry a).bind table

/-- The flags and the class let `pobject_run_destructor` go on. -/
def runs (table : ClassTable) (s : State) (v : HeapValue) (a : Nat) : Bool :=
  !v.collecting && !v.destroying && (s.destructor table a).isSome

/-- `pobject_run_destructor`: the flag is set first; an object without a reference is guarded by
one, which is taken away afterwards. -/
def runDestructor (table : ClassTable) (ready : Bool) (s : State) (a : Nat) : Option State :=
  match s.gc.value a with
  | none => none
  | some v =>
    if v.collecting ∨ v.destroying then some s
    else
      match s.destructor table a with
      | none => some s
      | some d =>
        let after := if v.refcnt = 0 then [Task.unguard a] else []
        let flagged := { v with destroying := true, refcnt := max v.refcnt 1 }
        if ready then some ({ s with gc := s.gc.put a flagged.retained }.invoke d a after)
        else some ({ s with gc := s.gc.put a flagged }.push after)

/-- `pv_release`, up to the destructor of an object. -/
def release (table : ClassTable) (ready : Bool) (s : State) (a : Nat) : Option State :=
  match s.gc.value a with
  | none => none
  | some v =>
    if v.refcnt = 65535 ∨ v.refcnt = 0 then some s
    else if v.refcnt - 1 ≠ 0 then
      some { s with gc := (s.gc.put a { v with refcnt := v.refcnt - 1 }).buffer a }
    else
      let dying := { s with gc := (s.gc.put a { v with refcnt := 0 }).unbuffer a }
      if v.type = .object then (dying.push [.unlink a]).runDestructor table ready a
      else some (dying.push [.drop a 0])

/-- `gc_next`. -/
def following (a : Nat) : List Nat → Option Nat
  | [] => none
  | b :: rest => if b = a then rest.head? else following a rest

/-- Retain the object a walk comes to next and go on with it. -/
def sweepFrom (s : State) (next : Option Nat) (which : Sweep) (invoked : Bool) : Option State :=
  match next with
  | none => some (s.push [.sweep none which invoked])
  | some a => (s.retain a).map fun s => s.push [.sweep (some a) which invoked]

/-- The objects whose destructors a walk runs. -/
def selects (s : State) (a : Nat) : Sweep → Bool
  | .all => true
  | .classes rolledBack => (s.class_entry a).any rolledBack.contains
  | .unreached containers => !containers.contains a

/-- The body of the loop of a walk; the next object is retained before the destructor runs. -/
def visit (table : ClassTable) (ready : Bool) (s : State) (a : Nat) (which : Sweep) (invoked : Bool) : Option State :=
  match s.gc.value a with
  | none => none
  | some v =>
    if a ∉ s.objects then none
    else if s.selects a which then do
      let s ← s.sweepFrom (following a s.objects) which (invoked || s.runs table v a)
      (s.push [.release a]).runDestructor table ready a
    else do
      let s ← s.sweepFrom (following a s.objects) which invoked
      return s.push [.release a]

/-- The nodes of a collection that begins now, and those among them that are garbage. -/
def nodes (s : State) : List Nat :=
  discoverFrom s.gc.clearBuffer.containerChildren 256 0 s.gc.candidates

def garbage (s : State) : List Nat :=
  s.nodes.filter fun a => a ∉ marks s.gc.clearBuffer.containerChildren s.gc.clearBuffer.rc s.nodes

/-- A collection begins where none is under way and there are candidates. -/
def collects (s : State) : Bool := !s.collecting && !s.gc.candidates.isEmpty

/-- `pphp_gc_collect`, up to the release of what the garbage refers to. -/
def collect (s : State) : State :=
  if s.collects then
    { s with
      gc := s.garbage.foldl (Gc.update condemned) s.gc.clearBuffer
      collecting := true
      tasks := s.garbage.map (Task.clear · 0) ++ s.garbage.map Task.release ++ .collected :: s.tasks }
  else s

/-- One step of a task that is not code; it has been taken off the stack. -/
def work (table : ClassTable) (ready : Bool) (s : State) : Task → Option State
  | .code | .definitions => none
  | .release a => s.release table ready a
  | .unlink a =>
    some { s with
      objects := s.objects.erase a
      events := s.events ++ [Event.emptied a]
      tasks := .drop a 0 :: s.tasks }
  | .drop a i =>
    match s.gc.value a with
    | none => none
    | some v =>
      match v.slots[i]? with
      | none => some { s with gc := s.gc.free a }
      | some slot => some (s.push (slot.target.toList.map Task.release ++ [Task.drop a (i + 1)]))
  | .unguard a => s.update (fun v => { v with refcnt := 0 }) a
  | .sweep none which invoked =>
    if which.again && invoked then s.sweepFrom s.objects.head? which false else some s
  | .sweep (some a) which invoked => s.visit table ready a which invoked
  | .collect => some s.collect
  | .clear a i =>
    match s.gc.value a with
    | none => none
    | some v =>
      match v.slots[i]? with
      | none => some s
      | some slot =>
        some ({ s with
          gc := s.gc.put a { v with slots := v.slots.set i .null }
          events := s.events ++ if i = 0 then [Event.emptied a] else [] }.push
          (slot.target.toList.map Task.release ++ [Task.clear a (i + 1)]))
  | .collected => some { s with collecting := false }
  | .destroyArray a =>
    match s.gc.value a with
    | none => none
    | some v =>
      if v.type = .array then some ({ s with gc := s.gc.unbuffer a }.push [.drop a 0]) else none
  | .freeState => some { s with tasks := [], closed := true }

/-- A new value. -/
def make (s : State) (v : HeapValue) : State := { s with gc := { s.gc with heap := s.gc.heap ++ [some v] } }

/-- `pobject_new`: the object gets the default values of its properties and comes first in the list.
-/
def new (s : State) (class_entry : Nat) (slots : List Slot) : Option State := do
  let s ← (slots.filterMap Slot.target).foldlM retain s
  return { s.make (freshValue .object 1 slots) with
    objects := s.size :: s.objects
    class_entry := fun a => if a = s.size then some class_entry else s.class_entry a }

/-- One action of the code on top of the stack. The program ends with `pphp_close`. -/
def act (s : State) : Action → Option State
  | .go _ => none
  | .make type slots => if type = .object then none else some (s.make (freshValue type 1 slots))
  | .new class_entry slots => s.new class_entry slots
  | .constructed a =>
    match s.gc.value a with
    | none => none
    | some v => if v.type = .object then some { s with constructed := s.constructed ++ [a] } else none
  | .retain a => s.retain a
  | .release a => some (s.push [.release a])
  | .write a slots => s.update (fun v => { v with slots := slots }) a
  | .sweep which => if which = .all then none else s.sweepFrom s.objects.head? which false
  | .collect => some (s.push [.collect])
  | .done => if s.tasks.tail = [] then none else some { s with tasks := s.tasks.tail }
  | .close =>
    if s.tasks = [.code] then
      { s with
        closing := some s.size
        tasks := rootArrays.map Task.destroyArray ++ [Task.collect, .definitions, .freeState] }.sweepFrom
          s.objects.head? .all false
    else none

/-- What `pphp_clear_classes` and the release of the modules may do: let go of what they hold, and
collect. -/
def clearDefinitions (s : State) : Action → Option State
  | .release a => some (s.push [.release a])
  | .collect => some (s.push [.collect])
  | .done => some { s with tasks := s.tasks.tail }
  | _ => none

/-- One step: an action of the code on top, or the work of the task there. -/
def step (table : ClassTable) (s : State) (a : Action) : Option State :=
  match s.tasks with
  | [] => none
  | .code :: _ => s.act a
  | .definitions :: _ => s.clearDefinitions a
  | task :: rest =>
    match a with
    | .go ready => { s with tasks := rest }.work table ready task
    | _ => none

/-- A run. -/
def run (table : ClassTable) (s : State) (actions : List Action) : Option State := actions.foldlM (step table) s

end State
end PhpPico.Destruction
