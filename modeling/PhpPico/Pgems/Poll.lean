import PhpPico.Lib.RingBuffer
import PhpPico.Vm.Errors

/-!
# Interrupt events

Interrupts push events into a ring buffer. Between two instructions an execution polls: it pops the events and, for
each, walks the list of objects and calls the callbacks of the GPIO objects at its pin. These are nested executions,
which may create and destroy objects and poll again. Pops and deliveries are recorded.
-/

namespace PhpPico.Poll
open RingBuffer

/-! ## States -/

/-- `hal_event`. -/
structure Event where
  type : UInt8
  pin : UInt8
  argument : UInt32
deriving DecidableEq, Repr

/-- `gpio_data`: the pin and the callback, a value. -/
structure GpioData where
  pin : UInt8
  callback : Option Nat
deriving DecidableEq, Repr

/-- An object; `data` is there for objects of `GPIO` and of classes below it that were constructed. -/
structure PObject where
  id : Nat
  className : List UInt8
  data : Option GpioData
deriving DecidableEq, Repr

/-- The event is of a GPIO pin, and the object has a callback for it. -/
def Event.concerns (event : Event) (object : PObject) : Bool :=
  event.type = 1 ∧ object.data.any fun data => data.pin = event.pin ∧ data.callback.isSome

/-- Where an execution is in `pphp_poll_pgems`: before `hal_event_pop`, or at the object whose callback
runs, or has run, for an event that was popped. -/
inductive Phase where
  | idle
  | popping
  | delivering (event : Nat) (object : Nat)
deriving DecidableEq, Repr

/-- The event that is being delivered. -/
def Phase.event : Phase → Option Nat
  | .delivering event _ => some event
  | _ => none

/-- A `pphp_state`. A nested one has a copy of the pointer to the first object, the root the list. -/
structure Execution where
  startedBy : StartedBy
  gcObjects : Option (Option Nat)
  phase : Phase
  error : Option (List UInt8)
deriving DecidableEq, Repr

/-- An event that was popped, with the objects that had a callback for it. -/
structure Popped where
  event : Event
  targets : List Nat
deriving DecidableEq, Repr

/-- The states, innermost first, the root last, and the objects, the newest first. The record begins
with `accepted`. -/
structure States where
  queue : Ring Event 16
  objects : List PObject
  /-- How many objects were made. -/
  made : Nat
  executions : List Execution
  /-- The events that were accepted. -/
  accepted : List Event
  popped : List Popped
  /-- The numbers of events and the objects they were delivered to. -/
  deliveries : List (Nat × Nat)
  /-- Errors of callbacks that were overwritten, or ignored with those of a destructor. -/
  lost : List (List UInt8)
  /-- An object was read that was destroyed. -/
  readFreed : Bool

/-! ## The list of objects -/

/-- The list from an object on. -/
def fromObject (objects : List PObject) (id : Nat) : List PObject := objects.dropWhile fun o => o.id ≠ id

/-- The objects behind one. -/
def behind (objects : List PObject) (id : Nat) : List PObject := (fromObject objects id).tail

def Alive (objects : List PObject) (id : Nat) : Prop := id ∈ objects.map PObject.id

instance (objects : List PObject) (id : Nat) : Decidable (Alive objects id) :=
  inferInstanceAs (Decidable (id ∈ objects.map PObject.id))

namespace States

def opened : States where
  queue := ⟨fun _ => ⟨0, 0, 0⟩, 0, 0⟩
  objects := []
  made := 0
  executions := [⟨.invoke, none, .idle, none⟩]
  accepted := []
  popped := []
  deliveries := []
  lost := []
  readFreed := false

/-- `gc_objects` of a state. -/
def firstObject (s : States) (e : Execution) : Option Nat := e.gcObjects.getD (s.objects.head?.map PObject.id)

/-- An event is taken from the queue. The objects that have a callback for it are recorded. -/
def popEvent (s : States) (event : Event) (queue : Ring Event 16) : States :=
  { s with
    queue := queue
    popped := s.popped ++ [⟨event, (s.objects.filter event.concerns).map PObject.id⟩] }

/-- The loop over the objects: it calls the callback of the first one that matches, if there is memory
for the call, or goes on to the next event. -/
def walk (s : States) (e : Execution) (below : List Execution) (index : Nat) (event : Event) (objects : List PObject)
    (starved : List Nat) : States :=
  match objects.find? fun o => o.className = ascii "GPIO" ∧ event.concerns o ∧ o.id ∉ starved with
  | none => { s with executions := { e with phase := .popping } :: below }
  | some o =>
    let polling := { e with phase := .delivering index o.id }
    { s with
      executions := ⟨.invoke, some (s.firstObject e), .idle, none⟩ :: polling :: below
      deliveries := s.deliveries ++ [(index, o.id)] }

end States

/-- What may happen: an interrupt, a step of PHP code, the start and the end of an execution, and the
steps of a poll. `starved` are objects there is no memory to call. -/
inductive Action where
  | push (event : Event)
  | create (className : List UInt8) (data : Option GpioData)
  | destroy (id : Nat)
  | change (id : Nat) (data : GpioData)
  | enter (startedBy : StartedBy)
  | leave (error : Option (List UInt8))
  | report
  | poll
  | pop (starved : List Nat)
  | advance (starved : List Nat)
deriving DecidableEq, Repr

/-- PHP code runs, if only the destructor of what a callback returned. -/
def Phase.quiet : Phase → Bool
  | .idle | .delivering _ _ => true
  | .popping => false

namespace States

/-- An execution ends, and the one around it takes over its error. That of a destructor is ignored. -/
def take (s : States) (e around : Execution) (below : List Execution) (error : Option (List UInt8)) : States :=
  match e.startedBy, error with
  | .destructor, _ => { s with executions := around :: below, lost := s.lost ++ e.error.toList }
  | _, none => { s with executions := around :: below }
  | _, some text =>
    { s with executions := { around with error := some text } :: below, lost := s.lost ++ around.error.toList }

def step (s : States) : Action → Option States
  | .push event =>
    some (match s.queue.push event with
      | none => s
      | some queue => { s with queue := queue, accepted := s.accepted ++ [event] })
  | .create className data =>
    match s.executions with
    | e :: _ =>
      if e.phase.quiet then some { s with objects := ⟨s.made, className, data⟩ :: s.objects, made := s.made + 1 }
      else none
    | [] => none
  | .destroy id =>
    match s.executions with
    | e :: _ => if e.phase.quiet then some { s with objects := s.objects.filter fun o => o.id ≠ id } else none
    | [] => none
  | .change id data =>
    match s.executions with
    | e :: _ =>
      if e.phase.quiet then
        some { s with objects := s.objects.map fun o => if o.id = id then { o with data := some data } else o }
      else none
    | [] => none
  | .enter startedBy =>
    match s.executions with
    | e :: below =>
      if e.phase = .idle ∨ e.phase.quiet ∧ startedBy = .destructor then
        let copied := match startedBy with
          | .invoke => s.firstObject e
          | .includeFile | .destructor => s.objects.head?.map PObject.id
        some { s with executions := ⟨startedBy, some copied, .idle, none⟩ :: e :: below }
      else none
    | [] => none
  | .leave error =>
    match s.executions with
    | e :: around :: below =>
      if e.phase = .idle ∧ (e.error = none ∨ e.error = error) then some (s.take e around below error)
      else none
    | _ => none
  | .report =>
    match s.executions with
    | [e] => if e.phase = .idle then some { s with executions := [{ e with error := none }] } else none
    | _ => none
  | .poll =>
    match s.executions with
    | e :: below =>
      if e.phase = .idle ∧ e.error = none then some { s with executions := { e with phase := .popping } :: below }
      else none
    | [] => none
  | .pop starved =>
    match s.executions with
    | e :: below =>
      if e.phase = .popping then
        match s.queue.pop with
        | none => some { s with executions := { e with phase := .idle } :: below }
        | some (event, queue) =>
          let s := s.popEvent event queue
          if event.type ≠ 1 then some s
          else
            match s.firstObject e with
            | none => some s
            | some first =>
              if Alive s.objects first then
                some (s.walk e below (s.popped.length - 1) event (fromObject s.objects first) starved)
              else some { s with readFreed := true }
      else none
    | [] => none
  | .advance starved =>
    match s.executions with
    | ⟨startedBy, gcObjects, .delivering index object, error⟩ :: below =>
      match s.popped[index]? with
      | none => none
      | some popped =>
        if Alive s.objects object then
          some (s.walk ⟨startedBy, gcObjects, .delivering index object, error⟩ below index popped.event
            (behind s.objects object) starved)
        else some { s with readFreed := true }
    | _ => none

end States

/-! ## Delivery -/

namespace States

/-- The objects that had a callback when an event was popped. -/
def targets (s : States) (i : Nat) : List Nat := (s.popped[i]?.map Popped.targets).getD []

/-- The events that are being delivered. -/
def inProgress (s : States) : List Nat := s.executions.filterMap fun e => e.phase.event

/-- The deliveries to objects that had a callback when the event was popped. -/
def due (s : States) : List (Nat × Nat) := s.deliveries.filter fun d => d.2 ∈ s.targets d.1

/-- **Delivery**: no accepted event is lost or changes its place; an event the loop has left was delivered once to
each of its objects, in order; no error is lost; and no destroyed object was read. -/
structure Delivers (s : States) : Prop where
  fifo : s.popped.map Popped.event ++ s.queue.contents = s.accepted
  once : ∀ i, i ∉ s.inProgress → ∀ x ∈ s.targets i, s.deliveries.count (i, x) = 1
  atMostOnce : s.deliveries.Nodup
  inOrder : s.due.Pairwise fun d d' => d.1 ≤ d'.1
  reported : s.lost = []
  safe : s.readFreed = false

/-- The events in progress with the objects they are still to be delivered to. -/
def waiting (s : States) : List (Nat × Nat) :=
  s.inProgress.flatMap fun i => ((s.targets i).filter fun x => (i, x) ∉ s.deliveries).map fun x => (i, x)

/-- An object that has a callback for an event is found by an execution that polls: it comes at or behind
the first one the execution knows, is of `GPIO` itself, and can be called. -/
def finds (s : States) (e : Execution) (starved : List Nat) (o : PObject) : Bool :=
  (s.firstObject e).any (fun first => o ∈ fromObject s.objects first) ∧ o.className = ascii "GPIO" ∧ o.id ∉ starved

/-- **A step leaves the loops alone**: it destroys no object a loop stands at or is still to come to, keeps the pin
and the callback of the latter, ends with an error only where none is pending, and pops an event for some object only
when no older one waits and the state finds all its objects. -/
def clean (s : States) : Action → Bool
  | .destroy id =>
    id ∉ s.waiting.map Prod.snd ∧ s.executions.all fun e =>
      match e.phase with
      | .delivering _ object => object ≠ id
      | _ => true
  | .change id data =>
    s.waiting.all fun d => d.2 = id → (s.popped[d.1]?).all fun p => data.pin = p.event.pin ∧ data.callback.isSome
  | .leave error =>
    match s.executions with
    | e :: around :: _ =>
      match e.startedBy with
      | .destructor => e.error = none
      | .invoke | .includeFile => error = none ∨ around.error = none
    | _ => true
  | .pop starved =>
    match s.executions, s.queue.pop with
    | e :: _, some (event, _) =>
      event.type = 1 → (s.firstObject e).all (fun first => Alive s.objects first) ∧
        ∀ o ∈ s.objects, event.concerns o → s.waiting = [] ∧ s.finds e starved o
    | _, _ => true
  | .advance starved =>
    match s.executions with
    | e :: _ => s.waiting.all fun d => e.phase.event = some d.1 → d.2 ∉ starved
    | [] => true
  | _ => true

/-- Every step of a run leaves the loops alone. -/
def cleanRun (s : States) : List Action → Bool
  | [] => true
  | a :: rest => s.clean a && ((s.step a).all fun s' => s'.cleanRun rest)

end States

end PhpPico.Poll
