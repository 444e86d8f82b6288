import Mathlib.Data.List.Forall2
import Mathlib.Data.Option.Basic
import Mathlib.Logic.Function.Basic
import PhpPico.Class.Members
import PhpPico.Vm.Errors

/-!
# Definitions of classes

A class is defined by instructions from `OP_DEF_CLASS` to `OP_DEF_END`, and any code runs between them. The class
being built is one pointer of `pphp_state`, `building_class`, copied into the states of nested executions. The
abstract machine gives each frame a draft of its own and all executions one table.
-/

namespace PhpPico.Members.Definition

/-! ## A declaration in steps -/

/-- `OP_DEF_CLASS` finds the parent and begins a class. -/
def openClass (classes : Classes) (d : ClassDeclaration) : Option PClass :=
  (declaredParent classes d).bind fun parent =>
    pclassNew classes d.name parent d.isAbstract d.isFinal d.isReadonly d.isInterface

/-- The class that a declaration makes, up to `OP_DEF_END`. -/
def assemble (classes : Classes) (d : ClassDeclaration) : Option PClass :=
  (openClass classes d).bind fun c => d.members.foldlM (defineMember classes) c

/-- A declaration of which only the header has been read. -/
def header (d : ClassDeclaration) : ClassDeclaration := { d with members := [] }

/-- A declaration that goes on with a member. -/
def adding (d : ClassDeclaration) (member : MemberDeclaration) : ClassDeclaration :=
  { d with members := d.members ++ [member] }

theorem assemble_header (classes : Classes) (d : ClassDeclaration) :
    assemble classes (header d) = openClass classes d := by
  rw [assemble, show openClass classes (header d) = openClass classes d from rfl]
  exact Option.bind_fun_some _

theorem assemble_adding (classes : Classes) (d : ClassDeclaration) (member : MemberDeclaration) :
    assemble classes (adding d member) = (assemble classes d).bind fun c => defineMember classes c member := by
  unfold assemble
  rw [show openClass classes (adding d member) = openClass classes d from rfl, Option.bind_assoc]
  congr 1
  funext c
  simp [adding, List.foldlM_append]

theorem declare_eq (typesAllow : PMethod → PMethod → Bool) (classes : Classes) (d : ClassDeclaration) :
    declare typesAllow classes d = (assemble classes d).bind fun c =>
      if isComplete typesAllow classes c ∧ findClass classes c.name = none then some (c :: classes) else none := by
  simp only [assemble, openClass, Option.bind_assoc]
  rfl

/-- What a build and its session settle. Whether a method may stand for another can change when classes are
registered: `typesAllow` is not known to be incompatible, `typesMatch` known to be compatible. -/
structure Setting where
  typecheck : Bool
  repl : Bool
  typesAllow : Classes → PMethod → PMethod → Bool
  typesMatch : Classes → PMethod → PMethod → Bool

/-- `validate_class_signatures` finds nothing to refuse. -/
def allComplete (types : Classes → PMethod → PMethod → Bool) (classes : Classes) : Bool :=
  classes.all (isComplete (types classes) classes)

/-- `rollback_definitions` keeps the classes there were at a checkpoint. -/
def rollback (classes : Classes) (checkpoint : Nat) : Classes := classes.drop (classes.length - checkpoint)

theorem rollback_of_suffix {before classes : Classes} (suffix : before <:+ classes) :
    rollback classes before.length = before :=
  (List.suffix_iff_eq_drop.mp suffix).symm

/-- Where an execution is: the root waits for its next input, or is done. -/
inductive Phase where
  | ready
  | running
  | stopped
  | finished
deriving DecidableEq, Repr

/-- What happens in the innermost execution. `memory` is whether there is enough, `accepted` whether
the value of a property or constant is; `caught` is by the frame so many calls out. -/
inductive Action where
  | start
  | call
  | leave
  | defClass (d : ClassDeclaration) (memory : Bool)
  | define (member : MemberDeclaration) (accepted : Bool)
  | defineConstant (accepted : Bool)
  | defEnd (memory : Bool)
  | raise
  | caught (depth : Nat)
  | enter (startedBy : StartedBy)
  | stop
  | merge
  | finish
deriving DecidableEq, Repr

def isProperty : MemberDeclaration → Bool
  | .property .. => true
  | _ => false

/-! ## The code -/

/-- A `pphp_state`. Of a frame, `frames` has whether it is between `OP_DEF_CLASS` and `OP_DEF_END`; the
innermost is first. The checkpoint is that of `checkpoint_definitions`. -/
structure Execution where
  startedBy : Option StartedBy
  frames : List Bool
  building : Option Nat
  classes : Classes
  checkpoint : Nat
  error : Bool
  phase : Phase
deriving DecidableEq, Repr

namespace Execution

def Runs (e : Execution) : Prop := e.phase = .running ∧ e.error = false
instance (e : Execution) : Decidable e.Runs := inferInstanceAs (Decidable (_ ∧ _))

def fail (e : Execution) : Execution := { e with error := true }

/-- The frame that runs comes into the body of a class, or leaves it. -/
def inBody (e : Execution) (body : Bool) : Execution := { e with frames := body :: e.frames.tail }

/-- What a nested execution begins with, when it copies this state. -/
def child (e : Execution) (startedBy : StartedBy) : Execution :=
  ⟨some startedBy, [false], e.building, e.classes, e.classes.length, false, .running⟩

/-- The table is set, if this is the root. -/
def settle (classes : Classes) (e : Execution) : Execution :=
  if e.startedBy = none then { e with classes := classes } else e

/-- The execution ends with an error: one that is pending, or the signatures are not settled. -/
def fails (b : Setting) (e : Execution) : Bool :=
  e.error || (e.startedBy == none || e.startedBy == some .includeFile) && !allComplete b.typesMatch e.classes

/-- The end of `pphp_vm_execute`: an error destroys the class under construction. -/
def ended (b : Setting) (e : Execution) : Execution :=
  { e with frames := [], building := if e.fails b then none else e.building, error := e.fails b, phase := .stopped }

/-- What is left of the root. `pphp_clear_user_classes` destroys a class under construction after a program;
what it removes of the table is left out, for nothing runs after it. -/
def closed (b : Setting) (e : Execution) (classes : Classes) : Execution :=
  { e with
    classes := classes, building := if b.repl then e.building else none, phase := if b.repl then .ready else .finished }

/-- The table an execution leaves. -/
def left (e : Execution) : Classes :=
  if e.startedBy ≠ some .invoke ∧ e.startedBy ≠ some .destructor ∧ e.error then rollback e.classes e.checkpoint
  else e.classes

/-- An error of a nested execution is one of the execution around it; a destructor's is not. -/
def take (e nested : Execution) : Execution :=
  { e with error := e.error || nested.startedBy != some .destructor && nested.error }

end Execution

/-- The classes under construction, by their addresses. -/
abbrev Built := Nat → Option PClass

/-- `pclass_destroy`. -/
def Built.destroy (built : Built) (building : Option Nat) : Built :=
  building.elim built fun a => Function.update built a none

/-- The executions, the innermost first and the root last. -/
structure Interpreter where
  executions : List Execution
  built : Built
  made : Nat

namespace Interpreter

def opened (runtime : Classes) : Interpreter := ⟨[⟨none, [], none, runtime, 0, false, .ready⟩], fun _ => none, 0⟩

/-- The state that owns the classes and objects. -/
def root (executions : List Execution) : Option Execution := executions.find? fun e => e.startedBy = none

section Instructions
variable (s : Interpreter) (e : Execution) (below : List Execution)

/-- `OP_DEF_CLASS`. -/
def defClass (d : ClassDeclaration) (memory : Bool) : Interpreter :=
  if e.building ≠ none then { s with executions := e.fail :: below }
  else
    match (openClass e.classes d).filter fun _ => memory with
    | none => { s with executions := e.fail :: below }
    | some c => ⟨{ e.inBody true with building := some s.made } :: below,
        Function.update s.built s.made (some c), s.made + 1⟩

/-- `OP_DEF_PROP`, `OP_DEF_INTERFACE` and `OP_DEF_METHOD`, on the class at an address. Only the first
destroys the class, in a build with type checks. -/
def define (b : Setting) (a : Nat) (c : PClass) (member : MemberDeclaration) (accepted : Bool) : Interpreter :=
  match (defineMember e.classes c member).filter fun _ => accepted with
  | some c' => { s with built := Function.update s.built a (some c') }
  | none =>
    if b.typecheck ∧ isProperty member then
      { s with executions := { e.fail with building := none } :: below, built := s.built.destroy (some a) }
    else { s with executions := e.fail :: below }

/-- An instruction in the body of a class: without a class it fails, and a class that has been freed
cannot be used. -/
def onClass (use : Nat → PClass → Interpreter) : Option Interpreter :=
  match e.building with
  | none => some { s with executions := e.fail :: below }
  | some a => (s.built a).map (use a)

/-- The class under construction has not been freed. -/
def live : Bool := e.building.all fun a => (s.built a).isSome

/-- A class can be registered. -/
def registers (b : Setting) (classes : Classes) (c : PClass) (memory : Bool) : Bool :=
  isComplete (b.typesAllow classes) classes c && (findClass classes c.name).isNone && memory

/-- `OP_DEF_END`: the class is registered, and then all classes are checked. -/
def defEnd (b : Setting) (a : Nat) (c : PClass) (memory : Bool) : Interpreter :=
  if registers b e.classes c memory then
    { s with
      executions := { e.inBody false with
        building := none, classes := c :: e.classes, error := !allComplete b.typesAllow (c :: e.classes) } :: below
      built := s.built.destroy (some a) }
  else { s with executions := e.fail :: below }

end Instructions

/-- No step is taken where a class that has been freed is used. -/
def step (b : Setting) (s : Interpreter) (action : Action) : Option Interpreter :=
  match s.executions with
  | [] => none
  | e :: below =>
    match action with
    | .start =>
      if e.startedBy = none ∧ e.phase = .ready then
        some { s with executions :=
          { e with frames := [false], checkpoint := e.classes.length, error := false, phase := .running } :: below }
      else none
    | .call => if e.Runs then some { s with executions := { e with frames := false :: e.frames } :: below } else none
    | .leave =>
      if e.Runs ∧ e.frames.head? = some false then
        some { s with executions := { e with frames := e.frames.tail } :: below }
      else none
    | .defClass d memory =>
      if e.Runs ∧ e.frames.head? = some false then some (s.defClass e below d memory) else none
    | .define member accepted =>
      if e.Runs ∧ e.frames.head? = some true then
        s.onClass e below fun a c => s.define e below b a c member accepted
      else none
    | .defineConstant accepted =>
      if e.Runs ∧ e.frames.head? = some true then
        s.onClass e below fun _ _ => if accepted then s else { s with executions := e.fail :: below }
      else none
    | .defEnd memory =>
      if e.Runs ∧ e.frames.head? = some true then
        s.onClass e below fun a c => s.defEnd e below b a c memory
      else none
    | .raise => if e.Runs then some { s with executions := e.fail :: below } else none
    | .caught depth =>
      if e.phase = .running ∧ e.error then
        match e.frames.drop depth with
        | [] => none
        | _ :: frames => some { s with executions := { e with frames := false :: frames, error := false } :: below }
      else none
    | .enter startedBy =>
      (if startedBy = .invoke then some e else root s.executions).map fun copied =>
        { s with executions := copied.child startedBy :: s.executions }
    | .stop =>
      if e.phase = .running ∧ (e.fails b → s.live e) then
        some { s with
          executions := e.ended b :: below, built := s.built.destroy (e.building.filter fun _ => e.fails b) }
      else none
    | .merge =>
      -- `pphp_exec_include` takes the table over before a rollback runs destructors
      if e.startedBy = some .includeFile ∧ e.phase = .stopped then
        some { s with executions := e :: below.map (Execution.settle e.classes) }
      else none
    | .finish =>
      if e.phase = .stopped then
        match below with
        | [] =>
          if b.repl ∨ s.live e then
            some { s with
              executions := [e.closed b e.left], built := s.built.destroy (e.building.filter fun _ => !b.repl) }
          else none
        | around :: rest =>
          some { s with executions := (around.take e :: rest).map (Execution.settle e.left) }
      else none

end Interpreter

/-! ## Frames with drafts of their own -/

/-- An execution whose frames may have a class in the making. A draft is a declaration as far as it has
been read. `before` is the table it began with. -/
structure AtomicExecution where
  startedBy : Option StartedBy
  frames : List (Option ClassDeclaration)
  before : Classes
  error : Bool
  phase : Phase
deriving DecidableEq, Repr

namespace AtomicExecution

def Runs (m : AtomicExecution) : Prop := m.phase = .running ∧ m.error = false
instance (m : AtomicExecution) : Decidable m.Runs := inferInstanceAs (Decidable (_ ∧ _))

def fail (m : AtomicExecution) : AtomicExecution := { m with error := true }

def setDraft (m : AtomicExecution) (draft : Option ClassDeclaration) : AtomicExecution :=
  { m with frames := draft :: m.frames.tail }

def fails (b : Setting) (m : AtomicExecution) (classes : Classes) : Bool :=
  m.error || (m.startedBy == none || m.startedBy == some .includeFile) && !allComplete b.typesMatch classes

/-- The table an execution leaves: a program or an included file that fails takes its classes back. -/
def left (m : AtomicExecution) (classes : Classes) : Classes :=
  if m.startedBy ≠ some .invoke ∧ m.startedBy ≠ some .destructor ∧ m.error then m.before else classes

def take (m nested : AtomicExecution) : AtomicExecution :=
  { m with error := m.error || nested.startedBy != some .destructor && nested.error }

end AtomicExecution

/-- The executions and the one table of classes. -/
structure Atomic where
  executions : List AtomicExecution
  classes : Classes
deriving DecidableEq, Repr

namespace Atomic

def opened (runtime : Classes) : Atomic := ⟨[⟨none, [], [], false, .ready⟩], runtime⟩

section Instructions
variable (i : Atomic) (m : AtomicExecution) (around : List AtomicExecution)

/-- A draft is begun. -/
def defClass (d : ClassDeclaration) (memory : Bool) : Atomic :=
  if (openClass i.classes d).isSome ∧ memory then { i with executions := m.setDraft (some (header d)) :: around }
  else { i with executions := m.fail :: around }

/-- A draft goes on. -/
def define (d : ClassDeclaration) (member : MemberDeclaration) (accepted : Bool) : Atomic :=
  if (assemble i.classes (adding d member)).isSome ∧ accepted then
    { i with executions := m.setDraft (some (adding d member)) :: around }
  else { i with executions := m.fail :: around }

/-- A draft is declared, or not at all. -/
def defEnd (b : Setting) (d : ClassDeclaration) (memory : Bool) : Atomic :=
  match (declare (b.typesAllow i.classes) i.classes d).filter fun cs => memory && allComplete b.typesAllow cs with
  | some classes => ⟨m.setDraft none :: around, classes⟩
  | none => { i with executions := m.fail :: around }

end Instructions

/-- Where an error is caught or an execution stops, the drafts of the frames that end are dropped. -/
def step (b : Setting) (i : Atomic) (action : Action) : Option Atomic :=
  match i.executions with
  | [] => none
  | m :: around =>
    match action with
    | .start =>
      if m.startedBy = none ∧ m.phase = .ready then
        some { i with executions :=
          { m with frames := [none], before := i.classes, error := false, phase := .running } :: around }
      else none
    | .call => if m.Runs then some { i with executions := { m with frames := none :: m.frames } :: around } else none
    | .leave =>
      if m.Runs ∧ m.frames.head? = some none then
        some { i with executions := { m with frames := m.frames.tail } :: around }
      else none
    | .defClass d memory =>
      if m.Runs ∧ m.frames.head? = some none then some (i.defClass m around d memory) else none
    | .define member accepted =>
      if m.Runs then m.frames.head?.join.map fun d => i.define m around d member accepted else none
    | .defineConstant accepted =>
      if m.Runs then
        m.frames.head?.join.map fun _ => if accepted then i else { i with executions := m.fail :: around }
      else none
    | .defEnd memory =>
      if m.Runs then m.frames.head?.join.map fun d => i.defEnd m around b d memory else none
    | .raise => if m.Runs then some { i with executions := m.fail :: around } else none
    | .caught depth =>
      if m.phase = .running ∧ m.error then
        match m.frames.drop depth with
        | [] => none
        | _ :: frames => some { i with executions := { m with frames := none :: frames, error := false } :: around }
      else none
    | .enter startedBy =>
      if startedBy = .invoke ∨ i.executions.any fun r => r.startedBy = none then
        some { i with executions := ⟨some startedBy, [none], i.classes, false, .running⟩ :: i.executions }
      else none
    | .stop =>
      if m.phase = .running then
        some { i with executions := { m with frames := [], error := m.fails b i.classes, phase := .stopped } :: around }
      else none
    | .merge => if m.startedBy = some .includeFile ∧ m.phase = .stopped then some i else none
    | .finish =>
      if m.phase = .stopped then
        match around with
        | [] => some ⟨[{ m with phase := if b.repl then .ready else .finished }], m.left i.classes⟩
        | outer :: rest => some ⟨outer.take m :: rest, m.left i.classes⟩
      else none

end Atomic

end PhpPico.Members.Definition
