import Mathlib.Data.List.Forall2
import PhpPico.Vm.Errors

/-!
# Pending errors

A pending error is three fields of `pphp_state`: the text, the line, and the class where the error brings one. Nested
executions begin with a copy of a state, and what they leave is copied back. The abstract machine gives each execution
an error of its own; the code does as it says exactly where no field of an older error is left over when one is
raised.
-/

namespace PhpPico.Pending

/-! ## The fields -/

/-- `error`, `error_line` and `raised_class` of a state. -/
structure Fields where
  error : List UInt8
  errorLine : Nat
  raisedClass : List UInt8
deriving DecidableEq, Repr

/-- An exception that `convert_runtime_error` throws. -/
structure Thrown where
  className : List UInt8
  message : List UInt8
  line : Nat
deriving DecidableEq, Repr

/-- The exception for an error: the shared `oom_exception` where the class is its own, otherwise a new one, for which
there may be no memory. -/
def exceptionFor (className text : List UInt8) (errorLine : Nat) (memory : Bool) (oom : Option Thrown) :
    Option Thrown :=
  if className = ascii "OutOfMemoryError" ∧ oom ≠ none then oom
  else if memory then some ⟨className, text, errorLine⟩
  else none

namespace Fields

/-- What `pphp_exec_source_mode` sets. -/
def cleared : Fields := ⟨[], 0, []⟩

/-- `pphp_runtime_error`. -/
def runtimeError (f : Fields) (line : Nat) (text : List UInt8) : Fields :=
  if f.error ≠ [] then f else { f with error := clip 256 text, errorLine := line }

/-- `raise_declared_type_error`. -/
def raiseDeclaredTypeError (f : Fields) (line : Nat) (text : List UInt8) : Fields :=
  if f.error ≠ [] then f else ⟨clip 256 text, line, ascii "TypeError"⟩

/-- `pphp_raise`. -/
def pphpRaise (f : Fields) (className text : List UInt8) : Fields :=
  { f with error := clip 256 text, raisedClass := clip 48 className }

/-- `convert_runtime_error`, with an error pending, in a frame at `line`. Without an exception the text
is put back. -/
def convertRuntimeError (f : Fields) (line : Nat) (memory : Bool) (oom : Option Thrown) : Fields × Option Thrown :=
  let errorLine := if f.errorLine = 0 then line else f.errorLine
  match exceptionFor (classForError f.raisedClass f.error) f.error errorLine memory oom with
  | some e => (⟨[], errorLine, []⟩, some e)
  | none => (⟨f.error, errorLine, []⟩, none)

/-- What a nested execution begins with. -/
def child (f : Fields) : Fields := { f with error := [], errorLine := 0 }

/-- The text and the line of another state are copied. -/
def take (f g : Fields) : Fields := { f with error := g.error, errorLine := g.errorLine }

end Fields

/-- What happens in the execution that runs, as far as errors go; `redeclares` is an included file with
a function that is already defined. -/
inductive Action where
  | start
  | runtimeError (line : Nat) (text : List UInt8)
  | typeError (line : Nat) (text : List UInt8)
  | raise (className text : List UInt8)
  | convert (line : Nat) (memory : Bool) (oom : Option Thrown)
  | enter (startedBy : StartedBy)
  | redeclares (functionName : List UInt8)
  | finish
deriving DecidableEq, Repr

/-- The text of `validate_repl_functions`. -/
def alreadyDefined (functionName : List UInt8) : List UInt8 :=
  ascii "function " ++ printed functionName ++ ascii " is already defined"

/-! ## The code -/

/-- A nested execution. For a destructor, `saved` is what `pobject_run_destructor` puts aside. -/
structure Level where
  startedBy : StartedBy
  saved : Fields
  fields : Fields
deriving DecidableEq, Repr

/-- The states: the root, which owns the objects, and the nested ones, innermost first. -/
structure States where
  root : Fields
  nested : List Level
  thrown : List Thrown
deriving DecidableEq, Repr

namespace States

def opened : States := ⟨.cleared, [], []⟩

/-- The fields of the state that runs. -/
def running (s : States) : Fields :=
  match s.nested with
  | [] => s.root
  | l :: _ => l.fields

def setRunning (s : States) (f : Fields) : States :=
  match s.nested with
  | [] => { s with root := f }
  | l :: below => { s with nested := { l with fields := f } :: below }

/-- `pphp_vm_invoke` copies the state that runs, `pobject_run_destructor` has the root do so, and
`pphp_exec_include` copies the root. -/
def enter (s : States) (startedBy : StartedBy) : States :=
  let copied := match startedBy with
    | .invoke => s.running
    | .includeFile | .destructor => s.root
  { s with nested := ⟨startedBy, s.root, copied.child⟩ :: s.nested }

/-- The end of a nested execution. One that failed has its text and line copied; a destructor has those
of the root put back. -/
def finish (s : States) : Option States :=
  match s.nested with
  | [] => none
  | l :: below =>
    let around := { s with nested := below }
    match l.startedBy with
    | .destructor => some { around with root := s.root.take l.saved }
    | .invoke | .includeFile =>
      some (if l.fields.error = [] then around else around.setRunning (around.running.take l.fields))

def step (s : States) : Action → Option States
  | .start => if s.nested = [] then some { s with root := .cleared } else none
  | .runtimeError line text => some (s.setRunning (s.running.runtimeError line text))
  | .typeError line text => some (s.setRunning (s.running.raiseDeclaredTypeError line text))
  | .raise className text => some (s.setRunning (s.running.pphpRaise className text))
  | .convert line memory oom =>
    if s.running.error = [] then none
    else
      let converted := s.running.convertRuntimeError line memory oom
      some { s.setRunning converted.1 with thrown := s.thrown ++ converted.2.toList }
  | .enter startedBy => some (s.enter startedBy)
  | .redeclares functionName =>
    -- `validate_repl_functions` reports to the root, whose text and line are copied then
    let reported := { s with root := s.root.runtimeError 0 (alreadyDefined functionName) }
    some (reported.setRunning (reported.running.take reported.root))
  | .finish => s.finish

end States

/-! ## Executions with errors of their own -/

/-- An error. Line 0 stands for the line of the frame, no class for the one the text says. -/
structure Raised where
  text : List UInt8
  line : Nat
  className : List UInt8
deriving DecidableEq, Repr

/-- An error with a text. -/
def Raised.make (text : List UInt8) (line : Nat) (className : List UInt8) : Option Raised :=
  if text = [] then none else some ⟨text, line, className⟩

/-- Each execution has an error, or none. -/
structure Isolated where
  root : Option Raised
  nested : List (StartedBy × Option Raised)
  thrown : List Thrown
deriving DecidableEq, Repr

namespace Isolated

def opened : Isolated := ⟨none, [], []⟩

def running (i : Isolated) : Option Raised :=
  match i.nested with
  | [] => i.root
  | l :: _ => l.2

def setRunning (i : Isolated) (r : Option Raised) : Isolated :=
  match i.nested with
  | [] => { i with root := r }
  | l :: below => { i with nested := (l.1, r) :: below }

/-- The end of a nested execution. The error of a destructor is ignored; another one becomes that of the execution
around it, if that has none. -/
def finish (i : Isolated) : Option Isolated :=
  match i.nested with
  | [] => none
  | l :: below =>
    let around := { i with nested := below }
    match l.1 with
    | .destructor => some around
    | .invoke | .includeFile =>
      some (around.setRunning (around.running.or (l.2.map fun r => { r with className := [] })))

/-- An error stays until it is converted. Only `pphp_raise` replaces the error of its own execution, at
the same line. -/
def step (i : Isolated) : Action → Option Isolated
  | .start => if i.nested = [] then some { i with root := none } else none
  | .runtimeError line text => some (i.setRunning (i.running.or (Raised.make (clip 256 text) line [])))
  | .typeError line text =>
    some (i.setRunning (i.running.or (Raised.make (clip 256 text) line (ascii "TypeError"))))
  | .raise className text =>
    some (i.setRunning (Raised.make (clip 256 text) ((i.running.map Raised.line).getD 0) (clip 48 className)))
  | .convert line memory oom =>
    i.running.map fun r =>
      let errorLine := if r.line = 0 then line else r.line
      match exceptionFor (classForError r.className r.text) r.text errorLine memory oom with
      | some e => { i.setRunning none with thrown := i.thrown ++ [e] }
      | none => i.setRunning (some ⟨r.text, errorLine, []⟩)
  | .enter startedBy => some { i with nested := (startedBy, none) :: i.nested }
  | .redeclares functionName =>
    some (i.setRunning (i.running.or (Raised.make (clip 256 (alreadyDefined functionName)) 0 [])))
  | .finish => i.finish

end Isolated

/-! ## Agreement -/

/-- The fields hold an error, with its class and line. -/
def Fields.Holds (f : Fields) : Option Raised → Prop
  | none => f.error = []
  | some r => r.text ≠ [] ∧ f = ⟨r.text, r.line, r.className⟩

/-- Every execution has the error it has by itself, and the same exceptions were thrown. -/
structure Agrees (s : States) (i : Isolated) : Prop where
  root : s.root.Holds i.root
  nested : List.Forall₂ (fun l m => l.startedBy = m.1 ∧ l.fields.Holds m.2) s.nested i.nested
  thrown : s.thrown = i.thrown

/-- From these states on, a run keeps to what executions do that have errors of their own. -/
def StaysIsolated (s : States) (i : Isolated) : List Action → Prop
  | [] => Agrees s i
  | a :: rest => Agrees s i ∧ ∀ s', s.step a = some s' → ∃ i', i.step a = some i' ∧ StaysIsolated s' i' rest

/-- No class waits for an error that brings none. -/
def Fields.NoClass (f : Fields) : Prop := f.error = [] → f.raisedClass = []

/-- The fields have the text and the line of an error that another state had. -/
def Fields.Shows (f : Fields) (text : List UInt8) (line : Nat) : Prop := f.error = text ∧ f.errorLine = line

/-- **Nothing is left over** of an older error where one is raised: no class where the new one brings none, no line
where it brings none. What a failed execution leaves meets no other error, nor does a redeclared function reported to
a root that waits, unless it is the same. -/
def States.Clean (s : States) : Action → Prop
  | .runtimeError _ text => clip 256 text ≠ [] → s.running.NoClass
  | .raise _ text => clip 256 text ≠ [] → s.running.error = [] → s.running.errorLine = 0
  | .redeclares functionName =>
    s.running.NoClass ∧ (s.nested ≠ [] →
        if s.running.error = [] then s.root.Shows (clip 256 (alreadyDefined functionName)) 0
        else s.root.Shows s.running.error s.running.errorLine)
  | .finish =>
    ∀ l below, s.nested = l :: below → l.startedBy ≠ .destructor → l.fields.error ≠ [] →
      let around := { s with nested := below }.running
      around.NoClass ∧ (around.error ≠ [] → around.Shows l.fields.error l.fields.errorLine)
  | _ => True

/-- Every step of a run is clean. -/
def States.CleanRun (s : States) : List Action → Prop
  | [] => True
  | a :: rest => s.Clean a ∧ ∀ s', s.step a = some s' → s'.CleanRun rest

end PhpPico.Pending
