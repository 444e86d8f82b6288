import PhpPico.Proto
import PhpPico.Lib.SharedArray

/-!
# Definition tables and nested executions

`pphp_exec_include` and `pphp_vm_invoke` run code on a copy of a `pphp_state`. Runtime functions and constants are
reached through the root state; the class table and the table of retained modules are heads that the copy duplicates.
`Session` is the root state with the nested executions on top of it; it also logs what each has defined (`own`,
`done`), which no step reads.
-/

namespace PhpPico
open SharedArray

/-- An entry of the class table; `id` tells apart entries that share a name. -/
structure PClass where
  name : List UInt8
  persistent : Bool
  id : Nat
deriving DecidableEq, Repr

/-- A module and the names of its unconditional functions. -/
structure LoadedModule where
  functions : List (List UInt8)
  id : Nat
deriving DecidableEq, Repr

structure RuntimeFunction where
  name : List UInt8
  module : LoadedModule
deriving DecidableEq, Repr

structure DefinedConstant where
  name : List UInt8
  value : Nat
deriving DecidableEq, Repr

/-- `pmodule_find` finds a function of that name. -/
def LoadedModule.finds (m : LoadedModule) (name : List UInt8) : Bool :=
  m.functions.any fun n => bytesEqualCi n name

/-- `ps_contains_cstr(name, "::")`, which stops at a zero byte. -/
def containsColons : List UInt8 → Bool
  | [] => false
  | a :: rest =>
    if a = 0 then false else (a == 58 && rest.head? == some 58) || containsColons rest

/-- The names `module_has_persistent_functions` and `validate_repl_functions` look at. -/
def isPersistentName (name : List UInt8) : Bool :=
  !name.isEmpty && name.head? != some 123 && !containsColons name

def moduleHasPersistentFunctions (m : LoadedModule) : Bool := m.functions.any isPersistentName

/-- The `repl_modules` of a state: the root's array, or the copy `pphp_vm_invoke` allocates for its
callee and frees, which nothing else points to. -/
inductive ModuleArray where
  | shared (head : Head)
  | own (modules : List LoadedModule)
deriving DecidableEq, Repr

/-- What a nested execution copies of a `pphp_state`. -/
structure ExecState where
  classes : Head
  replModules : ModuleArray
  module : Option LoadedModule
deriving DecidableEq, Repr

/-- `definition_checkpoint`. -/
structure Checkpoint where
  classCount : Nat
  functionCount : Nat
  moduleCount : Nat
  module : Option LoadedModule
deriving DecidableEq, Repr

inductive Definition where
  | classEntry (c : PClass)
  | function (f : RuntimeFunction)
  | constant (c : DefinedConstant)
  | module (m : LoadedModule)
deriving DecidableEq, Repr

/-- A nested execution: an include, which has a checkpoint, or a call of `pphp_vm_invoke`. `own` is
what its code has defined, `done` what executions nested in it and finished had defined. -/
structure Activation where
  state : ExecState
  checkpoint : Option Checkpoint
  own : List Definition
  done : List Definition
deriving DecidableEq, Repr

/-- The run of a script or of a line at the prompt on the root state. -/
structure TopRun where
  checkpoint : Checkpoint
  repl : Bool
deriving DecidableEq, Repr

structure Session where
  classMem : Heap PClass
  moduleMem : Heap LoadedModule
  rootClasses : Head
  rootModules : Head
  rootModule : Option LoadedModule
  functions : List RuntimeFunction
  constants : List DefinedConstant
  run : Option TopRun
  /-- Innermost first. -/
  nested : List Activation
  /-- Defined by nested executions of the current run that have ended. -/
  done : List Definition
  /-- Defined by nested executions of earlier runs. -/
  kept : List Definition
deriving DecidableEq, Repr

/-- `pphp_open`. -/
def Session.init : Session where
  classMem := []
  moduleMem := []
  rootClasses := Head.empty
  rootModules := Head.empty
  rootModule := none
  functions := []
  constants := []
  run := none
  nested := []
  done := []
  kept := []

namespace Session

def root (s : Session) : ExecState := ⟨s.rootClasses, .shared s.rootModules, s.rootModule⟩

/-- The state whose code is executing. -/
def running (s : Session) : ExecState :=
  match s.nested with
  | [] => s.root
  | a :: _ => a.state

/-! ## Lookup -/

def classesOf (s : Session) (x : ExecState) : List PClass := (read s.classMem x.classes).getD []

def modulesOf (s : Session) (x : ExecState) : List LoadedModule :=
  match x.replModules with
  | .shared head => (read s.moduleMem head).getD []
  | .own modules => modules

/-- `pphp_find_class`. -/
def findClass (s : Session) (x : ExecState) (name : List UInt8) : Option PClass :=
  (s.classesOf x).find? fun c => bytesEqualCi c.name name

/-- What `pphp_find_function` answers: a conditional function, or a module with that function. -/
inductive FoundFunction where
  | runtime (f : RuntimeFunction)
  | declared (m : LoadedModule)
deriving DecidableEq, Repr

/-- `pphp_find_function`: the runtime functions, the module being executed, then the other modules,
the last one first. -/
def findFunction (s : Session) (x : ExecState) (name : List UInt8) : Option FoundFunction :=
  match s.functions.reverse.find? fun f => bytesEqualCi f.name name with
  | some f => some (.runtime f)
  | none =>
    match x.module.filter fun m => m.finds name with
    | some m => some (.declared m)
    | none =>
      ((s.modulesOf x).reverse.find? fun m => some m != x.module && m.finds name).map .declared

def findConstant (s : Session) (name : List UInt8) : Option DefinedConstant :=
  s.constants.find? fun c => c.name == name

/-- `validate_repl_functions`. -/
def validateReplFunctions (s : Session) (x : ExecState) (m : LoadedModule) : Bool :=
  m.functions.all fun n => !isPersistentName n || (s.findFunction x n).isNone

/-! ## Steps -/

/-- `checkpoint_definitions` of the root state. -/
def checkpointDefinitions (s : Session) : Checkpoint where
  classCount := s.rootClasses.count
  functionCount := s.functions.length
  moduleCount := s.rootModules.count
  module := s.rootModule

/-- `rollback_definitions` of the root state; constants stay. -/
def rollbackDefinitions (s : Session) (cp : Checkpoint) : Session :=
  { s with
    functions := s.functions.take cp.functionCount
    rootClasses := s.rootClasses.truncate cp.classCount
    rootModules := s.rootModules.truncate cp.moduleCount
    rootModule := cp.module }

def Definition.isConstant : Definition → Bool
  | .constant _ => true
  | _ => false

/-- Log a definition the running code made; only those of nested executions are of interest. -/
def logOwn (s : Session) (d : Definition) : Session :=
  match s.nested with
  | [] => s
  | a :: rest => { s with nested := { a with own := a.own ++ [d] } :: rest }

/-- Log what a finished execution leaves behind with the one that resumes. -/
def logDone (s : Session) (ds : List Definition) : Session :=
  match s.nested with
  | [] => { s with done := s.done ++ ds }
  | a :: rest => { s with nested := { a with done := a.done ++ ds } :: rest }

/-- Store the class table of the running state. -/
def setClasses (s : Session) (mem : Heap PClass) (head : Head) : Session :=
  match s.nested with
  | [] => { s with classMem := mem, rootClasses := head }
  | a :: rest =>
    { s with classMem := mem, nested := { a with state := { a.state with classes := head } } :: rest }

/-- `pphp_register_class` on the running state. -/
def registerClass (s : Session) (c : PClass) (moved : Bool) : Option Session :=
  if (s.findClass s.running c.name).isSome then none
  else
    let pushed := push moved s.classMem s.running.classes c
    some ((s.setClasses pushed.1 pushed.2).logOwn (.classEntry c))

/-- `OP_DEF_FUNC`, which refuses a visible name, and `pphp_register_runtime_function`. The refusal of
a built-in's name is left out: it only makes fewer runs possible. -/
def defineFunction (s : Session) (f : RuntimeFunction) : Option Session :=
  if (s.findFunction s.running f.name).isSome ∨ 512 ≤ s.functions.length then none
  else some ({ s with functions := s.functions ++ [f] }.logOwn (.function f))

/-- `OP_DEF_CONST` and `define`. -/
def defineConstant (s : Session) (c : DefinedConstant) : Option Session :=
  if (s.findConstant c.name).isSome then none
  else some ({ s with constants := s.constants ++ [c] }.logOwn (.constant c))

/-- `pphp_exec_include` up to `pphp_vm_execute`: the owner is the root, which the callee copies after its module has
been retained. -/
def beginInclude (s : Session) (m : LoadedModule) (moved : Bool) : Option Session :=
  if s.validateReplFunctions s.root m then
    let pushed := push moved s.moduleMem s.rootModules m
    some { s with
      moduleMem := pushed.1
      rootModules := pushed.2
      nested :=
        { state := ⟨s.rootClasses, .shared pushed.2, some m⟩
          checkpoint := some s.checkpointDefinitions
          own := [.module m]
          done := [] } :: s.nested }
  else none

/-- The module `pphp_vm_invoke` builds around the call; its only proto is the entry. -/
def callbackModule : LoadedModule := ⟨[], 0⟩

/-- `pphp_vm_invoke` from the state `x`, up to `pphp_vm_execute`. -/
def beginInvoke (s : Session) (x : ExecState) : Session :=
  { s with
    nested :=
      { state := ⟨x.classes, .own (s.modulesOf x ++ x.module.toList), some callbackModule⟩
        checkpoint := none
        own := []
        done := [] } :: s.nested }

/-- An include has failed: the root has taken over its class table, and the destructors that `rollback_definitions`
starts with can run. -/
def failInclude (s : Session) : Option Session :=
  match s.nested with
  | [] => none
  | a :: _ => if a.checkpoint.isSome then some { s with rootClasses := a.state.classes } else none

/-- The innermost execution ends; the root takes over its class table, and an include that failed
is rolled back. -/
def endNested (s : Session) (ok : Bool) : Option Session :=
  match s.nested with
  | [] => none
  | a :: rest =>
    let merged := { s with rootClasses := a.state.classes, nested := rest }
    match a.checkpoint with
    | none => some (merged.logDone (a.own ++ a.done))
    | some cp =>
      if ok then some (merged.logDone (a.own ++ a.done))
      else
        some ((merged.rollbackDefinitions cp).logDone
          ((a.own ++ a.done).filter Definition.isConstant))

/-- `pphp_exec_source_mode` and `exec_pbc` on the root up to `pphp_vm_execute`, less the clearing of
user classes. -/
def beginRun (s : Session) (m : LoadedModule) (repl moved : Bool) : Option Session :=
  if s.nested ≠ [] ∨ s.run.isSome then none
  else
    let entered := { s with
      rootModule := some m
      run := some ⟨s.checkpointDefinitions, repl⟩
      kept := s.kept ++ s.done
      done := [] }
    if repl || moduleHasPersistentFunctions m then
      if s.validateReplFunctions s.root m then
        let pushed := push moved s.moduleMem s.rootModules m
        some { entered with moduleMem := pushed.1, rootModules := pushed.2 }
      else none
    else some entered

/-- The end of a run on the root: a failed one is rolled back, and only the prompt keeps its module
as the current one. -/
def endRun (s : Session) (ok : Bool) : Option Session :=
  match s.run with
  | none => none
  | some run =>
    if s.nested ≠ [] then none
    else if ok then
      some { s with run := none, rootModule := if run.repl then s.rootModule else none }
    else
      some { s.rollbackDefinitions run.checkpoint with
        run := none, done := s.done.filter Definition.isConstant }

/-- A class `pphp_clear_user_classes` keeps: a persistent one, or one that reachable values use. -/
def survives (reachable : List Nat) (c : PClass) : Bool := c.persistent || reachable.contains c.id

def Definition.survives (reachable : List Nat) : Definition → Bool
  | .classEntry c => Session.survives reachable c
  | _ => true

/-- `pphp_clear_user_classes` between runs: the surviving entries move to the front. -/
def clearUserClasses (s : Session) (reachable : List Nat) : Option Session :=
  if s.nested ≠ [] ∨ s.run.isSome then none
  else
    let compacted := compact s.classMem s.rootClasses (survives reachable)
    some { s with
      classMem := compacted.1
      rootClasses := compacted.2
      done := s.done.filter (Definition.survives reachable)
      kept := s.kept.filter (Definition.survives reachable) }

end Session

inductive Action where
  | registerClass (c : PClass) (moved : Bool)
  | defineFunction (f : RuntimeFunction)
  | defineConstant (c : DefinedConstant)
  | beginInclude (m : LoadedModule) (moved : Bool)
  /-- A callback or a magic method, called from the running state. -/
  | beginInvoke
  /-- A destructor, which runs on the object's `owner_state`: the root. -/
  | beginDestructor
  | failInclude
  | endNested (ok : Bool)
  | beginRun (m : LoadedModule) (repl moved : Bool)
  | endRun (ok : Bool)
  | clearUserClasses (reachable : List Nat)
deriving DecidableEq, Repr

def Session.step (s : Session) : Action → Option Session
  | .registerClass c moved => s.registerClass c moved
  | .defineFunction f => s.defineFunction f
  | .defineConstant c => s.defineConstant c
  | .beginInclude m moved => s.beginInclude m moved
  | .beginInvoke => some (s.beginInvoke s.running)
  | .beginDestructor => some (s.beginInvoke s.root)
  | .failInclude => s.failInclude
  | .endNested ok => s.endNested ok
  | .beginRun m repl moved => s.beginRun m repl moved
  | .endRun ok => s.endRun ok
  | .clearUserClasses reachable => s.clearUserClasses reachable

end PhpPico
