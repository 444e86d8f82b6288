import PhpPico.State.Session
import Mathlib.Data.List.Nodup
import Mathlib.Data.List.Perm.Basic

/-!
# Rolling back a failed unit

A unit is a script run on the root state or a file included at any depth. When it fails, `rollback_definitions` puts
the tables of the root state back to the checkpoint. `FileSession` adds the files recorded by `include_once`.
-/

namespace PhpPico
open List Option SharedArray

/-! ## Included files -/

/-- What `include_once` has recorded for a nested execution. An include that has failed and is being
rolled back has no path any more. -/
inductive FileStatus where
  | none
  | once (path : List UInt8)
  | failed
deriving DecidableEq, Repr

def FileStatus.path : FileStatus → Option (List UInt8)
  | .once path => some path
  | _ => Option.none

structure FileSession where
  session : Session
  includedFiles : List (List UInt8)
  /-- For each nested execution, innermost first. -/
  files : List FileStatus
deriving DecidableEq, Repr

inductive UnitEvent where
  | plain (a : Action)
  | includeOnce (path : List UInt8) (m : LoadedModule) (moved : Bool)
deriving DecidableEq, Repr

/-- What a failed include does while it is rolled back: it runs destructors and ends. -/
def UnitEvent.inRollback : UnitEvent → Bool
  | .plain .beginDestructor | .plain (.endNested _) => true
  | _ => false

/-- `rollback_definitions` works on the class table the root has by then, destructors included. -/
def Session.ownClasses (s : Session) : Session :=
  match s.nested with
  | [] => s
  | a :: rest => { s with nested := { a with state := { a.state with classes := s.rootClasses } } :: rest }

namespace FileSession

def init : FileSession := ⟨Session.init, [], []⟩

/-- The innermost execution is an include that is being rolled back. -/
def rollingBack (t : FileSession) : Bool := t.files.head? == some .failed

def includeOnce (t : FileSession) (path : List UInt8) (m : LoadedModule) (moved : Bool) : Option FileSession :=
  if path ∈ t.includedFiles then none
  else
    (t.session.beginInclude m moved).map fun s =>
      ⟨s, t.includedFiles ++ [path], FileStatus.once path :: t.files⟩

/-- A failed `include_once` takes its path back before the rollback. -/
def failInclude (t : FileSession) : Option FileSession :=
  match t.files with
  | [] => none
  | f :: rest =>
    t.session.failInclude.map fun s =>
      ⟨s, t.includedFiles.filter fun path => f.path ≠ some path, FileStatus.failed :: rest⟩

/-- An include ends well, or ends after it has failed. -/
def endNested (t : FileSession) (ok : Bool) : Option FileSession :=
  match t.session.nested, t.files with
  | a :: _, f :: rest =>
    if a.checkpoint.isSome ∧ (ok = true ↔ f = .failed) then none
    else
      ((if f = .failed then t.session.ownClasses else t.session).endNested ok).map fun s =>
        ⟨s, t.includedFiles, rest⟩
  | _, _ => none

def step (t : FileSession) (e : UnitEvent) : Option FileSession :=
  if t.rollingBack && !e.inRollback then none
  else
    match e with
    | .includeOnce path m moved => t.includeOnce path m moved
    | .plain .failInclude => t.failInclude
    | .plain (.endNested ok) => t.endNested ok
    | .plain (.beginInclude m moved) =>
      (t.session.beginInclude m moved).map fun s => ⟨s, t.includedFiles, FileStatus.none :: t.files⟩
    | .plain .beginInvoke =>
      some ⟨t.session.beginInvoke t.session.running, t.includedFiles, FileStatus.none :: t.files⟩
    | .plain .beginDestructor =>
      some ⟨t.session.beginInvoke t.session.root, t.includedFiles, FileStatus.none :: t.files⟩
    | .plain a => (t.session.step a).map fun s => ⟨s, t.includedFiles, t.files⟩

/-! ## Units -/

/-- A unit's run: the nested executions stay at least `depth` deep, and the run on the root goes on. -/
def play (depth : Nat) (t : FileSession) : List UnitEvent → Option FileSession
  | [] => some t
  | e :: rest =>
    (t.step e).bind fun t' =>
      if depth ≤ t'.session.nested.length ∧ t'.session.run = t.session.run then play depth t' rest else none

/-- The path that an execution leaves recorded when it ends: an `include_once` that has not failed. -/
def completedBy (t : FileSession) : UnitEvent → List (List UInt8)
  | .plain (.endNested _) => (t.files.head?.bind FileStatus.path).toList
  | _ => []

def completed (t : FileSession) : List UnitEvent → List (List UInt8)
  | [] => []
  | e :: rest => t.completedBy e ++ ((t.step e).map fun t' => t'.completed rest).getD []

end FileSession

/-- The constants a step defines. -/
def UnitEvent.constants : UnitEvent → List DefinedConstant
  | .plain (.defineConstant c) => [c]
  | _ => []

/-- A script or a line at the prompt, or a file, which `include_once` gives its path. -/
inductive UnitKind where
  | script (repl : Bool)
  | file (once : Option (List UInt8))
deriving DecidableEq, Repr

namespace UnitKind

/-- How a unit with the module `m` begins. -/
def begins (m : LoadedModule) (moved : Bool) : UnitKind → UnitEvent
  | .script repl => .plain (.beginRun m repl moved)
  | .file none => .plain (.beginInclude m moved)
  | .file (some path) => .includeOnce path m moved

/-- How a unit that has failed ends. -/
def fails : UnitKind → UnitEvent
  | .script _ => .plain (.endRun false)
  | .file _ => .plain (.endNested false)

/-- How deep nested executions are while the unit runs. -/
def depth (t : FileSession) : UnitKind → Nat
  | .script _ => 0
  | .file _ => t.session.nested.length + 1

end UnitKind

/-- The tables of the root state, the constants and the included files are as before. -/
structure Restored (t t' : FileSession) : Prop where
  classes : ∃ classes, read t.session.classMem t.session.rootClasses = some classes ∧
    read t'.session.classMem t'.session.rootClasses = some classes
  modules : ∃ modules, read t.session.moduleMem t.session.rootModules = some modules ∧
    read t'.session.moduleMem t'.session.rootModules = some modules
  module : t'.session.rootModule = t.session.rootModule
  functions : t'.session.functions = t.session.functions
  constants : t'.session.constants = t.session.constants
  includedFiles : t'.includedFiles = t.includedFiles

/-! ## The tables while a unit runs -/

namespace Session

/-- The class table and the checkpoint of each nested execution. -/
def heads (s : Session) : List (Head × Option Checkpoint) := s.nested.map fun a => (a.state.classes, a.checkpoint)

/-- The sessions differ in their logs at most. -/
structure SameTables (s s' : Session) : Prop where
  heads : s'.heads = s.heads
  classMem : s'.classMem = s.classMem
  rootClasses : s'.rootClasses = s.rootClasses
  moduleMem : s'.moduleMem = s.moduleMem
  rootModules : s'.rootModules = s.rootModules
  rootModule : s'.rootModule = s.rootModule
  functions : s'.functions = s.functions
  constants : s'.constants = s.constants
  run : s'.run = s.run

theorem sameTables_logOwn (s : Session) (d : Definition) : SameTables s (s.logOwn d) := by
  unfold logOwn
  split
  · exact ⟨rfl, rfl, rfl, rfl, rfl, rfl, rfl, rfl, rfl⟩
  · next nested => exact ⟨by simp [heads, nested], rfl, rfl, rfl, rfl, rfl, rfl, rfl, rfl⟩

theorem sameTables_logDone (s : Session) (ds : List Definition) : SameTables s (s.logDone ds) := by
  unfold logDone
  split
  · next nested => exact ⟨by simp [heads, nested], rfl, rfl, rfl, rfl, rfl, rfl, rfl, rfl⟩
  · next nested => exact ⟨by simp [heads, nested], rfl, rfl, rfl, rfl, rfl, rfl, rfl, rfl⟩

/-- Whatever a unit does, the tables of the root state `b` it began on stay part of its own: the classes `V` and the
modules `E`, as far as no array is freed. `upper` are the executions of the unit. -/
structure Under (b : Session) (V : List PClass) (E : List LoadedModule) (upper : List (Head × Option Checkpoint))
    (defined : List DefinedConstant) (s : Session) : Prop where
  heads : s.heads = upper ++ b.heads
  rootKeeps : Keeps s.classMem V s.rootClasses
  headKeeps : ∀ h ∈ upper, Keeps s.classMem V h.1
  checkpoints : ∀ h ∈ upper, ∀ cp ∈ h.2, V.length ≤ cp.classCount ∧ E.length ≤ cp.moduleCount ∧
    b.functions.length ≤ cp.functionCount
  modules : Keeps s.moduleMem E s.rootModules
  allocated : (block s.moduleMem s.rootModules.addr).isSome
  functions : b.functions <+: s.functions
  constants : s.constants = b.constants ++ defined

section Under
variable {b s s' : Session} {V : List PClass} {E : List LoadedModule} {upper : List (Head × Option Checkpoint)}
  {defined : List DefinedConstant}

theorem Under.refl (classes : read b.classMem b.rootClasses = some V) (modules : read b.moduleMem b.rootModules = some E) :
    Under b V E [] [] b := by
  obtain ⟨cells, there, -⟩ := read_eq_some.mp modules
  exact ⟨rfl, keeps_of_read classes, nofun, nofun, keeps_of_read modules, isSome_iff_exists.mpr ⟨cells, there⟩,
    prefix_refl _, (append_nil _).symm⟩

theorem Under.congr (h : Under b V E upper defined s) (same : SameTables s s') : Under b V E upper defined s' := by
  constructor
  · rw [same.heads, h.heads]
  · rw [same.classMem, same.rootClasses]
    exact h.rootKeeps
  · rw [same.classMem]
    exact h.headKeeps
  · exact h.checkpoints
  · rw [same.moduleMem, same.rootModules]
    exact h.modules
  · rw [same.moduleMem, same.rootModules]
    exact h.allocated
  · rw [same.functions]
    exact h.functions
  · rw [same.constants, h.constants]

theorem Under.running (h : Under b V E upper defined s) (bottom : upper = [] → b.nested = []) :
    (s.nested = [] ∧ upper = []) ∨
      ∃ a rest hd above, s.nested = a :: rest ∧ upper = hd :: above ∧ hd = (a.state.classes, a.checkpoint) ∧
        (rest.map fun a => (a.state.classes, a.checkpoint)) = above ++ b.heads := by
  have stack := h.heads
  cases nested : s.nested with
  | nil =>
    rw [Session.heads, nested, map_nil] at stack
    exact .inl ⟨rfl, (append_eq_nil_iff.mp stack.symm).1⟩
  | cons a rest =>
    right
    rw [Session.heads, nested, map_cons] at stack
    cases upper with
    | nil =>
      rw [Session.heads, bottom rfl] at stack
      cases stack
    | cons hd above =>
      obtain ⟨first, others⟩ := cons.inj stack
      exact ⟨a, rest, hd, above, rfl, rfl, first.symm, others⟩

theorem Under.runningKeeps (h : Under b V E upper defined s) (bottom : upper = [] → b.nested = []) :
    Keeps s.classMem V s.running.classes := by
  rcases h.running bottom with ⟨nested, -⟩ | ⟨a, rest, hd, above, nested, rfl, rfl, -⟩
  · rw [Session.running, nested]
    exact h.rootKeeps
  · rw [Session.running, nested]
    exact h.headKeeps _ (.head _)

theorem setClasses_flat (flat : s.nested = []) (mem : Heap PClass) (head : Head) :
    s.setClasses mem head = { s with classMem := mem, rootClasses := head } := by
  unfold setClasses
  split
  · rfl
  · next nested =>
    rw [flat] at nested
    cases nested

theorem setClasses_top {a : Activation} {rest : List Activation} (nested : s.nested = a :: rest) (mem : Heap PClass)
    (head : Head) : s.setClasses mem head =
      { s with classMem := mem, nested := { a with state := { a.state with classes := head } } :: rest } := by
  unfold setClasses
  split
  · next flat =>
    rw [nested] at flat
    cases flat
  · next nested' =>
    rw [nested] at nested'
    cases nested'
    rfl

theorem Under.registerClass (h : Under b V E upper defined s) (bottom : upper = [] → b.nested = []) {c : PClass}
    {moved : Bool} (step : s.registerClass c moved = some s') :
    ∃ upper', Under b V E upper' defined s' ∧ upper'.map Prod.snd = upper.map Prod.snd := by
  unfold Session.registerClass at step
  split at step
  · cases step
  · obtain rfl := some.inj step
    have pushed := h.runningKeeps bottom
    rcases h.running bottom with ⟨nested, rfl⟩ | ⟨a, rest, hd, above, nested, rfl, rfl, others⟩
    · have root : s.running = s.root := by rw [Session.running, nested]
      rw [root] at pushed ⊢
      refine ⟨[], Under.congr ?_ (sameTables_logOwn _ _), rfl⟩
      rw [setClasses_flat nested]
      exact ⟨h.heads, keeps_push_self pushed c, nofun, nofun, h.modules, h.allocated, h.functions, h.constants⟩
    · have top : s.running = a.state := by rw [Session.running, nested]
      rw [top] at pushed ⊢
      refine ⟨((push moved s.classMem a.state.classes c).2, a.checkpoint) :: above,
        Under.congr ?_ (sameTables_logOwn _ _), rfl⟩
      rw [setClasses_top nested]
      refine ⟨?_, keeps_push h.rootKeeps pushed c, fun hd mem => ?_, fun hd mem => ?_, h.modules, h.allocated,
        h.functions, h.constants⟩
      · simp only [Session.heads, map_cons, others, cons_append]
      · rcases mem_cons.mp mem with rfl | mem
        · exact keeps_push_self pushed c
        · exact keeps_push (h.headKeeps hd (.tail _ mem)) pushed c
      · rcases mem_cons.mp mem with rfl | mem
        · exact h.checkpoints (a.state.classes, a.checkpoint) (.head _)
        · exact h.checkpoints hd (.tail _ mem)

theorem Under.defineFunction (h : Under b V E upper defined s) {f : RuntimeFunction}
    (step : s.defineFunction f = some s') : Under b V E upper defined s' := by
  unfold Session.defineFunction at step
  split at step
  · cases step
  · obtain rfl := some.inj step
    refine Under.congr ?_ (sameTables_logOwn _ _)
    exact ⟨h.heads, h.rootKeeps, h.headKeeps, h.checkpoints, h.modules, h.allocated,
      h.functions.trans (prefix_append _ _), h.constants⟩

theorem Under.defineConstant (h : Under b V E upper defined s) {c : DefinedConstant}
    (step : s.defineConstant c = some s') : Under b V E upper (defined ++ [c]) s' := by
  unfold Session.defineConstant at step
  split at step
  · cases step
  · obtain rfl := some.inj step
    refine Under.congr ?_ (sameTables_logOwn _ _)
    refine ⟨h.heads, h.rootKeeps, h.headKeeps, h.checkpoints, h.modules, h.allocated, h.functions, ?_⟩
    simp only [h.constants, append_assoc]

theorem Under.beginInvoke (h : Under b V E upper defined s) {x : ExecState} (keeps : Keeps s.classMem V x.classes) :
    Under b V E ((x.classes, none) :: upper) defined (s.beginInvoke x) := by
  refine ⟨?_, h.rootKeeps, fun hd mem => ?_, fun hd mem => ?_, h.modules, h.allocated, h.functions, h.constants⟩
  · have stack := h.heads
    rw [Session.heads] at stack
    simp only [Session.beginInvoke, Session.heads, map_cons, stack, cons_append]
  · rcases mem_cons.mp mem with rfl | mem
    · exact keeps
    · exact h.headKeeps hd mem
  · rcases mem_cons.mp mem with rfl | mem
    · exact nofun
    · exact h.checkpoints hd mem

theorem Under.beginInclude (h : Under b V E upper defined s) {m : LoadedModule} {moved : Bool}
    (step : s.beginInclude m moved = some s') :
    ∃ hd, Under b V E (hd :: upper) defined s' ∧ hd.2 = some s.checkpointDefinitions := by
  unfold Session.beginInclude at step
  split at step
  · obtain rfl := some.inj step
    refine ⟨(s.rootClasses, some s.checkpointDefinitions), ⟨?_, h.rootKeeps, fun hd mem => ?_, fun hd mem => ?_,
      keeps_push_self h.modules m, block_push_self h.allocated m, h.functions, h.constants⟩, rfl⟩
    · have stack := h.heads
      rw [Session.heads] at stack
      simp only [Session.heads, map_cons, stack, cons_append]
    · rcases mem_cons.mp mem with rfl | mem
      · exact h.rootKeeps
      · exact h.headKeeps hd mem
    · rcases mem_cons.mp mem with rfl | mem
      · rintro cp ⟨rfl⟩
        exact ⟨h.rootKeeps.1, h.modules.1, h.functions.length_le⟩
      · exact h.checkpoints hd mem
  · cases step

theorem Under.failInclude (h : Under b V E upper defined s) (bottom : upper = [] → b.nested = [])
    (step : s.failInclude = some s') : Under b V E upper defined s' := by
  unfold Session.failInclude at step
  rcases h.running bottom with ⟨nested, -⟩ | ⟨a, rest, hd, above, nested, rfl, rfl, -⟩
  · rw [nested] at step
    cases step
  · rw [nested] at step
    simp only at step
    split at step
    · obtain rfl := some.inj step
      refine ⟨?_, h.headKeeps _ (.head _), h.headKeeps, h.checkpoints, h.modules, h.allocated, h.functions, h.constants⟩
      have stack := h.heads
      rw [Session.heads, nested] at stack
      exact stack
    · cases step

theorem Under.ownClasses (h : Under b V E upper defined s) (bottom : upper = [] → b.nested = []) :
    ∃ upper', Under b V E upper' defined s.ownClasses ∧ upper'.map Prod.snd = upper.map Prod.snd := by
  rcases h.running bottom with ⟨nested, rfl⟩ | ⟨a, rest, hd, above, nested, rfl, rfl, others⟩
  · refine ⟨[], ?_, rfl⟩
    rw [Session.ownClasses, nested]
    exact h
  · refine ⟨(s.rootClasses, a.checkpoint) :: above, ?_, rfl⟩
    rw [Session.ownClasses, nested]
    refine ⟨?_, h.rootKeeps, fun hd mem => ?_, fun hd mem => ?_, h.modules, h.allocated, h.functions, h.constants⟩
    · simp only [Session.heads, map_cons, others, cons_append]
    · rcases mem_cons.mp mem with rfl | mem
      · exact h.rootKeeps
      · exact h.headKeeps hd (.tail _ mem)
    · rcases mem_cons.mp mem with rfl | mem
      · exact h.checkpoints (a.state.classes, a.checkpoint) (.head _)
      · exact h.checkpoints hd (.tail _ mem)

/-- An inner execution ends: the root has its table, and a rollback goes back to a checkpoint behind the
unit's. -/
theorem Under.endNested {hd : Head × Option Checkpoint} (h : Under b V E (hd :: upper) defined s) {ok : Bool}
    (step : s.endNested ok = some s') : Under b V E upper defined s' := by
  rcases h.running nofun with ⟨-, nil⟩ | ⟨a, rest, hd', above, nested, eq, first, others⟩
  · cases nil
  · cases eq
    subst first
    unfold Session.endNested at step
    rw [nested] at step
    have keeps := h.headKeeps _ (.head _)
    have tail : ∀ hd ∈ upper, Keeps s.classMem V hd.1 := fun hd mem => h.headKeeps hd (.tail _ mem)
    have later := fun hd (mem : hd ∈ upper) => h.checkpoints hd (.tail _ mem)
    have merged : Under b V E upper defined { s with rootClasses := a.state.classes, nested := rest } :=
      ⟨others, keeps, tail, later, h.modules, h.allocated, h.functions, h.constants⟩
    cases checkpoint : a.checkpoint with
    | none =>
      simp only [checkpoint] at step
      obtain rfl := some.inj step
      exact merged.congr (sameTables_logDone _ _)
    | some cp =>
      simp only [checkpoint] at step
      split at step
      · obtain rfl := some.inj step
        exact merged.congr (sameTables_logDone _ _)
      · obtain rfl := some.inj step
        refine Under.congr ?_ (sameTables_logDone _ _)
        obtain ⟨classes, modules, functions⟩ := h.checkpoints _ (.head _) cp checkpoint
        exact ⟨others, Keeps.truncate keeps classes, tail, later, Keeps.truncate h.modules modules, h.allocated,
          prefix_take_iff.mpr ⟨h.functions, functions⟩, h.constants⟩

theorem beginRun_spec {m : LoadedModule} {repl moved : Bool} (step : b.beginRun m repl moved = some s) :
    b.nested = [] ∧ b.run = none ∧ s.run = some ⟨b.checkpointDefinitions, repl⟩ ∧
      (read b.classMem b.rootClasses = some V → read b.moduleMem b.rootModules = some E → Under b V E [] [] s) := by
  unfold Session.beginRun at step
  split at step
  · cases step
  · next idle =>
    have flat : b.nested = [] := by
      by_contra nested
      exact idle (.inl nested)
    have waiting : b.run = none := by
      cases running : b.run with
      | none => rfl
      | some run => exact absurd (.inr (by rw [running]; rfl)) idle
    refine ⟨flat, waiting, ?_⟩
    simp only at step
    split at step
    · split at step
      · obtain rfl := some.inj step
        refine ⟨rfl, fun classes modules => ?_⟩
        have h := Under.refl classes modules
        exact ⟨h.heads, h.rootKeeps, nofun, nofun, keeps_push_self h.modules m, block_push_self h.allocated m,
          h.functions, h.constants⟩
      · cases step
    · obtain rfl := some.inj step
      refine ⟨rfl, fun classes modules => ?_⟩
      have h := Under.refl classes modules
      exact ⟨h.heads, h.rootKeeps, nofun, nofun, h.modules, h.allocated, h.functions, h.constants⟩

theorem endRun_spec {ok : Bool} (step : s.endRun ok = some s') :
    ∃ run, s.run = some run ∧ s.nested = [] ∧ s'.run = none ∧
      (ok = false → SameTables { s.rollbackDefinitions run.checkpoint with run := none } s') := by
  unfold Session.endRun at step
  split at step
  · cases step
  · next run running =>
    split at step
    · cases step
    · next flat =>
      refine ⟨run, running, not_not.mp flat, ?_⟩
      cases ok with
      | true =>
        obtain rfl := some.inj step
        exact ⟨rfl, nofun⟩
      | false =>
        obtain rfl := some.inj step
        exact ⟨rfl, fun _ => ⟨rfl, rfl, rfl, rfl, rfl, rfl, rfl, rfl, rfl⟩⟩

/-- An include that has failed ends: the root's own tables are put back. -/
theorem endNested_rollback {a : Activation} {rest : List Activation} {cp : Checkpoint} (nested : s.nested = a :: rest)
    (checkpoint : a.checkpoint = some cp) (step : s.ownClasses.endNested false = some s') :
    SameTables { s.rollbackDefinitions cp with nested := rest } s' := by
  rw [ownClasses, nested] at step
  simp only [Session.endNested, checkpoint] at step
  obtain rfl := some.inj step
  exact sameTables_logDone _ _

/-- The tables behind a rollback are those of the beginning, unless the class table has been freed; the
constants stay. -/
theorem Under.rollback (h : Under b V E upper defined s) (classes : read b.classMem b.rootClasses = some V)
    (modules : read b.moduleMem b.rootModules = some E) :
    (read s.classMem (s.rootClasses.truncate b.rootClasses.count) = some V ↔
        (block s.classMem s.rootClasses.addr).isSome) ∧
      read s.moduleMem (s.rootModules.truncate b.rootModules.count) = some E ∧
      s.functions.take b.functions.length = b.functions := by
  rw [← read_length classes, ← read_length modules]
  exact ⟨Keeps.read_truncate_iff h.rootKeeps, (Keeps.read_truncate_iff h.modules).mpr h.allocated,
    (prefix_iff_eq_take.mp h.functions).symm⟩

theorem length_heads (s : Session) : s.heads.length = s.nested.length := length_map _

end Under

end Session

/-! ## The files while a unit runs -/

namespace FileSession

/-- Paths recorded since the unit began on `b`: `done` by includes that have ended, the others by `files`, the
ones that run. -/
structure FilesUnder (b : FileSession) (files : List FileStatus) (done : List (List UInt8)) (t : FileSession) : Prop where
  stack : t.files = files ++ b.files
  included : ∃ more, t.includedFiles = b.includedFiles ++ more ∧ more.Nodup ∧ (∀ path ∈ more, path ∉ b.includedFiles) ∧
    more.Perm (done ++ files.filterMap FileStatus.path)

/-- What holds while a unit that began on `b` runs. -/
structure UnitUnder (b : FileSession) (V : List PClass) (E : List LoadedModule) (upper : List (Head × Option Checkpoint))
    (files : List FileStatus) (done : List (List UInt8)) (defined : List DefinedConstant) (t : FileSession) : Prop where
  tables : Session.Under b.session V E upper defined t.session
  recorded : FilesUnder b files done t
  aligned : files.length = upper.length

section UnitUnder
variable {b t t' : FileSession} {V : List PClass} {E : List LoadedModule} {upper : List (Head × Option Checkpoint)}
  {files : List FileStatus} {done : List (List UInt8)} {defined : List DefinedConstant}

theorem FilesUnder.same (h : FilesUnder b files done t) (stack : t'.files = t.files)
    (included : t'.includedFiles = t.includedFiles) : FilesUnder b files done t' :=
  ⟨stack.trans h.stack, included ▸ h.included⟩

theorem FilesUnder.begins (h : FilesUnder b files done t) (stack : t'.files = FileStatus.none :: t.files)
    (included : t'.includedFiles = t.includedFiles) : FilesUnder b (.none :: files) done t' :=
  ⟨by rw [stack, h.stack, cons_append], included ▸ h.included⟩

theorem FilesUnder.includeOnce (h : FilesUnder b files done t) {path : List UInt8} (new : path ∉ t.includedFiles)
    (stack : t'.files = .once path :: t.files) (included : t'.includedFiles = t.includedFiles ++ [path]) :
    FilesUnder b (.once path :: files) done t' := by
  obtain ⟨more, all, nodup, fresh, perm⟩ := h.included
  rw [all, mem_append, not_or] at new
  refine ⟨by rw [stack, h.stack, cons_append], more ++ [path], ?_, ?_, fun p hp => ?_, ?_⟩
  · rw [included, all, append_assoc]
  · exact nodup_append.mpr ⟨nodup, nodup_singleton path, by
      rintro p hp q hq rfl
      exact new.2 (mem_singleton.mp hq ▸ hp)⟩
  · rcases mem_append.mp hp with hp | hp
    · exact fresh p hp
    · rw [mem_singleton.mp hp]
      exact new.1
  · have paths : (FileStatus.once path :: files).filterMap FileStatus.path =
        path :: files.filterMap FileStatus.path := rfl
    rw [paths]
    exact (perm_append_singleton path more).trans ((perm.cons path).trans perm_middle.symm)

theorem FilesUnder.failInclude {f : FileStatus} (h : FilesUnder b (f :: files) done t)
    (stack : t'.files = .failed :: (files ++ b.files))
    (included : t'.includedFiles = t.includedFiles.filter fun path => f.path ≠ some path) :
    FilesUnder b (.failed :: files) done t' := by
  obtain ⟨more, all, nodup, fresh, perm⟩ := h.included
  have same : (FileStatus.failed :: files).filterMap FileStatus.path = files.filterMap FileStatus.path := rfl
  refine ⟨by rw [stack, cons_append], more.filter fun path => f.path ≠ some path, ?_, nodup.filter _,
    fun p hp => fresh p (mem_of_mem_filter hp), ?_⟩
  · rw [included, all, filter_append]
    congr 1
    refine filter_eq_self.mpr fun p hp => decide_eq_true fun own => ?_
    refine fresh p (perm.mem_iff.mpr (mem_append_right _ ?_)) hp
    exact mem_filterMap.mpr ⟨f, .head _, own⟩
  · rw [same]
    cases own : f.path with
    | none =>
      have kept : (more.filter fun path => (Option.none : Option (List UInt8)) ≠ some path) = more :=
        filter_eq_self.mpr fun p _ => rfl
      rw [kept]
      rw [filterMap_cons_none own] at perm
      exact perm
    | some path =>
      rw [filterMap_cons_some own] at perm
      have moved := perm.trans perm_middle
      have distinct := (moved.nodup_iff).mp nodup
      have others : (more.filter fun p => some path ≠ some p) = more.filter fun p => p ≠ path := by
        apply filter_congr
        intro p _
        simp only [ne_eq, some.injEq, decide_not, eq_comm]
      rw [others]
      refine (moved.filter _).trans ?_
      rw [filter_cons_of_neg (by simp)]
      refine List.Perm.of_eq (filter_eq_self.mpr fun p hp => decide_eq_true ?_)
      rintro rfl
      exact (nodup_cons.mp distinct).1 hp

theorem FilesUnder.endNested {f : FileStatus} (h : FilesUnder b (f :: files) done t)
    (stack : t'.files = files ++ b.files) (included : t'.includedFiles = t.includedFiles) :
    FilesUnder b files (done ++ f.path.toList) t' := by
  obtain ⟨more, all, nodup, fresh, perm⟩ := h.included
  refine ⟨stack, more, included.trans all, nodup, fresh, perm.trans (List.Perm.of_eq ?_)⟩
  cases own : f.path with
  | none => rw [filterMap_cons_none own, toList_none, append_nil]
  | some path =>
    rw [filterMap_cons_some own, toList_some, append_assoc, singleton_append]

theorem UnitUnder.top (h : UnitUnder b V E upper files done defined t) (bottom : upper = [] → b.session.nested = [])
    (nested : t.session.nested ≠ []) :
    ∃ hd above f rest, upper = hd :: above ∧ files = f :: rest ∧ t.files = f :: (rest ++ b.files) := by
  rcases h.tables.running bottom with ⟨flat, -⟩ | ⟨a, rest, hd, above, -, rfl, -, -⟩
  · exact absurd flat nested
  · have aligned := h.aligned
    cases files with
    | nil => cases aligned
    | cons f rest => exact ⟨hd, above, f, rest, rfl, rfl, h.recorded.stack⟩

/-- **A unit's steps stay behind its beginning.** -/
theorem UnitUnder.step (h : UnitUnder b V E upper files done defined t) {e : UnitEvent}
    (bottom : upper = [] → b.session.nested = []) (busy : t.session.nested ≠ [] ∨ t.session.run.isSome)
    (step : t.step e = some t') (same : t'.session.run = t.session.run) :
    ∃ upper' files', UnitUnder b V E upper' files' (done ++ t.completedBy e) (defined ++ e.constants) t' ∧
      (upper'.map Prod.snd = upper.map Prod.snd ∨ (∃ cp, upper'.map Prod.snd = cp :: upper.map Prod.snd) ∨
        upper'.map Prod.snd = (upper.map Prod.snd).tail) := by
  unfold FileSession.step at step
  split at step
  · cases step
  cases e with
  | includeOnce path m moved =>
    have quiet : done ++ t.completedBy (.includeOnce path m moved) = done := append_nil done
    have same : defined ++ UnitEvent.constants (.includeOnce path m moved) = defined := append_nil defined
    rw [quiet, same]
    simp only [FileSession.includeOnce] at step
    split at step
    · cases step
    · next new =>
      obtain ⟨s, inner, rfl⟩ := map_eq_some_iff.mp step
      obtain ⟨hd, tables, -⟩ := h.tables.beginInclude inner
      exact ⟨hd :: upper, .once path :: files,
        ⟨tables, h.recorded.includeOnce new rfl rfl, congrArg Nat.succ h.aligned⟩, .inr (.inl ⟨hd.2, rfl⟩)⟩
  | plain a =>
    cases a with
    | defineConstant c =>
      have quiet : done ++ t.completedBy (.plain (.defineConstant c)) = done := append_nil done
      rw [quiet]
      obtain ⟨s, inner, rfl⟩ := map_eq_some_iff.mp step
      exact ⟨upper, files, ⟨h.tables.defineConstant inner, h.recorded.same rfl rfl, h.aligned⟩, .inl rfl⟩
    | endNested ok =>
      have same : defined ++ UnitEvent.constants (.plain (.endNested ok)) = defined := append_nil defined
      rw [same]
      simp only [FileSession.endNested] at step
      split at step
      · next a _ f rest nested stack =>
        split at step
        · cases step
        · obtain ⟨s, inner, rfl⟩ := map_eq_some_iff.mp step
          obtain ⟨hd, above, f', rest', rfl, rfl, stack'⟩ := h.top bottom (by rw [nested]; exact cons_ne_nil _ _)
          rw [stack] at stack'
          obtain ⟨rfl, rfl⟩ := cons.inj stack'
          have ended : done ++ t.completedBy (.plain (.endNested ok)) = done ++ f.path.toList := by
            rw [completedBy, stack, head?_cons, bind_some]
          rw [ended]
          have recorded : FilesUnder b rest' (done ++ f.path.toList) ⟨s, t.includedFiles, rest' ++ b.files⟩ :=
            h.recorded.endNested rfl rfl
          by_cases failed : f = .failed
          · rw [if_pos failed] at inner
            obtain ⟨upper', tables, checkpoints⟩ := h.tables.ownClasses bottom
            cases upper' with
            | nil => cases checkpoints
            | cons hd' above' =>
              obtain ⟨-, others⟩ := cons.inj checkpoints
              have lengths : above'.length = above.length := by
                simpa only [length_map] using congrArg List.length others
              exact ⟨above', rest', ⟨tables.endNested inner, recorded, (Nat.succ.inj h.aligned).trans lengths.symm⟩,
                .inr (.inr others)⟩
          · rw [if_neg failed] at inner
            exact ⟨above, rest', ⟨h.tables.endNested inner, recorded, Nat.succ.inj h.aligned⟩, .inr (.inr rfl)⟩
      · cases step
    | registerClass c moved =>
      have quiet : done ++ t.completedBy (.plain (.registerClass c moved)) = done := append_nil done
      have same : defined ++ UnitEvent.constants (.plain (.registerClass c moved)) = defined := append_nil defined
      rw [quiet, same]
      obtain ⟨s, inner, rfl⟩ := map_eq_some_iff.mp step
      obtain ⟨upper', tables, checkpoints⟩ := h.tables.registerClass bottom inner
      refine ⟨upper', files, ⟨tables, h.recorded.same rfl rfl, ?_⟩, .inl checkpoints⟩
      rw [h.aligned, ← length_map Prod.snd, ← checkpoints, length_map]
    | defineFunction f =>
      have quiet : done ++ t.completedBy (.plain (.defineFunction f)) = done := append_nil done
      have same : defined ++ UnitEvent.constants (.plain (.defineFunction f)) = defined := append_nil defined
      rw [quiet, same]
      obtain ⟨s, inner, rfl⟩ := map_eq_some_iff.mp step
      exact ⟨upper, files, ⟨h.tables.defineFunction inner, h.recorded.same rfl rfl, h.aligned⟩, .inl rfl⟩
    | beginInclude m moved =>
      have quiet : done ++ t.completedBy (.plain (.beginInclude m moved)) = done := append_nil done
      have same : defined ++ UnitEvent.constants (.plain (.beginInclude m moved)) = defined := append_nil defined
      rw [quiet, same]
      obtain ⟨s, inner, rfl⟩ := map_eq_some_iff.mp step
      obtain ⟨hd, tables, -⟩ := h.tables.beginInclude inner
      exact ⟨hd :: upper, .none :: files, ⟨tables, h.recorded.begins rfl rfl, congrArg Nat.succ h.aligned⟩,
        .inr (.inl ⟨hd.2, rfl⟩)⟩
    | beginInvoke =>
      have quiet : done ++ t.completedBy (.plain .beginInvoke) = done := append_nil done
      have same : defined ++ UnitEvent.constants (.plain .beginInvoke) = defined := append_nil defined
      rw [quiet, same]
      cases step
      exact ⟨(t.session.running.classes, none) :: upper, .none :: files,
        ⟨h.tables.beginInvoke (h.tables.runningKeeps bottom), h.recorded.begins rfl rfl, congrArg Nat.succ h.aligned⟩,
        .inr (.inl ⟨none, rfl⟩)⟩
    | beginDestructor =>
      have quiet : done ++ t.completedBy (.plain .beginDestructor) = done := append_nil done
      have same : defined ++ UnitEvent.constants (.plain .beginDestructor) = defined := append_nil defined
      rw [quiet, same]
      cases step
      exact ⟨(t.session.root.classes, none) :: upper, .none :: files,
        ⟨h.tables.beginInvoke h.tables.rootKeeps, h.recorded.begins rfl rfl, congrArg Nat.succ h.aligned⟩,
        .inr (.inl ⟨none, rfl⟩)⟩
    | failInclude =>
      have quiet : done ++ t.completedBy (.plain .failInclude) = done := append_nil done
      have same : defined ++ UnitEvent.constants (.plain .failInclude) = defined := append_nil defined
      rw [quiet, same]
      simp only [FileSession.failInclude] at step
      split at step
      · cases step
      · next f rest stack =>
        obtain ⟨s, inner, rfl⟩ := map_eq_some_iff.mp step
        have nested : t.session.nested ≠ [] := by
          intro flat
          rw [Session.failInclude, flat] at inner
          cases inner
        obtain ⟨hd, above, f', rest', rfl, rfl, stack'⟩ := h.top bottom nested
        rw [stack] at stack'
        obtain ⟨rfl, rfl⟩ := cons.inj stack'
        exact ⟨hd :: above, .failed :: rest',
          ⟨h.tables.failInclude bottom inner, h.recorded.failInclude rfl rfl, h.aligned⟩, .inl rfl⟩
    | beginRun m repl moved =>
      obtain ⟨s, inner, rfl⟩ := map_eq_some_iff.mp step
      obtain ⟨flat, waiting, -⟩ := Session.beginRun_spec (V := []) (E := []) inner
      rcases busy with nested | running
      · exact absurd flat nested
      · rw [waiting] at running
        cases running
    | endRun ok =>
      obtain ⟨s, inner, rfl⟩ := map_eq_some_iff.mp step
      obtain ⟨run, running, -, ended, -⟩ := Session.endRun_spec inner
      rw [ended, running] at same
      cases same
    | clearUserClasses reachable =>
      obtain ⟨s, inner, rfl⟩ := map_eq_some_iff.mp step
      have idle : t.session.nested = [] ∧ t.session.run = none := by
        simp only [Session.step, Session.clearUserClasses] at inner
        split at inner
        · cases inner
        · next idle =>
          rw [not_or, not_not, Bool.not_eq_true, isSome_eq_false_iff, isNone_iff_eq_none] at idle
          exact idle
      rcases busy with nested | running
      · exact absurd idle.1 nested
      · rw [idle.2] at running
        cases running

theorem UnitUnder.length (h : UnitUnder b V E upper files done defined t) :
    t.session.nested.length = upper.length + b.session.nested.length := by
  rw [← Session.length_heads, h.tables.heads, length_append, Session.length_heads]

/-- **A unit's run stays behind its beginning**, and at the bottom of its executions is the first one. -/
theorem UnitUnder.play {depth : Nat} (events : List UnitEvent) (h : UnitUnder b V E upper files done defined t)
    (floor : b.session.nested.length < depth ∨ b.session.nested = [] ∧ t.session.run.isSome)
    (deep : depth ≤ t.session.nested.length) (runs : t.play depth events = some t') :
    ∃ upper' files', UnitUnder b V E upper' files' (done ++ t.completed events)
        (defined ++ events.flatMap UnitEvent.constants) t' ∧ t'.session.run = t.session.run ∧
      (b.session.nested.length < depth → (upper'.map Prod.snd).getLast? = (upper.map Prod.snd).getLast?) := by
  induction events generalizing t upper files done defined with
  | nil =>
    cases runs
    refine ⟨upper, files, ?_, rfl, fun _ => rfl⟩
    simpa [completed] using h
  | cons e rest ih =>
    have bottom : upper = [] → b.session.nested = [] := by
      rintro rfl
      have length := h.length
      rw [length_nil, zero_add] at length
      rcases floor with below | flat
      · omega
      · exact flat.1
    have busy : t.session.nested ≠ [] ∨ t.session.run.isSome := by
      rcases floor with below | flat
      · left
        intro flat
        rw [flat, length_nil] at deep
        omega
      · exact .inr flat.2
    rw [FileSession.play] at runs
    obtain ⟨t₁, first, later⟩ := bind_eq_some_iff.mp runs
    split at later
    · next stays =>
      obtain ⟨upper₁, files₁, h₁, checkpoints⟩ := h.step bottom busy first stays.2
      obtain ⟨upper', files', h', run', last⟩ := ih h₁ (by rw [stays.2]; exact floor) stays.1 later
      refine ⟨upper', files', ?_, run'.trans stays.2, fun below => (last below).trans ?_⟩
      · rw [completed, first, map_some, getD_some, flatMap_cons, ← append_assoc, ← append_assoc]
        exact h'
      · -- the first execution stays at the bottom: it is neither pushed on nor popped
        have before : upper.map Prod.snd ≠ [] := by
          intro empty
          have length := h.length
          rw [map_eq_nil_iff.mp empty, length_nil] at length
          omega
        have behind : upper₁.map Prod.snd ≠ [] := by
          intro empty
          have length := h₁.length
          rw [map_eq_nil_iff.mp empty, length_nil] at length
          omega
        rcases checkpoints with same | ⟨cp, same⟩ | same
        · rw [same]
        · obtain ⟨x, l, eq⟩ := exists_cons_of_ne_nil before
          rw [same, eq, getLast?_cons_cons]
        · obtain ⟨x, l, eq⟩ := exists_cons_of_ne_nil before
          rw [eq, tail_cons] at same
          rw [same] at behind ⊢
          obtain ⟨y, l, rfl⟩ := exists_cons_of_ne_nil behind
          rw [eq, getLast?_cons_cons]
    · cases later

/-- What a rollback to the beginning gives back. -/
theorem UnitUnder.restored_iff (h : UnitUnder b V E upper files done defined t)
    (classes : read b.session.classMem b.session.rootClasses = some V)
    (modules : read b.session.moduleMem b.session.rootModules = some E) (paths : files.filterMap FileStatus.path = [])
    {nested : List Activation} {run : Option TopRun}
    (rolled : Session.SameTables { t.session.rollbackDefinitions b.session.checkpointDefinitions with nested, run }
      t'.session) (kept : t'.includedFiles = t.includedFiles) :
    Restored b t' ↔ defined = [] ∧ done = [] ∧ (block t.session.classMem t.session.rootClasses.addr).isSome := by
  obtain ⟨fits, shared, functions⟩ := h.tables.rollback classes modules
  obtain ⟨more, all, -, -, perm⟩ := h.recorded.included
  rw [paths, append_nil] at perm
  have table : read t'.session.classMem t'.session.rootClasses =
      read t.session.classMem (t.session.rootClasses.truncate b.session.rootClasses.count) := by
    rw [rolled.classMem, rolled.rootClasses]
    rfl
  constructor
  · intro restored
    refine ⟨?_, ?_, ?_⟩
    · have constants := restored.constants
      rw [rolled.constants] at constants
      exact append_right_eq_self.mp (h.tables.constants.symm.trans constants)
    · have files := restored.includedFiles
      rw [kept, all] at files
      have nothing : more = [] := append_right_eq_self.mp files
      rw [nothing] at perm
      exact nil_perm.mp perm
    · obtain ⟨V', before, behind⟩ := restored.classes
      rw [classes] at before
      cases before
      rw [table] at behind
      exact fits.mp behind
  · rintro ⟨rfl, rfl, there⟩
    refine ⟨⟨V, classes, table.trans (fits.mpr there)⟩, ⟨E, modules, ?_⟩, ?_, ?_, ?_, ?_⟩
    · rw [rolled.moduleMem, rolled.rootModules]
      exact shared
    · rw [rolled.rootModule]
      rfl
    · rw [rolled.functions]
      exact functions
    · rw [rolled.constants]
      exact h.tables.constants.trans (append_nil _)
    · rw [kept, all, perm_nil.mp perm, append_nil]

theorem FilesUnder.refl (b : FileSession) : FilesUnder b [] [] b :=
  ⟨rfl, [], (append_nil _).symm, nodup_nil, nofun, List.Perm.nil⟩

theorem script_begins {m : LoadedModule} {repl moved : Bool}
    (classes : read b.session.classMem b.session.rootClasses = some V)
    (modules : read b.session.moduleMem b.session.rootModules = some E)
    (begins : b.step (.plain (.beginRun m repl moved)) = some t) :
    UnitUnder b V E [] [] [] [] t ∧ b.session.nested = [] ∧
      t.session.run = some ⟨b.session.checkpointDefinitions, repl⟩ := by
  unfold FileSession.step at begins
  split at begins
  · cases begins
  · obtain ⟨s, inner, rfl⟩ := map_eq_some_iff.mp begins
    obtain ⟨flat, -, running, under⟩ := Session.beginRun_spec inner
    exact ⟨⟨under classes modules, (FilesUnder.refl b).same rfl rfl, rfl⟩, flat, running⟩

theorem file_begins {m : LoadedModule} {moved : Bool} {once : Option (List UInt8)}
    (classes : read b.session.classMem b.session.rootClasses = some V)
    (modules : read b.session.moduleMem b.session.rootModules = some E)
    (begins : b.step ((UnitKind.file once).begins m moved) = some t) :
    ∃ hd f, UnitUnder b V E [hd] [f] [] [] t ∧ hd.2 = some b.session.checkpointDefinitions := by
  have under := Session.Under.refl classes modules
  have recorded := FilesUnder.refl b
  cases once with
  | none =>
    unfold FileSession.step at begins
    split at begins
    · cases begins
    · obtain ⟨s, inner, rfl⟩ := map_eq_some_iff.mp begins
      obtain ⟨hd, tables, checkpoint⟩ := under.beginInclude inner
      exact ⟨hd, .none, ⟨tables, recorded.begins rfl rfl, rfl⟩, checkpoint⟩
  | some path =>
    unfold FileSession.step at begins
    split at begins
    · cases begins
    · simp only [UnitKind.begins, includeOnce] at begins
      split at begins
      · cases begins
      · next new =>
        obtain ⟨s, inner, rfl⟩ := map_eq_some_iff.mp begins
        obtain ⟨hd, tables, checkpoint⟩ := under.beginInclude inner
        exact ⟨hd, .once path, ⟨tables, recorded.includeOnce new rfl rfl, rfl⟩, checkpoint⟩

theorem script_fails {repl : Bool} {run : TopRun} (running : t.session.run = some run)
    (fails : t.step (UnitKind.script repl).fails = some t') :
    Session.SameTables { t.session.rollbackDefinitions run.checkpoint with run := none } t'.session ∧
      t'.includedFiles = t.includedFiles := by
  unfold FileSession.step at fails
  split at fails
  · cases fails
  · obtain ⟨s, inner, rfl⟩ := map_eq_some_iff.mp fails
    obtain ⟨run', running', -, -, same⟩ := Session.endRun_spec inner
    rw [running] at running'
    cases running'
    exact ⟨same rfl, rfl⟩

theorem file_fails {hd : Head × Option Checkpoint} {f : FileStatus} {once : Option (List UInt8)} {cp : Checkpoint}
    (h : UnitUnder b V E [hd] [f] done defined t) (checkpoint : hd.2 = some cp)
    (fails : t.step (UnitKind.file once).fails = some t') :
    ∃ nested, Session.SameTables { t.session.rollbackDefinitions cp with nested } t'.session ∧
      t'.includedFiles = t.includedFiles ∧ f.path = none := by
  unfold FileSession.step at fails
  split at fails
  · cases fails
  · simp only [UnitKind.fails, endNested] at fails
    split at fails
    · next a rest f' files nested stack =>
      have top : f' = f := by
        rw [h.recorded.stack] at stack
        exact (cons.inj stack).1.symm
      subst top
      have own : a.checkpoint = some cp := by
        have heads := h.tables.heads
        rw [Session.heads, nested, map_cons] at heads
        rw [← checkpoint, ← (cons.inj heads).1]
      split at fails
      · cases fails
      · next open_end =>
        have failed : f' = .failed := by
          by_contra well
          refine open_end ⟨by rw [own]; rfl, ?_⟩
          exact iff_of_false nofun well
        rw [if_pos failed] at fails
        obtain ⟨s, inner, rfl⟩ := map_eq_some_iff.mp fails
        refine ⟨rest, Session.endNested_rollback nested own inner, rfl, ?_⟩
        rw [failed]
        rfl
    · cases fails

end UnitUnder

/-- A fresh state on which a script has begun. -/
def scriptStart : FileSession := (init.step ((UnitKind.script false).begins ⟨[], 1⟩ false)).getD init

/-- The script declares a class and includes a file that declares a function. -/
def declaringEvents : List UnitEvent :=
  [.plain (.registerClass ⟨ascii "Shape", false, 1⟩ false), .plain (.beginInclude ⟨[ascii "helper"], 2⟩ false),
    .plain (.defineFunction ⟨ascii "area", ⟨[], 2⟩⟩), .plain (.endNested true)]

/-- The script includes a file once. -/
def includingEvents : List UnitEvent := [.includeOnce (ascii "config.php") ⟨[], 2⟩ false, .plain (.endNested true)]

def playedTo (events : List UnitEvent) : FileSession := (scriptStart.play 0 events).getD init

def failedAfter (events : List UnitEvent) : FileSession := ((playedTo events).step (UnitKind.script false).fails).getD init

end FileSession

end PhpPico
