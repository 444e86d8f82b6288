import PhpPico.Vm.Pending

/-!
# Errors of their own

The executions of a run agree with executions that have errors of their own exactly as long as the steps are clean.
What a nested run does in the abstract machine is what it does by itself.
-/

namespace PhpPico.Pending
open List Option

/-! ## One error -/

namespace Fields

variable {f : Fields} {r r' : Option Raised}

theorem Holds.isNone (held : f.Holds r) : r = none ↔ f.error = [] := by
  cases r with
  | none => exact ⟨fun _ => held, fun _ => rfl⟩
  | some a =>
    obtain ⟨some_text, rfl⟩ := held
    simp [some_text]

/-- The fields hold an error that was made of them. -/
theorem holds_make {text : List UInt8} {line : Nat} {className raisedClass : List UInt8} :
    (Fields.mk text line raisedClass).Holds (Raised.make text line className) ↔
      (text ≠ [] → raisedClass = className) := by
  unfold Raised.make
  by_cases no_text : text = []
  · simp [no_text, Holds]
  · simp [no_text, Holds]

theorem holds_runtimeError (held : f.Holds r) (line : Nat) (text : List UInt8) :
    (f.runtimeError line text).Holds (r.or (Raised.make (clip 256 text) line [])) ↔
      (clip 256 text ≠ [] → f.NoClass) := by
  unfold runtimeError NoClass
  cases r with
  | none =>
    have no_error : f.error = [] := held
    rw [if_neg (not_not_intro no_error), none_or, holds_make]
    exact imp_congr_right fun _ => ⟨fun no_class _ => no_class, fun no_class => no_class no_error⟩
  | some a =>
    obtain ⟨some_text, rfl⟩ := held
    rw [if_pos some_text, some_or]
    exact ⟨fun _ _ no_text => absurd no_text some_text, fun _ => ⟨some_text, rfl⟩⟩

theorem holds_raiseDeclaredTypeError (held : f.Holds r) (line : Nat) (text : List UInt8) :
    (f.raiseDeclaredTypeError line text).Holds (r.or (Raised.make (clip 256 text) line (ascii "TypeError"))) := by
  unfold raiseDeclaredTypeError
  cases r with
  | none =>
    have no_error : f.error = [] := held
    rw [if_neg (not_not_intro no_error), none_or, holds_make]
    intro _
    rfl
  | some a =>
    obtain ⟨some_text, rfl⟩ := held
    rw [if_pos some_text, some_or]
    exact ⟨some_text, rfl⟩

theorem holds_pphpRaise (held : f.Holds r) (className text : List UInt8) : (f.pphpRaise className text).Holds
        (Raised.make (clip 256 text) ((r.map Raised.line).getD 0) (clip 48 className)) ↔
      (clip 256 text ≠ [] → f.error = [] → f.errorLine = 0) := by
  unfold pphpRaise Raised.make
  by_cases no_text : clip 256 text = []
  · simp [no_text, Holds]
  rw [if_neg no_text]
  cases r with
  | none =>
    have no_error : f.error = [] := held
    simp [no_text, no_error, Holds]
  | some a =>
    obtain ⟨some_text, rfl⟩ := held
    simp [no_text, some_text, Holds]

/-- What a failed execution leaves is the error around it, if that shows no other. -/
theorem holds_take {g : Fields} {q : Option Raised} (held : f.Holds r) (failed : g.Holds q) (some_error : g.error ≠ []) :
    (f.take g).Holds (r.or (q.map fun b => { b with className := [] })) ↔
      f.NoClass ∧ (f.error ≠ [] → f.Shows g.error g.errorLine) := by
  cases q with
  | none => exact absurd failed some_error
  | some b =>
    obtain ⟨some_text, rfl⟩ := failed
    unfold take NoClass Shows
    cases r with
    | none =>
      have no_error : f.error = [] := held
      simp [Holds, some_text, no_error]
    | some a =>
      obtain ⟨some_text', rfl⟩ := held
      simp [Holds, some_text', eq_comm]

/-- An error that is reported to the root and copied is that of the execution that runs, if the root has
it already. -/
theorem holds_redeclared {root : Fields} {q : Option Raised} {text : List UInt8} (root_holds : root.Holds q)
    (held : f.Holds r) (some_text : clip 256 text ≠ []) : ((root.runtimeError 0 text).Holds q ∧
        (f.take (root.runtimeError 0 text)).Holds (r.or (Raised.make (clip 256 text) 0 []))) ↔
      f.NoClass ∧ if f.error = [] then root.Shows (clip 256 text) 0 else root.Shows f.error f.errorLine := by
  have root_after : (root.runtimeError 0 text).Holds q ↔ root.error ≠ [] := by
    cases q with
    | none =>
      have no_error : root.error = [] := root_holds
      simp [runtimeError, no_error, Holds, some_text]
    | some b =>
      obtain ⟨some_text', rfl⟩ := root_holds
      simp [runtimeError, some_text', Holds]
  rw [root_after]
  by_cases root_error : root.error = []
  · have root_shows : ∀ {t : List UInt8} {line : Nat}, t ≠ [] → ¬ root.Shows t line := by
      intro t line some_t shows
      exact some_t (shows.1.symm.trans root_error)
    refine iff_of_false (fun both => both.1 root_error) fun both => ?_
    split at both
    · exact root_shows some_text both.2
    · next some_error => exact root_shows some_error both.2
  · have unchanged : root.runtimeError 0 text = root := if_pos root_error
    rw [unchanged]
    unfold take NoClass Shows
    cases r with
    | none =>
      have no_error : f.error = [] := held
      have shows : (Fields.mk root.error root.errorLine f.raisedClass).Holds (Raised.make (clip 256 text) 0 []) ↔
          root.error = clip 256 text ∧ root.errorLine = 0 ∧ f.raisedClass = [] := by
        simp [Raised.make, some_text, Holds]
      rw [none_or, shows, no_error]
      simp only [ne_eq, root_error, not_false_eq_true, true_and, forall_const, if_true]
      tauto
    | some a =>
      obtain ⟨some_text', rfl⟩ := held
      simp [Holds, root_error, some_text']

theorem holds_convertRuntimeError {a : Raised} (held : f.Holds (some a)) (line : Nat) (memory : Bool)
    (oom : Option Thrown) :
    let errorLine := if a.line = 0 then line else a.line
    f.convertRuntimeError line memory oom =
      match exceptionFor (classForError a.className a.text) a.text errorLine memory oom with
      | some e => (⟨[], errorLine, []⟩, some e)
      | none => (⟨a.text, errorLine, []⟩, none) := by
  obtain ⟨-, rfl⟩ := held
  rfl

end Fields

/-! ## One step -/

@[simp] theorem Isolated.setRunning_running (i : Isolated) : i.setRunning i.running = i := by
  obtain ⟨root, nested, thrown⟩ := i
  cases nested with
  | nil => rfl
  | cons l below => rfl

namespace Agrees

variable {s : States} {i : Isolated}

theorem running (agrees : Agrees s i) : s.running.Holds i.running := by
  obtain ⟨root, nested, thrown⟩ := s
  obtain ⟨root', nested', thrown'⟩ := i
  cases agrees.nested with
  | nil => exact agrees.root
  | cons level _ => exact level.2

theorem setRunning (agrees : Agrees s i) {f : Fields} {r : Option Raised} :
    Agrees (s.setRunning f) (i.setRunning r) ↔ f.Holds r := by
  obtain ⟨root, nested, thrown⟩ := s
  obtain ⟨root', nested', thrown'⟩ := i
  obtain ⟨root_holds, levels, same_thrown⟩ := agrees
  cases levels with
  | nil =>
    constructor
    · intro after
      exact after.root
    · intro held
      exact ⟨held, .nil, same_thrown⟩
  | cons level below =>
    constructor
    · intro after
      cases after.nested with
      | cons running _ => exact running.2
    · intro held
      exact ⟨root_holds, .cons ⟨level.1, held⟩ below, same_thrown⟩

end Agrees

/-- The root shows what it did when a destructor began. -/
def States.Restores (s : States) : Prop :=
  ∀ l ∈ s.nested, l.startedBy = .destructor → s.root.take l.saved = s.root

namespace States

variable {s : States}

@[simp] theorem setRunning_thrown (s : States) (f : Fields) : (s.setRunning f).thrown = s.thrown := by
  obtain ⟨root, nested, thrown⟩ := s
  cases nested with
  | nil => rfl
  | cons l below => rfl

theorem Restores.setRunning (restores : s.Restores) (f : Fields) : (s.setRunning f).Restores := by
  obtain ⟨root, nested, thrown⟩ := s
  cases nested with
  | nil =>
    intro l mem
    exact absurd mem not_mem_nil
  | cons l below =>
    intro m mem destructor
    rcases mem_cons.mp mem with rfl | mem
    · exact restores l (.head _) destructor
    · exact restores m (mem_cons_of_mem l mem) destructor

theorem Restores.enter (restores : s.Restores) (startedBy : StartedBy) : (s.enter startedBy).Restores := by
  intro l mem destructor
  rcases mem_cons.mp mem with rfl | mem
  · rfl
  · exact restores l mem destructor

theorem Restores.below {l : Level} {below : List Level} (restores : s.Restores) (nested : s.nested = l :: below) :
    { s with nested := below }.Restores := by
  intro m mem
  exact restores m (nested ▸ mem_cons_of_mem l mem)

theorem Restores.destructor {l : Level} {below : List Level} (restores : s.Restores) (nested : s.nested = l :: below)
    (destructor : l.startedBy = .destructor) : s.root.take l.saved = s.root :=
  restores l (nested ▸ (.head _)) destructor

end States

/-- A text is reported. -/
theorem alreadyDefined_ne_nil (functionName : List UInt8) : clip 256 (alreadyDefined functionName) ≠ [] := by
  intro no_text
  have short := congrArg List.length no_text
  simp only [clip, alreadyDefined, length_take, length_append, ascii, length_nil] at short
  have : (ascii "function ").length = 9 := rfl
  unfold ascii at this
  omega

namespace Agrees

variable {s s' : States} {i : Isolated}

theorem of_setRunning (agrees : Agrees s i) {f : Fields} {r : Option Raised} {p : Prop} (holds : f.Holds r ↔ p) :
    (∃ i', some (i.setRunning r) = some i' ∧ Agrees (s.setRunning f) i') ↔ p := by
  simp only [some.injEq, exists_eq_left']
  exact agrees.setRunning.trans holds

theorem step_start (agrees : Agrees s i) (taken : s.step .start = some s') :
    ∃ i', i.step .start = some i' ∧ Agrees s' i' := by
  obtain ⟨root, nested, thrown⟩ := s
  obtain ⟨root', nested', thrown'⟩ := i
  simp only [States.step, ite_none_right_eq_some] at taken
  obtain ⟨rfl, same⟩ := taken
  cases same
  cases agrees.nested
  exact ⟨⟨none, [], thrown'⟩, rfl, rfl, .nil, agrees.thrown⟩

theorem step_convert (agrees : Agrees s i) {line : Nat} {memory : Bool} {oom : Option Thrown}
    (taken : s.step (.convert line memory oom) = some s') :
    ∃ i', i.step (.convert line memory oom) = some i' ∧ Agrees s' i' := by
  have held := agrees.running
  simp only [States.step, ite_none_left_eq_some, some.injEq] at taken
  obtain ⟨some_error, rfl⟩ := taken
  cases of_error : i.running with
  | none => exact absurd (held.isNone.mp of_error) some_error
  | some a =>
    rw [of_error] at held
    simp only [Isolated.step, of_error, map_some, some.injEq, exists_eq_left',
      Fields.holds_convertRuntimeError held line memory oom]
    generalize (if a.line = 0 then line else a.line) = errorLine
    cases exceptionFor (classForError a.className a.text) a.text errorLine memory oom with
    | none =>
      have after : Agrees (s.setRunning ⟨a.text, errorLine, []⟩) (i.setRunning (some ⟨a.text, errorLine, []⟩)) :=
        agrees.setRunning.mpr ⟨held.1, rfl⟩
      refine ⟨after.root, after.nested, ?_⟩
      rw [← after.thrown, toList_none, append_nil, States.setRunning_thrown]
    | some e =>
      have after : Agrees (s.setRunning ⟨[], errorLine, []⟩) (i.setRunning none) := agrees.setRunning.mpr rfl
      refine ⟨after.root, after.nested, ?_⟩
      rw [agrees.thrown]
      rfl

theorem step_enter (agrees : Agrees s i) (startedBy : StartedBy) :
    Agrees (s.enter startedBy) { i with nested := (startedBy, none) :: i.nested } :=
  ⟨agrees.root, .cons ⟨rfl, rfl⟩ agrees.nested, agrees.thrown⟩

theorem of_finish (agrees : Agrees s i) (restores : s.Restores) (taken : s.step .finish = some s') :
    (∃ i', i.step .finish = some i' ∧ Agrees s' i') ↔ s.Clean .finish := by
  obtain ⟨root, nested, thrown⟩ := s
  obtain ⟨root', nested', thrown'⟩ := i
  obtain ⟨root_holds, levels, same_thrown⟩ := agrees
  cases levels with
  | nil => cases taken
  | @cons l m below below' level deeper =>
    have around : Agrees ⟨root, below, thrown⟩ ⟨root', below', thrown'⟩ := ⟨root_holds, deeper, same_thrown⟩
    obtain ⟨startedBy, left⟩ := m
    obtain ⟨same, held⟩ := level
    simp only at same held
    have clean_iff : States.Clean ⟨root, l :: below, thrown⟩ .finish ↔
        (l.startedBy ≠ .destructor → l.fields.error ≠ [] → (States.mk root below thrown).running.NoClass ∧
            ((States.mk root below thrown).running.error ≠ [] →
              (States.mk root below thrown).running.Shows l.fields.error l.fields.errorLine)) := by
      simp only [States.Clean, List.cons.injEq]
      constructor
      · intro clean
        exact clean l below ⟨rfl, rfl⟩
      · rintro clean _ _ ⟨rfl, rfl⟩
        exact clean
    rw [clean_iff]
    by_cases destructor : l.startedBy = .destructor
    · -- what the destructor left is put aside
      have unchanged : root.take l.saved = root := restores.destructor rfl destructor
      simp only [States.step, States.finish, destructor, unchanged, some.injEq] at taken
      subst taken
      refine iff_of_true ⟨⟨root', below', thrown'⟩, ?_, around⟩ fun other => absurd destructor other
      simp only [Isolated.step, Isolated.finish, ← same, destructor]
    · have finishes : Isolated.step ⟨root', (startedBy, left) :: below', thrown'⟩ .finish =
          some (Isolated.setRunning ⟨root', below', thrown'⟩
            ((Isolated.mk root' below' thrown').running.or (left.map fun r => { r with className := [] }))) := by
        rw [same] at destructor
        cases startedBy with
        | destructor => exact absurd rfl destructor
        | invoke => rfl
        | includeFile => rfl
      have taken' : s' = if l.fields.error = [] then ⟨root, below, thrown⟩
          else States.setRunning ⟨root, below, thrown⟩ ((States.mk root below thrown).running.take l.fields) := by
        obtain ⟨startedBy', saved, fields⟩ := l
        cases startedBy' with
        | destructor => exact absurd rfl destructor
        | invoke => exact (some.inj taken).symm
        | includeFile => exact (some.inj taken).symm
      rw [finishes, taken']
      by_cases no_error : l.fields.error = []
      · rw [if_pos no_error, held.isNone.mpr no_error, map_none, or_none, Isolated.setRunning_running]
        exact iff_of_true ⟨_, rfl, around⟩ fun _ some_error => absurd no_error some_error
      · rw [if_neg no_error]
        refine (around.of_setRunning (Fields.holds_take around.running held no_error)).trans ?_
        simp only [ne_eq, destructor, no_error, not_false_eq_true, forall_const]

theorem of_redeclares (agrees : Agrees s i) {functionName : List UInt8}
    (taken : s.step (.redeclares functionName) = some s') :
    (∃ i', i.step (.redeclares functionName) = some i' ∧ Agrees s' i') ↔ s.Clean (.redeclares functionName) := by
  have some_text := alreadyDefined_ne_nil functionName
  obtain ⟨root, nested, thrown⟩ := s
  obtain ⟨root', nested', thrown'⟩ := i
  have running := agrees.running
  have levels := agrees.nested
  cases some.inj taken
  cases levels with
  | nil =>
    refine (agrees.of_setRunning (Fields.holds_runtimeError running 0 (alreadyDefined functionName))).trans ?_
    simp [States.Clean, some_text]
  | @cons l m below below' level deeper =>
    have root_holds := agrees.root
    have after_iff : (∃ i', Isolated.step ⟨root', m :: below', thrown'⟩ (.redeclares functionName) = some i' ∧
          Agrees ⟨root.runtimeError 0 (alreadyDefined functionName),
            { l with fields := l.fields.take (root.runtimeError 0 (alreadyDefined functionName)) } :: below, thrown⟩ i') ↔
        (root.runtimeError 0 (alreadyDefined functionName)).Holds root' ∧
          (l.fields.take (root.runtimeError 0 (alreadyDefined functionName))).Holds
            (m.2.or (Raised.make (clip 256 (alreadyDefined functionName)) 0 [])) := by
      simp only [Isolated.step, some.injEq, exists_eq_left']
      constructor
      · intro after
        cases after.nested with
        | cons level' _ => exact ⟨after.root, level'.2⟩
      · rintro ⟨root_after, running_after⟩
        exact ⟨root_after, .cons ⟨level.1, running_after⟩ deeper, agrees.thrown⟩
    refine after_iff.trans ?_
    simp only [States.Clean, ne_eq, reduceCtorEq, not_false_eq_true, forall_const]
    refine (Fields.holds_redeclared root_holds level.2 some_text).trans ?_
    rfl

/-- **One step**: the executions agree behind it exactly where it is clean. -/
theorem step_iff (agrees : Agrees s i) (restores : s.Restores) {a : Action} (taken : s.step a = some s') :
    (∃ i', i.step a = some i' ∧ Agrees s' i') ↔ s.Clean a := by
  cases a with
  | start => exact iff_of_true (agrees.step_start taken) trivial
  | runtimeError line text =>
    cases taken
    exact agrees.of_setRunning (Fields.holds_runtimeError agrees.running line text)
  | typeError line text =>
    cases taken
    exact agrees.of_setRunning (iff_true_intro (Fields.holds_raiseDeclaredTypeError agrees.running line text))
  | raise className text =>
    cases taken
    exact agrees.of_setRunning (Fields.holds_pphpRaise agrees.running className text)
  | convert line memory oom => exact iff_of_true (agrees.step_convert taken) trivial
  | enter startedBy =>
    cases taken
    exact iff_of_true ⟨_, rfl, agrees.step_enter startedBy⟩ trivial
  | redeclares functionName => exact agrees.of_redeclares taken
  | finish => exact agrees.of_finish restores taken

end Agrees

namespace States

variable {s s' : States}

theorem Restores.of_nested_nil (none_nested : s.nested = []) : s.Restores := by
  intro l mem
  rw [none_nested] at mem
  simp at mem

/-- A clean step changes the root of nested executions by no more than a destructor puts back. -/
theorem Restores.step (restores : s.Restores) {a : Action} (clean : s.Clean a) (taken : s.step a = some s') :
    s'.Restores := by
  cases a with
  | start =>
    simp only [States.step, ite_none_right_eq_some, some.injEq] at taken
    obtain ⟨none_nested, rfl⟩ := taken
    apply of_nested_nil
    exact none_nested
  | runtimeError line text =>
    cases taken
    exact restores.setRunning _
  | typeError line text =>
    cases taken
    exact restores.setRunning _
  | raise className text =>
    cases taken
    exact restores.setRunning _
  | convert line memory oom =>
    simp only [States.step, ite_none_left_eq_some, some.injEq] at taken
    obtain ⟨-, rfl⟩ := taken
    exact restores.setRunning _
  | enter startedBy =>
    cases taken
    exact restores.enter startedBy
  | redeclares functionName =>
    cases taken
    apply Restores.setRunning
    by_cases none_nested : s.nested = []
    · apply of_nested_nil
      exact none_nested
    · have root_error : s.root.error ≠ [] := by
        have shows := clean.2 none_nested
        split at shows
        · rw [shows.1]
          exact alreadyDefined_ne_nil functionName
        · next some_error =>
          rw [shows.1]
          exact some_error
      have unchanged : s.root.runtimeError 0 (alreadyDefined functionName) = s.root := if_pos root_error
      rw [unchanged]
      exact restores
  | finish =>
    simp only [States.step, States.finish] at taken
    cases nested : s.nested with
    | nil => simp only [nested, reduceCtorEq] at taken
    | cons l below =>
      simp only [nested] at taken
      split at taken
      · next destructor =>
        rw [restores.destructor nested destructor] at taken
        cases taken
        exact restores.below nested
      all_goals
        cases taken
        split
        · exact restores.below nested
        · exact (restores.below nested).setRunning _

theorem clean_of_step_eq_none {a : Action} (stuck : s.step a = none) : s.Clean a := by
  cases a with
  | start => trivial
  | typeError line text => trivial
  | convert line memory oom => trivial
  | enter startedBy => trivial
  | runtimeError line text => cases stuck
  | raise className text => cases stuck
  | redeclares functionName => cases stuck
  | finish =>
    intro l below nested not_destructor
    simp only [States.step, States.finish, nested] at stuck
    split at stuck
    · next destructor => exact absurd destructor not_destructor
    all_goals cases stuck

end States

/-! ## Nested runs -/

namespace Isolated

/-- Nested executions are started in other ones, `around`. -/
def within (i around : Isolated) : Isolated :=
  ⟨around.root, i.nested ++ around.nested, around.thrown ++ i.thrown⟩

/-- A step that does not end the outermost nested execution. -/
def Nests (i : Isolated) (a : Action) : Prop := i.nested ≠ [] ∧ (a = .finish → i.nested.tail ≠ [])

theorem within_running {i around : Isolated} (some_nested : i.nested ≠ []) : (i.within around).running = i.running := by
  obtain ⟨root, nested, thrown⟩ := i
  cases nested with
  | nil => exact absurd rfl some_nested
  | cons l below => rfl

theorem within_setRunning {i around : Isolated} (some_nested : i.nested ≠ []) (r : Option Raised) :
    (i.within around).setRunning r = (i.setRunning r).within around := by
  obtain ⟨root, nested, thrown⟩ := i
  cases nested with
  | nil => exact absurd rfl some_nested
  | cons l below => rfl

/-- A nested execution does by itself what it does in other ones, and leaves those as they are. -/
theorem step_within {i around : Isolated} {a : Action} (nests : i.Nests a) :
    (i.within around).step a = (i.step a).map (·.within around) := by
  have running : (i.within around).running = i.running := within_running nests.1
  have setRunning : ∀ r, (i.within around).setRunning r = (i.setRunning r).within around := within_setRunning nests.1
  cases a with
  | start =>
    have some_nested : (i.within around).nested ≠ [] := append_ne_nil_of_left_ne_nil nests.1 _
    simp only [step, if_neg some_nested, if_neg nests.1, map_none]
  | runtimeError line text => simp only [step, running, setRunning, map_some]
  | typeError line text => simp only [step, running, setRunning, map_some]
  | raise className text => simp only [step, running, setRunning, map_some]
  | convert line memory oom =>
    simp only [step, running, Option.map_map]
    congr 1
    funext r
    simp only [Function.comp_apply]
    split
    · rw [setRunning]
      simp only [within, append_assoc]
    · exact setRunning _
  | enter startedBy => rfl
  | redeclares functionName => simp only [step, running, setRunning, map_some]
  | finish =>
    obtain ⟨root, nested, thrown⟩ := i
    obtain ⟨some_nested, deeper⟩ := nests
    match nested, some_nested, deeper rfl with
    | ⟨startedBy, left⟩ :: l :: below, _, _ =>
      cases startedBy with
      | destructor => rfl
      | invoke => rfl
      | includeFile => rfl

/-- The steps of a run up to the end of its outermost nested execution. -/
def NestsThrough (i : Isolated) : List Action → Prop
  | [] => True
  | a :: rest => i.Nests a ∧ ∀ i', i.step a = some i' → i'.NestsThrough rest

/-- **A nested run is a fresh run**: its errors are those it has when nothing else is pending, and the
errors of the executions around it stay. -/
theorem run_within {i around : Isolated} {actions : List Action} (nests : i.NestsThrough actions) :
    actions.foldlM step (i.within around) = (actions.foldlM step i).map (·.within around) := by
  induction actions generalizing i with
  | nil => rfl
  | cons a rest ih =>
    rw [foldlM_cons, foldlM_cons, step_within nests.1]
    cases taken : i.step a with
    | none => rfl
    | some i' => exact ih (nests.2 i' taken)

end Isolated

/-! ## Runs -/

theorem StaysIsolated.agrees {s : States} {i : Isolated} {actions : List Action}
    (stays : StaysIsolated s i actions) : Agrees s i := by
  cases actions with
  | nil => exact stays
  | cons a rest => exact stays.1

theorem StaysIsolated.run {s s' : States} {i : Isolated} {before rest : List Action}
    (stays : StaysIsolated s i (before ++ rest)) (ran : before.foldlM States.step s = some s') :
    ∃ i', before.foldlM Isolated.step i = some i' ∧ StaysIsolated s' i' rest := by
  induction before generalizing s i with
  | nil =>
    cases ran
    exact ⟨i, rfl, stays⟩
  | cons a before ih =>
    obtain ⟨s₁, taken, further⟩ := bind_eq_some_iff.mp ran
    obtain ⟨i₁, taken', stays'⟩ := stays.2 s₁ taken
    obtain ⟨i', ran', stays''⟩ := ih stays' further
    refine ⟨i', ?_, stays''⟩
    rw [foldlM_cons, taken']
    exact ran'

/-- The induction is on what happens, in any states that agree. -/
theorem staysIsolated_iff {s : States} {i : Isolated} (agrees : Agrees s i) (restores : s.Restores)
    (actions : List Action) : StaysIsolated s i actions ↔ s.CleanRun actions := by
  induction actions generalizing s i with
  | nil => exact iff_true_intro agrees
  | cons a rest ih =>
    cases taken : s.step a with
    | none =>
      have clean := States.clean_of_step_eq_none taken
      simp [StaysIsolated, States.CleanRun, taken, agrees, clean]
    | some s' =>
      have step_iff := agrees.step_iff restores taken
      simp only [StaysIsolated, States.CleanRun, taken, some.injEq, forall_eq', agrees, true_and]
      constructor
      · rintro ⟨i', taken', stays⟩
        have clean := step_iff.mp ⟨i', taken', stays.agrees⟩
        exact ⟨clean, (ih stays.agrees (restores.step clean taken)).mp stays⟩
      · rintro ⟨clean, cleanRun⟩
        obtain ⟨i', taken', agrees'⟩ := step_iff.mpr clean
        exact ⟨i', taken', (ih agrees' (restores.step clean taken)).mpr cleanRun⟩

/-- **Errors are isolated exactly where nothing is left over**: each execution of a run has the error it has by
itself, and the exceptions made of them are the same, if and only if every step is clean. -/
theorem errors_isolated_iff (actions : List Action) :
    StaysIsolated .opened .opened actions ↔ States.opened.CleanRun actions :=
  have agrees : Agrees .opened .opened := ⟨rfl, .nil, rfl⟩
  staysIsolated_iff agrees (States.Restores.of_nested_nil rfl) actions

/-- A builtin raises an error of a class, its argument is released, and the destructor divides by zero. -/
def raisedBeforeDestructor : List Action :=
  [.start, .raise (ascii "TypeError") (ascii "argument 1 must be integer-compatible"), .enter .destructor,
    .runtimeError 3 (ascii "Modulo by zero"), .convert 3 true none]

/-- The destructor's error gets the class of the error that is pending. -/
theorem destructor_error_takes_class :
    ¬ StaysIsolated .opened .opened raisedBeforeDestructor ∧
      (raisedBeforeDestructor.foldlM States.step .opened).map States.thrown =
        some [⟨ascii "TypeError", ascii "Modulo by zero", 3⟩] ∧
      (raisedBeforeDestructor.foldlM Isolated.step .opened).map Isolated.thrown =
        some [⟨ascii "DivisionByZeroError", ascii "Modulo by zero", 3⟩] := by
  have agrees : Agrees .opened .opened := ⟨rfl, .nil, rfl⟩
  refine ⟨?_, by decide +kernel, by decide +kernel⟩
  rw [staysIsolated_iff agrees (States.Restores.of_nested_nil rfl)]
  intro clean
  have no_class := (((clean.2 _ rfl).2 _ rfl).2 _ rfl).1 (by decide) rfl
  exact absurd no_class (by decide)

/-! ## Callbacks -/

/-- An execution that nothing else waits for. -/
def Isolated.alone (startedBy : StartedBy) : Isolated := ⟨none, [(startedBy, none)], []⟩

/-- **What a callback throws is what it throws by itself**: where a run is clean, a nested execution ends with the error
and the exceptions that it has when nothing else runs, and the executions around it still have theirs. -/
theorem nested_errors_own {prior inner : List Action} {startedBy : StartedBy} {s s' : States}
    (clean : States.opened.CleanRun (prior ++ .enter startedBy :: inner))
    (ran : prior.foldlM States.step .opened = some s)
    (ran' : (.enter startedBy :: inner : List Action).foldlM States.step s = some s')
    (nests : (Isolated.alone startedBy).NestsThrough inner) :
    ∃ around own, Agrees s around ∧ inner.foldlM Isolated.step (.alone startedBy) = some own ∧
      Agrees s' (own.within around) := by
  obtain ⟨around, -, stays⟩ := ((errors_isolated_iff _).mpr clean).run ran
  have entered : around.step (.enter startedBy) = some ((Isolated.alone startedBy).within around) :=
    congrArg some (congrArg (Isolated.mk _ _) (append_nil _).symm)
  have agrees : Agrees s around := stays.agrees
  rw [← append_nil (Action.enter startedBy :: inner)] at stays
  obtain ⟨i', ran_within, agrees'⟩ := stays.run ran'
  rw [foldlM_cons, entered] at ran_within
  obtain ⟨own, ran_alone, rfl⟩ := map_eq_some_iff.mp ((Isolated.run_within nests).symm.trans ran_within)
  exact ⟨around, own, agrees, ran_alone, agrees'⟩

/-- A destructor divides by zero and catches that. -/
theorem nested_errors_own_destructor :
    let inner : List Action := [.runtimeError 3 (ascii "Modulo by zero"), .convert 3 true none]
    ∃ s', (Action.enter .destructor :: inner).foldlM States.step .opened = some s' ∧
      ∃ around own, Agrees .opened around ∧ inner.foldlM Isolated.step (.alone .destructor) = some own ∧
        Agrees s' (own.within around) := by
  intro inner
  have ran : ((Action.enter .destructor :: inner).foldlM States.step .opened).isSome = true := by decide +kernel
  obtain ⟨s', ran⟩ := isSome_iff_exists.mp ran
  have clean : States.opened.CleanRun ([] ++ .enter .destructor :: inner) := by
    refine ⟨trivial, fun s₁ entered => ⟨?_, fun s₂ _ => ⟨trivial, fun _ _ => trivial⟩⟩⟩
    cases entered
    exact fun _ _ => rfl
  refine ⟨s', ran, nested_errors_own clean rfl ran ⟨⟨cons_ne_nil _ _, nofun⟩, fun i taken => ⟨⟨?_, nofun⟩, ?_⟩⟩⟩
  · cases taken
    exact cons_ne_nil _ _
  · exact fun _ _ => trivial

end PhpPico.Pending
