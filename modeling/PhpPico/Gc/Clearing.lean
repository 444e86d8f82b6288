import PhpPico.Gc.Once
import PhpPico.Gc.Measure

/-!
# Rolling back definitions and clearing user classes

`rollback_definitions` and `pphp_clear_user_classes` walk over the objects whose classes go away and run their
destructors, as long as one was invoked; then they release what the classes hold. The code that called them waits.
-/

namespace PhpPico.Destruction
open List

/-- `rollback_definitions` and `pphp_clear_user_classes`. -/
inductive Clearing where
  | rollback
  | userClasses
  deriving DecidableEq, Repr

/-- Where an operation is: in its loop, behind it, or back at its caller. -/
inductive Phase where
  | passes
  | releases
  | returned
  deriving DecidableEq, Repr

/-- What the code, the destructors and the classes have an operation do next. -/
inductive Choice where
  | act (action : Action)
  | pass (next : Option Sweep)
  | held (tasks : List Task)
  deriving DecidableEq

/-- An operation that is under way; `base` was on the stack when it was called. -/
structure Operation where
  clearing : Clearing
  base : List Task
  phase : Phase
  state : State

/-- What is done with the values that classes hold: `pv_release`, `pa_destroy` of their arrays, and
`pphp_gc_collect`. -/
def Task.lets : Task → Bool
  | .release _ | .destroyArray _ | .collect => true
  | _ => false

namespace Operation

/-- The next pass of the loop. Rolled back are the classes behind the checkpoint; where
`reachability_build` finds no memory, the user classes stay. -/
def walk (o : Operation) (next : Option Sweep) : Option Operation :=
  let s := { o.state with tasks := o.base }
  match o.clearing, next with
  | .rollback, some (.classes l) => (s.sweepFrom s.objects.head? (.classes l) false).map fun s => { o with state := s }
  | .userClasses, some (.unreached l) =>
    (s.sweepFrom s.objects.head? (.unreached l) false).map fun s => { o with state := s }
  | .userClasses, none => some { o with phase := .returned, state := s }
  | _, _ => none

/-- The call of an operation. -/
def call (clearing : Clearing) (s : State) (next : Option Sweep) : Option Operation :=
  walk ⟨clearing, s.tasks, .passes, s⟩ next

/-- Whether a destructor was invoked, at the end of a pass. -/
def invoked (o : Operation) : Option Bool :=
  match o.state.tasks with
  | .sweep none _ invoked :: rest => if rest = o.base then some invoked else none
  | _ => none

/-- A step of what is on top of the stack. -/
def act (table : ClassTable) (o : Operation) (action : Action) : Option Operation :=
  (o.state.step table action).map fun s => { o with state := s }

/-- One step of an operation that has not returned. -/
def step (table : ClassTable) (o : Operation) (c : Choice) : Option Operation :=
  match o.phase with
  | .passes =>
    match o.invoked, c with
    | none, .act action => o.act table action
    | some true, .pass next => o.walk next
    | some false, .held l =>
      if l.all Task.lets then some { o with phase := .releases, state := { o.state with tasks := l ++ o.base } }
      else none
    | _, _ => none
  | .releases =>
    if o.state.tasks = o.base then some { o with phase := .returned }
    else match c with
      | .act action => o.act table action
      | _ => none
  | .returned => none

end Operation

/-- A run of an operation goes on as long as the operation has not returned. -/
def Runs (table : ClassTable) (o : Nat → Operation) : Prop :=
  ∀ n, (o n).phase = .returned ∧ o (n + 1) = o n ∨ ∃ c, (o n).step table c = some (o (n + 1))

/-- Each destructor of an operation returns: what was below its code comes on top again. -/
def DestructorsReturn (o : Nat → Operation) : Prop :=
  ∀ n rest, (o n).state.tasks = .code :: rest → (o n).base <:+ rest → ∃ m ≥ n, (o m).state.tasks = rest

/-- The destructor of `a` was invoked on top of `rest` in the step from `m` on, and it has not returned
at `n`. -/
structure Running (o : Nat → Operation) (a m n : Nat) (rest : List Task) : Prop where
  began : m < n
  events : (o (m + 1)).state.events = (o m).state.events ++ [Event.invoked a]
  tasks : (o (m + 1)).state.tasks = .code :: rest
  inside : (o (m + 1)).base <:+ rest
  stays : ∀ k, m < k → k ≤ n → .code :: rest <:+ (o k).state.tasks

/-- `b` is created while the destructor of `a` runs. -/
def Creates (o : Nat → Operation) (a b : Nat) : Prop :=
  ∃ m n rest, Running o a m n rest ∧ (o n).state.class_entry b = none ∧ (o (n + 1)).state.class_entry b ≠ none


/-! ## What a step changes -/

namespace State

/-- What every step keeps, as long as the stack does not run out. -/
structure Keeps (table : ClassTable) (s s' : State) : Prop where
  waits : ∀ a, s'.Waits table a → s.Waits table a ∨ s.class_entry a = none
  entry : ∀ a, s.class_entry a ≠ none → s'.class_entry a = s.class_entry a
  invoked : ∀ a, s'.events = s.events ++ [Event.invoked a] → s.Waits table a ∧ ¬ s'.Waits table a

section Steps
variable {table : ClassTable} {s s' : State} {a : Nat} {action : Action} {rest : List Task} {ready : Bool}

theorem Stepped.keeps (h : Stepped table action s s') (more : s'.tasks ≠ []) : s.Keeps table s' := by
  have alone : ∀ {a : Nat} {events : List Event}, events = events ++ [Event.invoked a] → False := by
    intro a events same
    have := congrArg List.length same
    simp only [length_append, length_singleton] at this
    omega
  constructor
  · intro a waits
    cases h.fate a with
    | stays same => exact .inl (same.mp waits)
    | born unborn => exact .inr unborn
    | invoked waits => exact .inl waits
    | lost loses => exact .inl loses.1
    | left loses => exact .inl loses.1
  · intro a born
    cases h.fate a with
    | stays _ entry => exact entry
    | born unborn => exact absurd unborn born
    | invoked _ _ entry => exact entry
    | lost _ _ entry => exact entry
    | left _ none => exact absurd none more
  · intro a events
    cases h.fate a with
    | stays _ _ new =>
      obtain ⟨new, appended, silent, -⟩ := new
      rw [events] at appended
      exact absurd (append_cancel_left appended ▸ mem_singleton_self _) silent
    | born _ _ _ same => exact (alone (same.symm.trans events)).elim
    | invoked waits flagged => exact ⟨waits, flagged⟩
    | lost _ _ _ same => exact (alone (same.symm.trans events)).elim
    | left _ none => exact absurd none more

theorem act_tasks (top : s.tasks = .code :: rest) (below : rest ≠ []) (h : s.act action = some s') :
    (∃ pushed, (∀ t ∈ pushed, t.plain = true) ∧ s'.tasks = pushed ++ s.tasks) ∨ s'.tasks = rest := by
  have stays : ∀ {s' : State}, s'.tasks = s.tasks →
      (∃ pushed, (∀ t ∈ pushed, t.plain = true) ∧ s'.tasks = pushed ++ s.tasks) ∨ s'.tasks = rest :=
    fun same => .inl ⟨[], nofun, same⟩
  cases action with
  | go ready => cases h
  | make type slots =>
    simp only [act] at h
    split at h
    · cases h
    · cases h
      exact stays rfl
  | new k slots =>
    obtain ⟨s₁, retained, h⟩ := Option.bind_eq_some_iff.mp h
    cases h
    exact stays (quiet_retains retained).2.2
  | constructed a =>
    simp only [act] at h
    split at h
    · cases h
    · split at h
      · cases h
        exact stays rfl
      · cases h
  | retain a => exact stays (quiet_retain h).2.2
  | release a =>
    cases h
    exact .inl ⟨[.release a], plain_one rfl, rfl⟩
  | write a slots =>
    obtain ⟨v, -, rfl⟩ := Option.map_eq_some_iff.mp h
    exact stays rfl
  | sweep which =>
    simp only [act] at h
    split at h
    · cases h
    · exact .inl ⟨[_], plain_one rfl, (quiet_sweepFrom h).2.2⟩
  | collect =>
    cases h
    exact .inl ⟨[.collect], plain_one rfl, rfl⟩
  | done =>
    simp only [act] at h
    split at h
    · cases h
    · cases h
      rw [top]
      exact .inr rfl
  | close =>
    simp only [act] at h
    split at h
    · next alone =>
      rw [top] at alone
      exact absurd (cons.inj alone).2 below
    · cases h

theorem visit_tasks {which : Sweep} {i : Bool} (h : s.visit table ready a which i = some s') :
    ∃ pushed next j, s'.tasks = pushed ++ .sweep next which j :: s.tasks := by
  have above : ∀ {t t' : State} {ready : Bool}, t.runDestructor table ready a = some t' → ∃ pushed, t'.tasks = pushed ++ t.tasks := by
    intro t t' ready h
    by_cases waits : t.Waits table a
    · obtain ⟨pushed, -, tasks | ⟨tasks, -⟩⟩ := runDestructor_tasks h waits
      · exact ⟨pushed, tasks⟩
      · exact ⟨.code :: pushed, tasks⟩
    · exact ⟨[], congrArg tasks (runDestructor_of_not h waits)⟩
  unfold visit at h
  split at h
  · cases h
  · split at h
    · cases h
    · split at h
      · obtain ⟨s₁, moved, h⟩ := Option.bind_eq_some_iff.mp h
        obtain ⟨pushed, tasks⟩ := above h
        have below := (quiet_sweepFrom moved).2.2
        rw [push, below, ← append_assoc] at tasks
        exact ⟨_, _, _, tasks⟩
      · obtain ⟨s₁, moved, h⟩ := Option.bind_eq_some_iff.mp h
        cases h
        have below := (quiet_sweepFrom moved).2.2
        have tasks : (s₁.push [.release a]).tasks = [Task.release a] ++ s₁.tasks := rfl
        rw [below] at tasks
        exact ⟨_, _, _, tasks⟩

theorem stepped_pass {next which : Sweep} {i : Bool} (inv : s.Inv table) (top : s.tasks = .sweep none which i :: rest)
    (moved : ({ s with tasks := rest } : State).sweepFrom s.objects.head? next false = some s') :
    Stepped table .done s s' := by
  obtain ⟨quiet, events, tasks⟩ := quiet_sweepFrom moved
  refine ((quiet_tasks s rest).trans quiet).stepped_top inv top events (p := [_]) tasks nofun ?_ ?_
  · intro t ht
    cases mem_singleton.mp ht
    exact ⟨nofun, nofun⟩
  · rintro x ⟨-, loses⟩
    rw [top] at loses
    exact loses

theorem stepped_held {which : Sweep} {i : Bool} {l : List Task} (inv : s.Inv table)
    (top : s.tasks = .sweep none which i :: rest) (held : l.all Task.lets = true) :
    Stepped table .done s { s with tasks := l ++ rest } := by
  refine (quiet_tasks s (l ++ rest)).stepped_top inv top rfl (p := l) rfl nofun ?_ ?_
  · intro t ht
    have lets := List.all_eq_true.mp held t ht
    cases t with
    | release a => exact ⟨nofun, nofun⟩
    | destroyArray a => exact ⟨nofun, nofun⟩
    | collect => exact ⟨nofun, nofun⟩
    | _ => cases lets
  · rintro x ⟨-, loses⟩
    rw [top] at loses
    exact loses

end Steps
end State

/-- How far from its end an operation is. -/
def Phase.rank : Phase → Nat
  | .passes => 2
  | .releases => 1
  | .returned => 0

namespace Operation

/-- An operation that has not returned has its tasks on top of those of its caller; in its loop, the
walk is among them. -/
structure Inside (o : Operation) : Prop where
  going : o.phase ≠ .returned
  called : o.base ≠ []
  own : ∃ p, o.state.tasks = p ++ o.base ∧ (∀ t ∈ p, t = .code ∨ t.plain = true) ∧
    (o.phase = .passes → ∃ q next which i, p = q ++ [Task.sweep next which i])

/-- A later phase, or the same and less to do. -/
def Falls (width : Nat) (o o' : Operation) : Prop :=
  o'.phase.rank < o.phase.rank ∨ o'.phase = o.phase ∧ o.state.Eases width o'.state

/-- What a step of an operation comes to: the code on top acts, the runtime works, or a destructor is
invoked. The runtime has less and less to do as long as it flags no object. -/
inductive Moves (table : ClassTable) (o o' : Operation) : Prop where
  | code (below : List Task) (top : o.state.tasks = .code :: below) (inside : o.base <:+ below)
      (pushed rest : List Task) (tasks : o'.state.tasks = pushed ++ rest) (suffix : rest <:+ o.state.tasks)
      (plain : ∀ t ∈ pushed, t.plain = true)
  | runtime (pushed rest : List Task) (tasks : o'.state.tasks = pushed ++ rest) (suffix : rest <:+ o.state.tasks)
      (plain : ∀ t ∈ pushed, t.plain = true) (entry : o'.state.class_entry = o.state.class_entry)
      (falls : (∀ a, o.state.Waits table a → o'.state.Waits table a) → ∀ width, o.state.gc.Narrow width →
        o'.state.gc.Narrow width ∧ Falls width o o')
  | invokes (a : Nat) (pushed rest : List Task) (tasks : o'.state.tasks = Task.code :: pushed ++ rest)
      (suffix : rest <:+ o.state.tasks) (plain : ∀ t ∈ pushed, t.plain = true)
      (entry : o'.state.class_entry = o.state.class_entry)
      (events : o'.state.events = o.state.events ++ [Event.invoked a])

section Operations
variable {table : ClassTable} {o o' : Operation} {action : Action}

theorem act_frame (h : o.act table action = some o') : o'.base = o.base ∧ o'.phase = o.phase := by
  obtain ⟨s, -, rfl⟩ := Option.map_eq_some_iff.mp h
  exact ⟨rfl, rfl⟩

theorem step_going {c : Choice} (h : o.step table c = some o') : o.phase ≠ .returned := by
  intro back
  unfold step at h
  rw [back] at h
  cases h

/-- The walk of a loop is below what is put on the stack. -/
theorem own_append {q : List Task} (l : List Task) (own : ∃ r next which i, q = r ++ [Task.sweep next which i]) :
    ∃ r next which i, l ++ q = r ++ [Task.sweep next which i] := by
  obtain ⟨r, next, which, i, rfl⟩ := own
  exact ⟨l ++ r, next, which, i, (append_assoc l r _).symm⟩

theorem own_tail {t : Task} {q : List Task} (own : ∃ r next which i, t :: q = r ++ [Task.sweep next which i]) :
    (∃ r next which i, q = r ++ [Task.sweep next which i]) ∨ q = [] ∧ ∃ next which i, t = .sweep next which i := by
  obtain ⟨r, next, which, i, same⟩ := own
  cases r with
  | nil =>
    cases same
    exact .inr ⟨rfl, next, which, i, rfl⟩
  | cons x r =>
    cases same
    exact .inl ⟨r, next, which, i, rfl⟩

theorem code_or_plain {l q : List Task} (plain : ∀ t ∈ l, t.plain = true) (q_ok : ∀ t ∈ q, t = .code ∨ t.plain = true) :
    ∀ t ∈ l ++ q, t = .code ∨ t.plain = true := by
  intro t ht
  rcases mem_append.mp ht with new | old
  · exact .inr (plain t new)
  · exact q_ok t old

/-- A step of what is on top of the stack. -/
theorem act_moves (inv : o.state.Inv table) (inside : o.Inside) (more : o.state.tasks ≠ o.base)
    (loop : o.phase = .passes → o.invoked = none) (h : o.act table action = some o') :
    Moves table o o' ∧ o'.Inside ∧ State.Stepped table action o.state o'.state := by
  obtain ⟨s', stepped, rfl⟩ := Option.map_eq_some_iff.mp h
  have sound := State.stepped inv stepped
  obtain ⟨p, tasks, kinds, own⟩ := inside.own
  obtain ⟨t, q, rfl⟩ := exists_cons_of_ne_nil (fun none : p = [] => more (by rw [tasks, none]; rfl))
  have below : q ++ o.base ≠ [] := fun none => inside.called (append_eq_nil_iff.mp none).2
  have rest_kinds : ∀ t ∈ q, t = .code ∨ t.plain = true := fun t ht => kinds t (.tail _ ht)
  have suffix : q ++ o.base <:+ o.state.tasks := by
    rw [tasks]
    exact suffix_cons t _
  rcases kinds t (.head _) with rfl | plain
  · have act : o.state.act action = some s' := by
      unfold State.step at stepped
      rw [tasks] at stepped
      exact stepped
    rcases State.act_tasks tasks below act with ⟨pushed, plain, tasks'⟩ | tasks'
    · refine ⟨.code _ tasks (suffix_append q o.base) pushed _ tasks' (suffix_refl _) plain, ⟨inside.going, inside.called, ?_⟩, sound⟩
      refine ⟨pushed ++ .code :: q, ?_, code_or_plain plain kinds, fun passes => own_append pushed (own passes)⟩
      rw [tasks', tasks, append_assoc]
    · refine ⟨.code _ tasks (suffix_append q o.base) [] _ tasks' suffix nofun,
        ⟨inside.going, inside.called, q, tasks', rest_kinds, fun passes => ?_⟩, sound⟩
      rcases own_tail (own passes) with own | ⟨-, next, which, i, same⟩
      · exact own
      · cases same
  · obtain ⟨ready, rfl, work⟩ : ∃ ready, action = .go ready ∧
        ({ o.state with tasks := q ++ o.base } : State).work table ready t = some s' := by
      unfold State.step at stepped
      rw [cons_append] at tasks
      rw [tasks] at stepped
      cases t with
      | code => cases plain
      | definitions => cases plain
      | freeState => cases plain
      | _ =>
        cases action with
        | go ready => exact ⟨ready, rfl, stepped⟩
        | _ => cases stepped
    have outcome : ∀ width, o.state.gc.Narrow width → State.Outcome table width o.state (q ++ o.base) s' :=
      fun width narrow => State.outcome_work inv narrow tasks plain work
    obtain ⟨width, narrow⟩ := Gc.exists_narrow o.state.gc
    -- the walk of the loop is still there
    have stays : ∀ pushed, s'.tasks = pushed ++ (q ++ o.base) → o.phase = .passes →
        ∃ r next which i, pushed ++ q = r ++ [Task.sweep next which i] := by
      intro pushed tasks' passes
      rcases own_tail (own passes) with own | ⟨rfl, next, which, i, rfl⟩
      · exact own_append pushed own
      · cases next with
        | none =>
          have ended := loop passes
          unfold invoked at ended
          rw [tasks] at ended
          simp only [singleton_append, if_true, reduceCtorEq] at ended
        | some a =>
          obtain ⟨above, next, j, tasks''⟩ := State.visit_tasks work
          have same : pushed ++ [] ++ o.base = above ++ [Task.sweep next which j] ++ o.base := by
            rw [append_assoc, append_assoc]
            exact tasks'.symm.trans tasks''
          exact ⟨above, next, which, j, append_cancel_right same⟩
    have inside' : ∀ pushed l, s'.tasks = pushed ++ l ++ (q ++ o.base) → (∀ t ∈ l, t.plain = true) →
        (∀ t ∈ pushed, t = .code) → Inside { o with state := s' } := by
      intro pushed l tasks' plain codes
      refine ⟨inside.going, inside.called, pushed ++ l ++ q, ?_, ?_, fun passes => stays _ tasks' passes⟩
      · rw [append_assoc (pushed ++ l)]
        exact tasks'
      · rw [append_assoc]
        intro t ht
        rcases mem_append.mp ht with code | ht
        · exact .inl (codes t code)
        · exact code_or_plain plain rest_kinds t ht
    refine ⟨?_, ?_, sound⟩
    · have runtime : ∀ pushed, s'.tasks = pushed ++ (q ++ o.base) → (∀ t ∈ pushed, t.plain = true) →
          s'.class_entry = o.state.class_entry → Moves table o { o with state := s' } := by
        intro pushed tasks' plain' entry
        refine .runtime pushed _ tasks' suffix plain' entry fun unflagged width narrow => ?_
        cases outcome width narrow with
        | eases _ _ _ _ narrow' less => exact ⟨narrow', .inr ⟨rfl, less⟩⟩
        | flags a waits flagged => exact absurd (unflagged a waits) flagged
        | invokes a waits flagged => exact absurd (unflagged a waits) flagged
      cases outcome width narrow with
      | eases pushed tasks' plain' entry => exact runtime pushed tasks' plain' entry
      | flags _ _ _ pushed tasks' plain' entry => exact runtime pushed tasks' plain' entry
      | invokes a _ _ pushed tasks' plain' entry events =>
        exact .invokes a pushed _ tasks' suffix plain' entry events
    · cases outcome width narrow with
      | eases pushed tasks' plain' => exact inside' [] pushed tasks' plain' nofun
      | flags _ _ _ pushed tasks' plain' => exact inside' [] pushed tasks' plain' nofun
      | invokes _ _ _ pushed tasks' plain' =>
        exact inside' [.code] pushed tasks' plain' fun t ht => mem_singleton.mp ht

theorem invoked_eq_some {i : Bool} (h : o.invoked = some i) : ∃ which, o.state.tasks = .sweep none which i :: o.base := by
  unfold invoked at h
  split at h
  · next which j rest tasks =>
    split at h
    · next here =>
      cases h
      exact ⟨which, here ▸ tasks⟩
    · cases h
  · cases h

theorem walk_eq_some {next : Option Sweep} (h : o.walk next = some o')
    (going : o'.phase ≠ .returned) : ∃ which s,
      ({ o.state with tasks := o.base } : State).sweepFrom o.state.objects.head? which false = some s ∧
        o' = { o with state := s } := by
  unfold walk at h
  simp only at h
  split at h
  · obtain ⟨s, moved, rfl⟩ := Option.map_eq_some_iff.mp h
    exact ⟨_, s, moved, rfl⟩
  · obtain ⟨s, moved, rfl⟩ := Option.map_eq_some_iff.mp h
    exact ⟨_, s, moved, rfl⟩
  · cases h
    exact absurd rfl going
  · cases h

/-- **One step** of an operation that does not return yet. -/
theorem step_moves {c : Choice} (inv : o.state.Inv table) (inside : o.Inside) (h : o.step table c = some o')
    (going : o'.phase ≠ .returned) :
    Moves table o o' ∧ o'.Inside ∧ o'.base = o.base ∧ ∃ action, State.Stepped table action o.state o'.state := by
  unfold step at h
  split at h
  · next passes =>
    split at h
    · next action loop =>
      have more : o.state.tasks ≠ o.base := by
        obtain ⟨p, tasks, -, own⟩ := inside.own
        obtain ⟨q, next, which, i, rfl⟩ := own passes
        rw [tasks]
        intro same
        have := congrArg List.length same
        simp only [length_append, length_singleton] at this
        omega
      obtain ⟨moves, inside', stepped⟩ := act_moves inv inside more (fun _ => loop) h
      exact ⟨moves, inside', (act_frame h).1, action, stepped⟩
    · next next ended =>
      obtain ⟨which, top⟩ := invoked_eq_some ended
      obtain ⟨which', s, moved, rfl⟩ := walk_eq_some h going
      obtain ⟨tasks, -, entry, -⟩ := State.sweepFrom_spec 0 moved
      have suffix : o.base <:+ o.state.tasks := by
        rw [top]
        exact suffix_cons _ _
      refine ⟨.runtime [_] o.base tasks suffix (State.plain_one rfl) entry fun _ width narrow => ?_, ?_, rfl, .done,
        State.stepped_pass inv top moved⟩
      · obtain ⟨-, -, -, kept, -⟩ := State.sweepFrom_spec width moved
        exact ⟨kept narrow, .inr ⟨rfl, State.eases_of_rounds [_] top tasks (Nat.lt_succ_self _)⟩⟩
      · refine ⟨inside.going, inside.called, [_], tasks, ?_, fun _ => ⟨[], _, _, _, rfl⟩⟩
        intro t ht
        cases mem_singleton.mp ht
        exact .inr rfl
    · next l ended =>
      obtain ⟨which, top⟩ := invoked_eq_some ended
      split at h
      · next held =>
        cases h
        have plain : ∀ t ∈ l, t.plain = true := by
          intro t ht
          have lets := List.all_eq_true.mp held t ht
          cases t with
          | release a => rfl
          | destroyArray a => rfl
          | collect => rfl
          | _ => cases lets
        have suffix : o.base <:+ o.state.tasks := by
          rw [top]
          exact suffix_cons _ _
        refine ⟨.runtime l o.base rfl suffix plain rfl fun _ width narrow => ⟨narrow, .inl ?_⟩,
          ⟨going, inside.called, l, rfl, fun t ht => .inr (plain t ht), nofun⟩, rfl, .done, State.stepped_held inv top held⟩
        rw [passes]
        exact Nat.lt_succ_self _
      · cases h
    · cases h
  · next releases =>
    split at h
    · cases h
      exact absurd rfl going
    · next more =>
      split at h
      · next action =>
        obtain ⟨moves, inside', stepped⟩ := act_moves inv inside more
          (fun passes => nomatch releases.symm.trans passes) h
        exact ⟨moves, inside', (act_frame h).1, action, stepped⟩
      · cases h
  · cases h

theorem step_base {c : Choice} (h : o.step table c = some o') : o'.base = o.base := by
  unfold step at h
  split at h
  · split at h
    · exact (act_frame h).1
    · unfold walk at h
      simp only at h
      split at h
      · obtain ⟨s, moved, rfl⟩ := Option.map_eq_some_iff.mp h
        rfl
      · obtain ⟨s, moved, rfl⟩ := Option.map_eq_some_iff.mp h
        rfl
      · cases h
        rfl
      · cases h
    · split at h
      · cases h
        rfl
      · cases h
    · cases h
  · split at h
    · cases h
      rfl
    · split at h
      · exact (act_frame h).1
      · cases h
  · cases h

theorem keeps_of_same {s s' : State} (gc : s'.gc = s.gc) (entry : s'.class_entry = s.class_entry)
    (events : s'.events = s.events) : s.Keeps table s' := by
  refine ⟨fun a waits => .inl ?_, fun a _ => congrFun entry a, fun a appended => ?_⟩
  · exact (State.waits_congr (by rw [gc]) (congrFun entry a)).mp waits
  · have := congrArg List.length (events.symm.trans appended)
    simp only [length_append, length_singleton] at this
    omega

theorem step_returns {c : Choice} (inside : o.Inside) (h : o.step table c = some o') (back : o'.phase = .returned) :
    o.state.Keeps table o'.state := by
  unfold step at h
  split at h
  · next passes =>
    split at h
    · exact absurd ((act_frame h).2.symm.trans back) inside.going
    · unfold walk at h
      simp only at h
      split at h
      · obtain ⟨s, moved, rfl⟩ := Option.map_eq_some_iff.mp h
        exact absurd back inside.going
      · obtain ⟨s, moved, rfl⟩ := Option.map_eq_some_iff.mp h
        exact absurd back inside.going
      · cases h
        exact keeps_of_same rfl rfl rfl
      · cases h
    · split at h
      · cases h
        cases back
      · cases h
    · cases h
  · split at h
    · cases h
      exact keeps_of_same rfl rfl rfl
    · split at h
      · exact absurd ((act_frame h).2.symm.trans back) inside.going
      · cases h
  · cases h

end Operations

end Operation

end PhpPico.Destruction
