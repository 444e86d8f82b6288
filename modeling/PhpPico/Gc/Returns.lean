import Mathlib.Data.Prod.Lex
import Mathlib.Order.Lattice.Nat
import Mathlib.Tactic.IntervalCases
import PhpPico.Lib.Offspring
import PhpPico.Gc.Clearing

/-!
# When an operation returns

An operation invokes destructors as long as there are objects whose destructors were not invoked; others were created
while a destructor ran. So the operation returns, if each destructor does, unless an object's destructor creates an
object whose destructor creates an object, and so on.
-/

namespace PhpPico.Destruction
open List

/-! ## Runs of an operation -/

/-- A run that begins where the operation has just been called. -/
structure Begun (table : ClassTable) (o : Nat → Operation) : Prop where
  runs : Runs table o
  inv : (o 0).state.Inv table
  inside : (o 0).Inside
  walks : ∃ next which i, (o 0).state.tasks = .sweep next which i :: (o 0).base

/-- The first time an object is there. -/
noncomputable def birth (o : Nat → Operation) (a : Nat) : Nat := sInf {n | (o n).state.class_entry a ≠ none}

variable {rest : List Task} {table : ClassTable} {o : Nat → Operation}

theorem suffix_of_plain {pushed l : List Task} (plain : ∀ t ∈ pushed, t.plain = true)
    (h : .code :: rest <:+ pushed ++ l) : .code :: rest <:+ l := by
  induction pushed with
  | nil => exact h
  | cons t pushed ih =>
    rw [cons_append, suffix_cons_iff] at h
    rcases h with same | h
    · have := plain t (.head _)
      rw [← (cons.inj same).1] at this
      cases this
    · exact ih (fun t ht => plain t (.tail _ ht)) h

theorem not_suffix_cons {t : Task} {l : List Task} (h : t :: rest <:+ l) : ¬ l <:+ rest := by
  intro h'
  have := (h.trans h').length_le
  rw [length_cons] at this
  omega

theorem Runs.still {n : Nat} (runs : Runs table o)
    (back : (o n).phase = .returned) : ∀ k ≥ n, o (k + 1) = o k ∧ (o k).phase = .returned := by
  have one : ∀ k, (o k).phase = .returned → o (k + 1) = o k := by
    intro k here
    rcases runs k with ⟨-, same⟩ | ⟨c, step⟩
    · exact same
    · exact absurd here (Operation.step_going step)
  intro k le
  induction le with
  | refl => exact ⟨one n back, back⟩
  | @step k _ ih =>
    have here : (o (k + 1)).phase = .returned := by
      rw [ih.1]
      exact ih.2
    exact ⟨one (k + 1) here, here⟩

namespace Begun
variable {table : ClassTable} {o : Nat → Operation}

theorem ordered (b : Begun table o) (n : Nat) : (o n).base = (o 0).base ∧ ((o n).phase ≠ .returned →
    (o n).state.Inv table ∧ (o n).Inside) := by
  induction n with
  | zero => exact ⟨rfl, fun _ => ⟨b.inv, b.inside⟩⟩
  | succ n ih =>
    rcases b.runs n with ⟨back, same⟩ | ⟨c, step⟩
    · rw [same]
      exact ih
    · have going := Operation.step_going step
      obtain ⟨inv, inside⟩ := ih.2 going
      by_cases back : (o (n + 1)).phase = .returned
      · refine ⟨(Operation.step_base step).trans ih.1, fun still => absurd back still⟩
      · obtain ⟨-, inside', base, action, stepped⟩ := Operation.step_moves inv inside step back
        exact ⟨base.trans ih.1, fun _ => ⟨stepped.inv, inside'⟩⟩

theorem keeps (b : Begun table o) (n : Nat) : (o n).state.Keeps table (o (n + 1)).state := by
  rcases b.runs n with ⟨back, same⟩ | ⟨c, step⟩
  · rw [same]
    exact Operation.keeps_of_same rfl rfl rfl
  · obtain ⟨inv, inside⟩ := (b.ordered n).2 (Operation.step_going step)
    by_cases back : (o (n + 1)).phase = .returned
    · exact Operation.step_returns inside step back
    · obtain ⟨-, inside', -, action, stepped⟩ := Operation.step_moves inv inside step back
      apply stepped.keeps
      obtain ⟨p, tasks, -⟩ := inside'.own
      rw [tasks]
      exact fun none => inside'.called (append_eq_nil_iff.mp none).2

variable {a n : Nat}

theorem entry_mono (b : Begun table o) {m : Nat} (le : m ≤ n) (born : (o m).state.class_entry a ≠ none) :
    (o n).state.class_entry a ≠ none := by
  induction le with
  | refl => exact born
  | step _ ih =>
    rw [(b.keeps _).entry a ih]
    exact ih

/-- An object whose flag is up waits no more. -/
theorem never_again (b : Begun table o) {m : Nat} (le : m ≤ n) (born : (o m).state.class_entry a ≠ none)
    (flagged : ¬ (o m).state.Waits table a) : ¬ (o n).state.Waits table a := by
  induction le with
  | refl => exact flagged
  | step le ih =>
    intro waits
    rcases (b.keeps _).waits a waits with waits | unborn
    · exact ih waits
    · exact b.entry_mono le born unborn

theorem birth_le (born : (o n).state.class_entry a ≠ none) : birth o a ≤ n := Nat.sInf_le born

theorem lt_birth (b : Begun table o) (unborn : (o n).state.class_entry a = none)
    (born : (o (n + 1)).state.class_entry a ≠ none) : n < birth o a := by
  have there : (o (birth o a)).state.class_entry a ≠ none :=
    Nat.sInf_mem (s := {n | (o n).state.class_entry a ≠ none}) ⟨n + 1, born⟩
  exact not_le.mp fun le => b.entry_mono le there unborn

theorem birth_lt (b : Begun table o) {c : Nat} (creates : Creates o a c) : birth o a < birth o c := by
  obtain ⟨m, n, rest, running, unborn, born⟩ := creates
  have waits := ((b.keeps m).invoked a running.events).1
  exact lt_of_le_of_lt (birth_le waits.entry) (running.began.trans (b.lt_birth unborn born))

/-- **An operation that returns** has created no endless chain. -/
theorem ends_of_returned (b : Begun table o) (back : (o n).phase = .returned) : Offspring.EndsEvery (Creates o) := by
  have bounded : ∀ {a c : Nat}, Creates o a c → birth o c ≤ n := by
    rintro a c ⟨m, k, rest, running, unborn, born⟩
    have before : k < n := by
      refine not_le.mp fun le => ?_
      rw [(b.runs.still back k le).1] at born
      exact born unborn
    exact le_trans (birth_le born) before
  refine Subrelation.wf (fun {c a} creates => ?_) (measure fun a => n - birth o a).wf
  have younger := b.birth_lt creates
  have := bounded creates
  show n - birth o c < n - birth o a
  omega

end Begun

/-! ## Runs without end -/

/-- A run in which the operation does not return, although each destructor does. -/
structure Endless (table : ClassTable) (o : Nat → Operation) : Prop extends Begun table o where
  going : ∀ n, (o n).phase ≠ .returned
  returns : DestructorsReturn o

theorem Running.extend {a m n : Nat} (h : Running o a m n rest)
    (still : .code :: rest <:+ (o (n + 1)).state.tasks) : Running o a m (n + 1) rest := by
  refine ⟨Nat.lt_succ_of_lt h.began, h.events, h.tasks, h.inside, fun k lt le => ?_⟩
  rcases Nat.lt_or_eq_of_le le with lt' | rfl
  · exact h.stays k lt (Nat.le_of_lt_succ lt')
  · exact still

namespace Endless
variable {table : ClassTable} {o : Nat → Operation}

theorem base_eq (e : Endless table o) (m n : Nat) : (o m).base = (o n).base :=
  (e.ordered m).1.trans (e.ordered n).1.symm

theorem moves (e : Endless table o) (n : Nat) : (o n).Moves table (o (n + 1)) := by
  obtain ⟨inv, inside⟩ := (e.ordered n).2 (e.going n)
  rcases e.runs n with ⟨back, -⟩ | ⟨c, step⟩
  · exact absurd back (e.going n)
  · exact (Operation.step_moves inv inside step (e.going (n + 1))).1

variable {n a m : Nat}

theorem started (e : Endless table o) {rest : List Task} (code : .code :: rest <:+ (o n).state.tasks)
    (inside : (o n).base <:+ rest) : ∃ a m, Running o a m n rest := by
  induction n with
  | zero =>
    obtain ⟨next, which, i, tasks⟩ := e.walks
    rw [tasks, suffix_cons_iff] at code
    rcases code with same | code
    · cases same
    · exact absurd inside (not_suffix_cons code)
  | succ n ih =>
    rw [e.base_eq (n + 1) n] at inside
    have older : ∀ {l : List Task}, l <:+ (o n).state.tasks → .code :: rest <:+ l → ∃ a m, Running o a m (n + 1) rest := by
      intro l suffix here
      obtain ⟨a, m, running⟩ := ih (here.trans suffix) inside
      exact ⟨a, m, running.extend code⟩
    cases e.moves n with
    | code _ _ _ pushed l tasks suffix plain =>
      rw [tasks] at code
      exact older suffix (suffix_of_plain plain code)
    | runtime pushed l tasks suffix plain =>
      rw [tasks] at code
      exact older suffix (suffix_of_plain plain code)
    | invokes a pushed l tasks suffix plain _ events =>
      rw [tasks, cons_append, suffix_cons_iff] at code
      rcases code with same | code
      · have behind := (cons.inj same).2
        refine ⟨a, n, Nat.lt_succ_self n, events, ?_, ?_, fun k lt le => ?_⟩
        · rw [tasks, behind]
          rfl
        · rw [e.base_eq (n + 1) n]
          exact inside
        · rw [le_antisymm le lt, tasks, behind]
          exact suffix_refl _
      · exact older suffix (suffix_of_plain plain code)

/-- The flag of an object goes up. -/
def Flags (table : ClassTable) (o : Nat → Operation) (n a : Nat) : Prop :=
  (o n).state.Waits table a ∧ ¬ (o (n + 1)).state.Waits table a

theorem flags_of_running (e : Endless table o) {rest : List Task} (running : Running o a m n rest) :
    Flags table o m a := (e.keeps m).invoked a running.events

theorem flags_lt (e : Endless table o) (first : Flags table o m a) (later : Flags table o n a) : n ≤ m := by
  refine not_lt.mp fun lt => e.never_again lt ?_ first.2 later.1
  exact e.entry_mono (Nat.le_succ m) first.1.entry

theorem flags_once (e : Endless table o) (one : Flags table o m a) (other : Flags table o n a) : m = n :=
  le_antisymm (e.flags_lt other one) (e.flags_lt one other)

theorem created (e : Endless table o) (born : (o n).state.class_entry a ≠ none) :
    (o 0).state.class_entry a ≠ none ∨ ∃ m p, Flags table o m p ∧ Creates o p a := by
  induction n with
  | zero => exact .inl born
  | succ n ih =>
    by_cases before : (o n).state.class_entry a = none
    · cases e.moves n with
      | code below top inside =>
        have suffix : .code :: below <:+ (o n).state.tasks := by
          rw [top]
        obtain ⟨p, m, running⟩ := e.started suffix inside
        exact .inr ⟨m, p, e.flags_of_running running, m, n, below, running, before, born⟩
      | runtime _ _ _ _ _ entry => exact absurd (entry ▸ before) born
      | invokes _ _ _ _ _ _ entry => exact absurd (entry ▸ before) born
    · exact ih before

theorem born_finite (e : Endless table o) (n : Nat) : {a | (o n).state.class_entry a ≠ none}.Finite :=
  (Set.finite_Iio (o n).state.size).subset fun a born => ((e.ordered n).2 (e.going n)).1.classed a born

theorem creates_finite (e : Endless table o) (a : Nat) : {c | Creates o a c}.Finite := by
  by_cases never : ∃ m n rest, Running o a m n rest
  · obtain ⟨m, n, rest, running⟩ := never
    obtain ⟨k, late, back⟩ := e.returns (m + 1) rest running.tasks running.inside
    refine ((Set.finite_Iio k).biUnion fun n _ => e.born_finite (n + 1)).subset ?_
    rintro c ⟨m', n', rest', running', unborn, born⟩
    have same := e.flags_once (e.flags_of_running running) (e.flags_of_running running')
    subst same
    have rest_eq := (cons.inj (running.tasks.symm.trans running'.tasks)).2
    subst rest_eq
    refine Set.mem_biUnion (x := n') ?_ born
    -- at `k` the code is gone
    refine Nat.not_le.mp fun le => ?_
    have still := running'.stays k late le
    rw [back] at still
    exact not_suffix_cons still (suffix_refl rest)
  · refine Set.Finite.subset Set.finite_empty ?_
    rintro c ⟨m, n, rest, running, -⟩
    exact never ⟨m, n, rest, running⟩

/-- The flags that go up in a run, and what creates the objects. -/
noncomputable def process (e : Endless table o) : Offspring.Process Nat where
  spends := Flags table o
  begets := Creates o
  founders := {a | (o 0).state.class_entry a ≠ none}
  once _ _ _ := e.flags_once
  first := e.born_finite 0
  source _ _ flags := e.created flags.1.entry
  few := e.creates_finite
  older := Subrelation.wf (fun {_ _} creates => e.birth_lt creates) (measure (birth o)).wf

/-! ## After the last flag -/

/-- No destructor of the operation runs. -/
def Silent (o : Nat → Operation) (n : Nat) : Prop :=
  ∀ rest, .code :: rest <:+ (o n).state.tasks → ¬ (o n).base <:+ rest

variable {N : Nat}

/-- The code that runs comes to its end. -/
theorem exists_silent (e : Endless table o) (N : Nat) : ∃ K ≥ N, Silent o K := by
  by_cases silent : Silent o N
  · exact ⟨N, le_refl N, silent⟩
  · unfold Silent at silent
    push Not at silent
    -- the lowest code on the stack
    let runs := {rest | Task.code :: rest <:+ (o N).state.tasks ∧ (o N).base <:+ rest}
    have some_runs : runs.Nonempty := silent
    obtain ⟨rest, ⟨code, inside⟩, lowest⟩ := (measure List.length).wf.has_min runs some_runs
    obtain ⟨a, m, running⟩ := e.started code inside
    obtain ⟨K, late, back⟩ := e.returns (m + 1) rest running.tasks (e.base_eq N (m + 1) ▸ inside)
    have after : N < K := by
      refine not_le.mp fun le => ?_
      have still := running.stays K late le
      rw [back] at still
      exact not_suffix_cons still (suffix_refl rest)
    refine ⟨K, le_of_lt after, fun lower code' inside' => ?_⟩
    rw [back] at code'
    refine lowest lower ⟨code'.trans ((suffix_cons _ _).trans code), e.base_eq K N ▸ inside'⟩ ?_
    exact code'.length_le

theorem Silent.next (e : Endless table o) (silent : Silent o n) (unflagged : ∀ a, ¬ Flags table o n a) :
    Silent o (n + 1) := by
  intro rest code inside
  rw [e.base_eq (n + 1) n] at inside
  cases e.moves n with
  | code below top within =>
    refine silent below ?_ within
    rw [top]
  | runtime pushed l tasks suffix plain =>
    rw [tasks] at code
    exact silent rest ((suffix_of_plain plain code).trans suffix) inside
  | invokes a _ _ _ _ _ _ events => exact unflagged a ((e.keeps n).invoked a events)

theorem falls (e : Endless table o) {n width : Nat} (silent : Silent o n) (unflagged : ∀ a, ¬ Flags table o n a)
    (narrow : (o n).state.gc.Narrow width) : (o (n + 1)).state.gc.Narrow width ∧ (o n).Falls width (o (n + 1)) := by
  cases e.moves n with
  | code below top within =>
    refine absurd within (silent below ?_)
    rw [top]
  | runtime pushed l tasks suffix plain entry falls =>
    exact falls (fun a waits => by_contra fun flagged => unflagged a ⟨waits, flagged⟩) width narrow
  | invokes a _ _ _ _ _ _ events => exact absurd ((e.keeps n).invoked a events) (unflagged a)

theorem falls_wf (width : Nat) : WellFounded fun o' o : Operation => o.Falls width o' := by
  let rank (o : Operation) : Nat ×ₗ Nat ×ₗ Nat := toLex (o.phase.rank, toLex (o.state.rounds, o.state.debt width))
  refine Subrelation.wf (fun {o' o} falls => ?_) (InvImage.wf rank wellFounded_lt)
  show rank o' < rank o
  rcases falls with later | ⟨same, fewer | ⟨rounds, less⟩⟩
  · exact Prod.Lex.toLex_lt_toLex.mpr (.inl later)
  · refine Prod.Lex.toLex_lt_toLex.mpr (.inr ⟨congrArg Phase.rank same, ?_⟩)
    exact Prod.Lex.toLex_lt_toLex.mpr (.inl fewer)
  · refine Prod.Lex.toLex_lt_toLex.mpr (.inr ⟨congrArg Phase.rank same, ?_⟩)
    exact Prod.Lex.toLex_lt_toLex.mpr (.inr ⟨rounds, less⟩)

/-- **A run without end** contains an endless chain of creations. -/
theorem chain (e : Endless table o) : ¬ Offspring.EndsEvery (Creates o) := by
  intro ends
  obtain ⟨N, last⟩ := e.process.ceases ends
  obtain ⟨K, late, silent⟩ := e.exists_silent N
  obtain ⟨width, narrow⟩ := Gc.exists_narrow (o K).state.gc
  have after : ∀ n ≥ K, Silent o n ∧ (o n).state.gc.Narrow width := by
    intro n le
    induction le with
    | refl => exact ⟨silent, narrow⟩
    | @step n le ih =>
      have unflagged := last n (late.trans le)
      exact ⟨Silent.next e ih.1 unflagged, (e.falls ih.1 unflagged ih.2).1⟩
  refine Offspring.not_falling (falls_wf width) o K fun n le => ?_
  obtain ⟨silent, narrow⟩ := after n le
  exact (e.falls silent (last n (late.trans le)) narrow).2

end Endless

theorem State.run_inv {s s' : State} {actions : List Action} (inv : s.Inv table)
    (ran : s.run table actions = some s') : s'.Inv table := by
  induction actions generalizing s with
  | nil =>
    cases ran
    exact inv
  | cons action rest ih =>
    obtain ⟨s₁, step, ran⟩ := run_cons ran
    exact ih (stepped inv step).inv ran

theorem begun_of_call {s : State} {below : List Task} {clearing : Clearing} {next : Option Sweep}
    (inv : s.Inv table) (code : s.tasks = .code :: below) (called : Operation.call clearing s next = some (o 0))
    (runs : Runs table o) : (o 0).phase = .returned ∨ Begun table o := by
  by_cases going : (o 0).phase = .returned
  · exact .inl going
  · obtain ⟨which, s', moved, start⟩ := Operation.walk_eq_some called going
    obtain ⟨tasks, -, -, -⟩ := State.sweepFrom_spec 0 moved
    have base : (o 0).base = s.tasks := by rw [start]
    have top : (o 0).state.tasks = .sweep s.objects.head? which false :: (o 0).base := by
      rw [start]
      exact tasks
    refine .inr ⟨runs, ?_, ⟨going, ?_, [_], top, ?_, fun _ => ⟨[], _, _, _, rfl⟩⟩, _, _, _, top⟩
    · obtain ⟨quiet, events, tasks⟩ := State.quiet_sweepFrom moved
      have stepped : State.Stepped table .done s s' := by
        refine quiet.stepped_push inv events (p := [_]) tasks (State.plain_singleton nofun rfl) ?_
        exact State.not_loses_code code
      rw [start]
      exact stepped.inv
    · rw [base, code]
      exact cons_ne_nil _ _
    · intro t ht
      cases mem_singleton.mp ht
      exact .inr rfl

/-- **Rolling back definitions and clearing user classes** return, whatever each destructor does before
it returns, if and only if destructors do not create objects in an endless chain. -/
theorem clearing_returns_iff (table : ClassTable) (actions : List Action) {s : State} {below : List Task}
    (clearing : Clearing) (next : Option Sweep) (o : Nat → Operation)
    (ran : start.run table actions = some s) (code : s.tasks = .code :: below)
    (called : Operation.call clearing s next = some (o 0)) (runs : Runs table o) (returns : DestructorsReturn o) :
    (∃ n, (o n).phase = .returned) ↔ Offspring.EndsEvery (Creates o) := by
  rcases begun_of_call (State.run_inv (start_inv table) ran) code called runs with back | begun
  · refine iff_of_true ⟨0, back⟩ ⟨fun a => ⟨a, fun c creates => ?_⟩⟩
    obtain ⟨m, n, rest, -, unborn, born⟩ := creates
    rw [(runs.still back n (Nat.zero_le n)).1] at born
    exact absurd unborn born
  · constructor
    · rintro ⟨n, back⟩
      exact begun.ends_of_returned back
    · intro ends
      by_contra still
      have going : ∀ n, (o n).phase ≠ .returned := fun n back => still ⟨n, back⟩
      exact Endless.chain ⟨begun, going, returns⟩ ends

/-! ## A destructor that replaces its object

`class A { static $x; function __destruct() { self::$x = new A(); } }`, with an object in `A::$x`.
-/

namespace Replacing

section Behind
variable (pre l : List (Option HeapValue)) (c : List Nat) (r : Bool) (i : Nat) (v : HeapValue)

theorem value_first : (⟨pre ++ l, c, r⟩ : Gc).value pre.length = (l[0]?).join := by
  unfold Gc.value
  rw [getElem?_append_right (le_refl _), Nat.sub_self]

theorem value_behind : (⟨pre ++ l, c, r⟩ : Gc).value (pre.length + i) = (l[i]?).join := by
  unfold Gc.value
  rw [getElem?_append_right (Nat.le_add_right _ _), Nat.add_sub_cancel_left]

theorem put_first : (⟨pre ++ l, c, r⟩ : Gc).put pre.length v = ⟨pre ++ l.set 0 (some v), c, r⟩ := by
  unfold Gc.put
  rw [set_append_right _ _ (le_refl _), Nat.sub_self]

theorem put_behind : (⟨pre ++ l, c, r⟩ : Gc).put (pre.length + i) v = ⟨pre ++ l.set i (some v), c, r⟩ := by
  unfold Gc.put
  rw [set_append_right _ _ (Nat.le_add_right _ _), Nat.add_sub_cancel_left]

theorem free_first : (⟨pre ++ l, c, r⟩ : Gc).free pre.length = ⟨pre ++ l.set 0 none, c, r⟩ := by
  unfold Gc.free
  rw [set_append_right _ _ (le_refl _), Nat.sub_self]

theorem free_behind : (⟨pre ++ l, c, r⟩ : Gc).free (pre.length + i) = ⟨pre ++ l.set i none, c, r⟩ := by
  unfold Gc.free
  rw [set_append_right _ _ (Nat.le_add_right _ _), Nat.add_sub_cancel_left]

end Behind

/-- What has been left behind when a pass begins. -/
structure Round where
  dead : List (Option HeapValue)
  class_entry : Nat → Option Nat
  events : List Event

namespace Round

/-- The object that the pass comes to. -/
def object (r : Round) : Nat := r.dead.length

/-- The object, and the name and the array its destructor is called with, are gone. -/
def next (r : Round) : Round where
  dead := r.dead ++ [none, none, none]
  class_entry a := if a = r.object + 3 then some 0 else r.class_entry a
  events := r.events ++ [Event.invoked r.object, Event.emptied r.object]

end Round

/-- The object whose class has the destructor. -/
def object (refcnt : Nat) (destroying : Bool) : Option HeapValue :=
  some ⟨.object, refcnt, false, false, destroying, []⟩

/-- The name of the destructor. -/
def name (refcnt : Nat) : Option HeapValue := some (freshValue .leaf refcnt [])

/-- The array it is called through. -/
def callable (refcnt a : Nat) : Option HeapValue :=
  some (freshValue .array refcnt [.scalar 0, .ref a, .scalar 1, .ref (a + 1)])

/-- The code of the destructor makes a new object, which the static property holds from then on, and
lets the old one go. -/
def choices : List Choice :=
  ([.act (.go true), .act (.new 0 []), .act (.release 0), .act (.go true), .act .done] : List Choice) ++
    replicate 13 (Choice.act (.go true)) ++ [Choice.pass (some (.classes [0]))]

/-- The values, the list of objects and the tasks before each of the steps of a pass at `a`. -/
def turns (a : Nat) : List (List (Option HeapValue) × List Nat × List Task) :=
  let ends := [Task.sweep none (.classes [0]) true]
  let names := .release (a + 1) :: .release a :: ends
  let calls := .release (a + 2) :: names
  [([object 2 false], [a], [.sweep (some a) (.classes [0]) false]),
   ([object 3 true, name 2, callable 1 a], [a], .code :: calls),
   ([object 3 true, name 2, callable 1 a, object 1 false], [a + 3, a], .code :: calls),
   ([object 3 true, name 2, callable 1 a, object 1 false], [a + 3, a], .release a :: .code :: calls),
   ([object 2 true, name 2, callable 1 a, object 1 false], [a + 3, a], .code :: calls),
   ([object 2 true, name 2, callable 1 a, object 1 false], [a + 3, a], calls),
   ([object 2 true, name 2, callable 0 a, object 1 false], [a + 3, a], .drop (a + 2) 0 :: names),
   ([object 2 true, name 2, callable 0 a, object 1 false], [a + 3, a], .drop (a + 2) 1 :: names),
   ([object 2 true, name 2, callable 0 a, object 1 false], [a + 3, a], .release a :: .drop (a + 2) 2 :: names),
   ([object 1 true, name 2, callable 0 a, object 1 false], [a + 3, a], .drop (a + 2) 2 :: names),
   ([object 1 true, name 2, callable 0 a, object 1 false], [a + 3, a], .drop (a + 2) 3 :: names),
   ([object 1 true, name 2, callable 0 a, object 1 false], [a + 3, a], .release (a + 1) :: .drop (a + 2) 4 :: names),
   ([object 1 true, name 1, callable 0 a, object 1 false], [a + 3, a], .drop (a + 2) 4 :: names),
   ([object 1 true, name 1, none, object 1 false], [a + 3, a], names),
   ([object 1 true, name 0, none, object 1 false], [a + 3, a], .drop (a + 1) 0 :: .release a :: ends),
   ([object 1 true, none, none, object 1 false], [a + 3, a], .release a :: ends),
   ([object 0 true, none, none, object 1 false], [a + 3, a], .unlink a :: ends),
   ([object 0 true, none, none, object 1 false], [a + 3], .drop a 0 :: ends),
   ([none, none, none, object 1 false], [a + 3], ends)]

/-- The operation before step `i` of a pass. -/
def turn (r : Round) (i : Nat) : Operation :=
  let (cells, objects, tasks) := ((turns r.object)[i]?).getD ([], [], [])
  ⟨.rollback, [.code], .passes,
    { gc := ⟨r.dead ++ cells, [], false⟩
      collecting := false
      objects
      class_entry := if i < 2 then r.class_entry else r.next.class_entry
      tasks := tasks ++ [Task.code]
      events := r.events ++ (if i < 1 then [] else [Event.invoked r.object]) ++
        if i < 17 then [] else [Event.emptied r.object]
      constructed := []
      closing := none
      closed := false }⟩

/-- The choice in step `i`. -/
def choice (r : Round) (i : Nat) : Choice :=
  match choices[i]?.getD (.act .done) with
  | .act (.release _) => .act (.release r.object)
  | c => c

open State in
theorem turn_makes (r : Round) : (turn r 1).step oneClass (choice r 1) = some (turn r 2) := by
  simp [turn, turns, choice, choices, Round.object, Round.next, object, Operation.step, Operation.invoked,
    Operation.act, State.step, act, new, make, size, freshValue]
  rfl

open State in
theorem turn_step (r : Round) (own : r.class_entry r.object = some 0) {i : Nat} (lt : i < 18) :
    (turn r i).step oneClass (choice r i) = some (turn r (i + 1)) := by
  unfold Round.object at own
  by_cases makes : i = 1
  · subst makes
    exact turn_makes r
  · interval_cases i <;>
      simp [turn, turns, choice, choices, Round.object, Round.next, object, name, callable, Operation.step,
        Operation.invoked, Operation.act, State.step, act, work, visit, selects, following, sweepFrom, push,
        HeapValue.retained, runDestructor, runs, destructor, oneClass, invoke, size, freshValue, State.release, Gc.buffer,
        Gc.unbuffer, Slot.target, HeapValue.isContainer, own, value_first, value_behind, put_first, put_behind, free_first,
        free_behind, replicate] at makes ⊢

open State in
theorem turn_next (r : Round) : (turn r 18).step oneClass (choice r 18) = some (turn r.next 0) := by
  simp [turn, turns, choice, choices, Round.object, Round.next, object, Operation.step, Operation.invoked,
    Operation.walk, sweepFrom, push, retain, update, HeapValue.retained, value_behind, put_behind, replicate]

/-- The rounds. -/
def round : Nat → Round
  | 0 => ⟨rootArrays.map fun _ => some (freshValue .array 1 []), fun a => if a = 4 then some 0 else none, []⟩
  | k + 1 => (round k).next

/-- The run of the operation. -/
def replacing (n : Nat) : Operation := turn (round (n / 19)) (n % 19)

theorem round_own (k : Nat) : (round k).class_entry (round k).object = some 0 := by
  cases k with
  | zero => rfl
  | succ k =>
    have behind : (round (k + 1)).object = (round k).object + 3 := by
      simp only [round, Round.object, Round.next, length_append, length_cons, length_nil]
    rw [behind]
    exact if_pos rfl

theorem replacing_at (k : Nat) {i : Nat} (lt : i < 19) : replacing (19 * k + i) = turn (round k) i := by
  unfold replacing
  rw [Nat.mul_add_div (by decide), Nat.div_eq_of_lt lt, Nat.mul_add_mod, Nat.mod_eq_of_lt lt, add_zero]

theorem replacing_step (n : Nat) :
    (replacing n).step oneClass (choice (round (n / 19)) (n % 19)) = some (replacing (n + 1)) := by
  have rem : n % 19 < 19 := Nat.mod_lt n (by decide)
  rcases Nat.lt_or_eq_of_le (Nat.le_of_lt_succ rem) with lt | last
  · have next : replacing (n + 1) = turn (round (n / 19)) (n % 19 + 1) := by
      rw [← replacing_at (n / 19) (by omega), ← add_assoc, Nat.div_add_mod]
    rw [next]
    exact turn_step _ (round_own _) lt
  · have next : replacing (n + 1) = turn (round (n / 19 + 1)) 0 := by
      rw [← replacing_at (n / 19 + 1) (by decide)]
      congr 1
      omega
    unfold replacing at next ⊢
    rw [next, last]
    exact turn_next _

theorem replacing_runs : Runs oneClass replacing := fun n => .inr ⟨_, replacing_step n⟩

/-- The code of the destructor is on top three times, and before the sixth step it is gone. -/
theorem code_on_top {r : Round} {i : Nat} {rest : List Task} (lt : i < 19)
    (top : (turn r i).state.tasks = .code :: rest) : i < 5 ∧ (turn r 5).state.tasks = rest := by
  interval_cases i <;> simp [turn, turns] at top <;> exact ⟨by decide, top⟩

theorem replacing_returns : DestructorsReturn replacing := by
  intro n rest top _
  obtain ⟨early, back⟩ := code_on_top (Nat.mod_lt n (by decide)) top
  refine ⟨19 * (n / 19) + 5, ?_, ?_⟩
  · omega
  · rw [replacing_at (n / 19) (by decide)]
    exact back

/-- The program makes an object of the class, and the operation is called. -/
theorem replacing_called : ∃ s, start.run oneClass [.new 0 []] = some s ∧ s.tasks = [.code] ∧
    Operation.call .rollback s (some (.classes [0])) = some (replacing 0) :=
  ⟨_, rfl, rfl, rfl⟩

theorem replacing_goes_on (n : Nat) : (replacing n).phase ≠ .returned := nofun

end Replacing

open Replacing

theorem clearing_returns_iff_replacing :
    (∃ n, (replacing n).phase = .returned) ↔ Offspring.EndsEvery (Creates replacing) := by
  obtain ⟨s, ran, code, called⟩ := replacing_called
  exact clearing_returns_iff oneClass _ .rollback _ replacing ran code called replacing_runs replacing_returns

/-- Rolling back does not return where each destructor puts a new object in the place of its own. -/
theorem replaced_object_walks_on : ¬ ∀ (table : ClassTable) (actions : List Action) (s : State) (below : List Task)
    (clearing : Clearing) (next : Option Sweep) (o : Nat → Operation), start.run table actions = some s →
    s.tasks = .code :: below → Operation.call clearing s next = some (o 0) → Runs table o → DestructorsReturn o →
      ∃ n, (o n).phase = .returned := by
  intro all
  obtain ⟨s, ran, code, called⟩ := replacing_called
  obtain ⟨n, back⟩ := all oneClass _ s [] .rollback _ replacing ran code called replacing_runs replacing_returns
  exact replacing_goes_on n back

end PhpPico.Destruction
