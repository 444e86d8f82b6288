import PhpPico.Gc.Destructors

/-!
# The steps of a program with destructors

The flags of an object only go up, and `pobject_run_destructor` does nothing where one is up. Each step keeps the
invariant of runs, and for each object does nothing, makes it, invokes its destructor, misses it, or frees the state
with the object in it.
-/

namespace PhpPico
open List

/-! ## Flags -/

namespace Gc

/-- The type of a value and the flags that keep its destructor from running. -/
def tags (s : Gc) (a : Nat) : Option (HeapType × Bool × Bool) :=
  (s.value a).map fun v => (v.type, v.collecting, v.destroying)

section Tags
variable {s : Gc} {a x : Nat} {v v' : HeapValue}

theorem tags_put (at_a : s.value a = some v) (type : v'.type = v.type) (collecting : v'.collecting = v.collecting)
    (destroying : v'.destroying = v.destroying) : (s.put a v').tags x = s.tags x := by
  unfold tags
  by_cases same : a = x
  · subst same
    rw [value_put_self (lt_of_value at_a), at_a, Option.map_some, Option.map_some, type, collecting, destroying]
  · rw [value_put_ne same]

theorem tags_buffer (s : Gc) (a x : Nat) : (s.buffer a).tags x = s.tags x := by
  unfold buffer
  split
  · rfl
  · next v at_a =>
    split
    · rfl
    · have on : (s.put a { v with buffered := true }).tags x = s.tags x := tags_put at_a rfl rfl rfl
      split
      · exact on
      · rfl

theorem tags_unbuffer (s : Gc) (a x : Nat) : (s.unbuffer a).tags x = s.tags x := by
  unfold unbuffer
  split
  · rfl
  · next v at_a =>
    have off : (s.put a { v with buffered := false }).tags x = s.tags x := tags_put at_a rfl rfl rfl
    split
    · exact off
    · rfl

theorem tags_clearBuffer (s : Gc) (x : Nat) : s.clearBuffer.tags x = s.tags x := by
  have fold : ∀ (l : List Nat) (s : Gc),
      (l.foldl (update fun v => { v with buffered := false }) s).tags x = s.tags x := by
    intro l
    induction l with
    | nil => exact fun s => rfl
    | cons a rest ih =>
      intro s
      rw [foldl_cons, ih]
      unfold update
      split
      · rfl
      · next v at_a =>
        have off : (s.put a { v with buffered := false }).tags x = s.tags x := tags_put at_a rfl rfl rfl
        exact off
  exact fold s.candidates s

/-- A value the collector takes is flagged, the others keep their flags. -/
theorem tags_condemned (garbage : List Nat) (s : Gc) (x : Nat) : (garbage.foldl (update condemned) s).tags x =
      if x ∈ garbage then (s.tags x).map fun f => (f.1, true, f.2.2) else s.tags x := by
  induction garbage generalizing s with
  | nil => rfl
  | cons a rest ih =>
    have one : (update condemned s a).tags x =
        if x = a then (s.tags x).map fun f => (f.1, true, f.2.2) else s.tags x := by
      unfold update
      split
      · next at_a =>
        split
        · next same =>
          rw [same, tags, at_a]
          rfl
        · rfl
      · next v at_a =>
        unfold tags
        by_cases same : x = a
        · subst same
          rw [if_pos rfl, value_put_self (lt_of_value at_a), at_a]
          unfold condemned HeapValue.retained
          split <;> rfl
        · rw [if_neg same, value_put_ne (Ne.symm same)]
    rw [foldl_cons, ih, one]
    by_cases same : x = a
    · rw [if_pos same, if_pos (mem_cons.mpr (.inl same))]
      cases s.tags x with
      | none => split <;> rfl
      | some f => split <;> rfl
    · rw [if_neg same]
      simp only [mem_cons, same, false_or]

theorem tags_free (ne : a ≠ x) : (s.free a).tags x = s.tags x := by rw [tags, value_free_ne ne, ← tags]

theorem tags_free_self : (s.free a).tags a = none := by rw [tags, value_free_self]; rfl

theorem value_append (l : List (Option HeapValue)) (lt : x < s.heap.length) :
    ({ s with heap := s.heap ++ l } : Gc).value x = s.value x := by
  unfold value
  rw [getElem?_append_left lt]

end Tags
end Gc

/-! ## What a step may rely on -/

namespace Destruction

open Gc (condemned)

/-- The value whose destruction the task is part of. -/
def Task.ends : Task → Option Nat
  | .unlink a | .drop a _ | .clear a _ => some a
  | _ => none

/-- A walk that has come to `b` still meets `a`; an object that is not listed is freed. -/
def Ahead (objects : List Nat) (b a : Nat) : Prop := a = b ∨ b ∉ objects ∨ [b, a].Sublist objects

namespace State

/-- An object whose destructor is to run: no flag is up and its class has one. -/
def Waits (table : ClassTable) (s : State) (a : Nat) : Prop := ∃ v, s.gc.value a = some v ∧ s.runs table v a = true

/-- The call of the destructor is refused: there is no memory for it, or it is not public. -/
def refuses (table : ClassTable) (s : State) (ready : Bool) (a : Nat) : Prop :=
  ready = false ∨ ∀ d, s.destructor table a = some d → d.isPublic = false

/-- **The steps that miss a destructor** that is to run: the last reference goes away or a walk selects the object,
and the call is refused; a collection begins in which nothing outside anchors the object; the state is freed, and the
object was made after `pphp_close` began. -/
def Loses (table : ClassTable) (s : State) (action : Action) (a : Nat) : Prop :=
  s.Waits table a ∧
    match s.tasks.head?, action with
    | some (.release b), .go ready => b = a ∧ s.gc.rc a = 1 ∧ s.refuses table ready a
    | some (.sweep (some b) which _), .go ready => b = a ∧ s.selects a which = true ∧ s.refuses table ready a
    | some .collect, .go _ =>
      s.collects = true ∧ a ∈ s.nodes ∧ ¬ Gc.Anchored s.gc.clearBuffer.containerChildren s.gc.clearBuffer.rc s.nodes a
    | some .freeState, .go _ => ∀ m, s.closing = some m → m ≤ a
    | _, _ => False

/-- Only what has been made has a class. -/
def Classed (s : State) : Prop := ∀ a, s.class_entry a ≠ none → a < s.size

/-- What holds between the steps of every run. -/
structure Inv (table : ClassTable) (s : State) : Prop where
  classed : s.Classed
  typed : ∀ a f, s.gc.tags a = some f → s.class_entry a ≠ none → f.1 = .object
  listed : ∀ a, s.Waits table a → a ∈ s.objects
  below : ∀ a ∈ s.objects, a < s.size
  nodup : s.objects.Nodup
  ends : ∀ t ∈ s.tasks, ∀ a, t.ends = some a → a < s.size ∧ ¬ s.Waits table a
  last : .freeState ∉ s.tasks.dropLast
  before : ∀ m, s.closing = some m → m ≤ s.size
  old : ∀ m, s.closing = some m → ∀ a < m, s.Waits table a →
    ∃ b i, Task.sweep (some b) .all i ∈ s.tasks ∧ b < s.size ∧ Ahead s.objects b a
  told : ∀ e ∈ s.events, e.subject < s.size
  buffered : ∀ c ∈ s.gc.candidates, c < s.size

/-- What a step that makes no object and unlinks none leaves as it is. -/
structure Later (table : ClassTable) (s s' : State) : Prop where
  size : s.size ≤ s'.size
  types : ∀ a < s.size, ∀ f', s'.gc.tags a = some f' → ∃ f, s.gc.tags a = some f ∧ f'.1 = f.1
  waits : ∀ a, s'.Waits table a → s.Waits table a
  entry : s'.class_entry = s.class_entry
  objects : s'.objects = s.objects
  closing : s'.closing = s.closing
  buffered : ∀ c ∈ s'.gc.candidates, c ∈ s.gc.candidates ∨ c < s'.size
  closed : s'.closed = s.closed

/-- A step that raises no flag either. -/
structure Quiet (s s' : State) : Prop where
  size : s.size ≤ s'.size
  tags : ∀ a < s.size, s'.gc.tags a = s.gc.tags a
  entry : s'.class_entry = s.class_entry
  objects : s'.objects = s.objects
  closing : s'.closing = s.closing
  buffered : ∀ c ∈ s'.gc.candidates, c ∈ s.gc.candidates ∨ c < s'.size
  closed : s'.closed = s.closed

section Basic
variable {table : ClassTable} {s s' s'' : State} {a b : Nat} {action : Action}

theorem waits_iff : s.Waits table a ↔ ∃ t, s.gc.tags a = some (t, false, false) ∧ (s.destructor table a).isSome := by
  unfold Waits runs Gc.tags
  constructor
  · rintro ⟨v, at_a, run⟩
    simp only [Bool.and_eq_true, Bool.not_eq_true'] at run
    obtain ⟨⟨c, d⟩, has⟩ := run
    refine ⟨v.type, ?_, has⟩
    rw [at_a, Option.map_some, c, d]
  · rintro ⟨t, tags, has⟩
    obtain ⟨v, at_a, e⟩ := Option.map_eq_some_iff.mp tags
    simp only [Prod.mk.injEq] at e
    refine ⟨v, at_a, ?_⟩
    rw [e.2.1, e.2.2, has]
    rfl

theorem Waits.lt (h : s.Waits table a) : a < s.size := by
  obtain ⟨v, at_a, -⟩ := h
  exact Gc.lt_of_value at_a

theorem Waits.entry (h : s.Waits table a) : s.class_entry a ≠ none := by
  intro unborn
  obtain ⟨t, -, has⟩ := waits_iff.mp h
  rw [destructor, unborn] at has
  cases has

/-- Waiting depends on the flags and the class. -/
theorem waits_congr (tags : s'.gc.tags a = s.gc.tags a) (entry : s'.class_entry a = s.class_entry a) :
    s'.Waits table a ↔ s.Waits table a := by
  rw [waits_iff, waits_iff, tags, destructor, entry, destructor]

theorem Quiet.refl (s : State) : Quiet s s := ⟨le_rfl, fun _ _ => rfl, rfl, rfl, rfl, fun _ h => .inl h, rfl⟩

theorem Quiet.trans (h : Quiet s s') (h' : Quiet s' s'') : Quiet s s'' := by
  refine ⟨h.size.trans h'.size, fun a lt => ?_, h'.entry.trans h.entry, h'.objects.trans h.objects,
    h'.closing.trans h.closing, fun c hc => ?_, h'.closed.trans h.closed⟩
  · exact (h'.tags a (lt.trans_le h.size)).trans (h.tags a lt)
  · rcases h'.buffered c hc with hc | lt
    · exact (h.buffered c hc).imp_right fun lt => lt.trans_le h'.size
    · exact .inr lt

theorem Quiet.waits (classed : s.Classed) (h : Quiet s s') (a : Nat) : s'.Waits table a ↔ s.Waits table a := by
  by_cases lt : a < s.size
  · exact waits_congr (h.tags a lt) (congrFun h.entry a)
  · constructor
    · intro waits
      have born := waits.entry
      rw [h.entry] at born
      exact absurd (classed a born) lt
    · exact fun waits => absurd waits.lt lt

theorem Quiet.later (classed : s.Classed) (h : Quiet s s') : Later table s s' :=
  ⟨h.size, fun a lt f' tags => ⟨f', (h.tags a lt).symm.trans tags, rfl⟩, fun a => (h.waits classed a).mp, h.entry,
    h.objects, h.closing, h.buffered, h.closed⟩

/-- **A step keeps the invariant** that leaves the list of objects alone, pushes tasks that end nothing that waits,
and keeps the walk of `pphp_close` or moves it on. -/
theorem Inv.later (inv : s.Inv table) (h : Later table s s') (tasks : ∀ t ∈ s'.tasks, t ∈ s.tasks ∨
      ∀ a, t.ends = some a → a < s.size ∧ ¬ s'.Waits table a)
    (sweeps : ∀ a b i, s'.Waits table a → Task.sweep (some b) .all i ∈ s.tasks → b < s.size → Ahead s.objects b a →
      ∃ b' i', Task.sweep (some b') .all i' ∈ s'.tasks ∧ b' < s.size ∧ Ahead s.objects b' a)
    (told : ∀ e ∈ s'.events, e ∈ s.events ∨ e.subject < s.size) (last : .freeState ∉ s'.tasks.dropLast) :
    s'.Inv table := by
  refine ⟨?_, ?_, ?_, ?_, ?_, ?_, last, ?_, ?_, ?_, ?_⟩
  · intro a born
    rw [h.entry] at born
    exact lt_of_lt_of_le (inv.classed a born) h.size
  · intro a f' tags born
    rw [h.entry] at born
    obtain ⟨f, tags', type⟩ := h.types a (inv.classed a born) f' tags
    exact type.trans (inv.typed a f tags' born)
  · intro a waits
    rw [h.objects]
    exact inv.listed a (h.waits a waits)
  · intro a ha
    rw [h.objects] at ha
    exact lt_of_lt_of_le (inv.below a ha) h.size
  · rw [h.objects]
    exact inv.nodup
  · intro t ht a ends
    rcases tasks t ht with old | new
    · obtain ⟨lt, done⟩ := inv.ends t old a ends
      exact ⟨lt.trans_le h.size, fun waits => done (h.waits a waits)⟩
    · obtain ⟨lt, done⟩ := new a ends
      exact ⟨lt.trans_le h.size, done⟩
  · intro m closing
    rw [h.closing] at closing
    exact le_trans (inv.before m closing) h.size
  · intro m closing a lt waits
    rw [h.closing] at closing
    rw [h.objects]
    obtain ⟨b, i, sweep, known, ahead⟩ := inv.old m closing a lt (h.waits a waits)
    obtain ⟨b', i', sweep', known', ahead'⟩ := sweeps a b i waits sweep known ahead
    exact ⟨b', i', sweep', known'.trans_le h.size, ahead'⟩
  · intro e he
    rcases told e he with old | lt
    · exact lt_of_lt_of_le (inv.told e old) h.size
    · exact lt.trans_le h.size
  · intro c hc
    rcases h.buffered c hc with old | lt
    · exact lt_of_lt_of_le (inv.buffered c old) h.size
    · exact lt

theorem last_append {p rest l : List Task} (last : .freeState ∉ l.dropLast) (suffix : rest <:+ l)
    (plain : ∀ t ∈ p, t ≠ .freeState) : .freeState ∉ (p ++ rest).dropLast := by
  intro free
  by_cases empty : rest = []
  · rw [empty, append_nil] at free
    exact plain _ (dropLast_subset _ free) rfl
  · obtain ⟨q, rfl⟩ := suffix
    rw [dropLast_append_of_ne_nil empty] at free last
    rcases mem_append.mp free with new | old
    · exact plain _ new rfl
    · exact last (mem_append_right _ old)

/-- The same where the tasks below the top stay and the top is no walk of `pphp_close`. -/
theorem Inv.pushed (inv : s.Inv table) (h : Later table s s') {p rest : List Task}
    (tasks : s'.tasks = p ++ rest) (below : rest <:+ s.tasks)
    (sweeps : ∀ b i, Task.sweep (some b) .all i ∈ s.tasks → Task.sweep (some b) .all i ∈ rest)
    (ends : ∀ t ∈ p, t ≠ .freeState ∧ ∀ a, t.ends = some a → a < s.size ∧ ¬ s'.Waits table a)
    (told : ∀ e ∈ s'.events, e ∈ s.events ∨ e.subject < s.size) : s'.Inv table := by
  refine inv.later h ?_ ?_ told ?_
  · intro t ht
    rw [tasks] at ht
    rcases mem_append.mp ht with new | old
    · exact .inr (ends t new).2
    · exact .inl (below.subset old)
  · intro a b i _ sweep known ahead
    refine ⟨b, i, ?_, known, ahead⟩
    rw [tasks]
    exact mem_append_right _ (sweeps b i sweep)
  · rw [tasks]
    exact last_append inv.last below fun t ht => (ends t ht).1

end Basic
/-! ## What a step means for one object -/

/-- What a step means for one object: nothing; it is made; its destructor is invoked; its destructor is missed, now or
for good. -/
inductive Fate (table : ClassTable) (action : Action) (s s' : State) (a : Nat) : Prop where
  | stays (waits : s'.Waits table a ↔ s.Waits table a) (entry : s'.class_entry a = s.class_entry a)
      (events : ∃ new, s'.events = s.events ++ new ∧ .invoked a ∉ new ∧ (s.Waits table a → .emptied a ∉ new))
      (spared : ¬ s.Loses table action a) (closed : s.Waits table a → s'.closed = s.closed)
  | born (unborn : s.class_entry a = none) (new : s.size ≤ a) (waits : (s'.destructor table a).isSome → s'.Waits table a)
      (events : s'.events = s.events) (closed : s'.closed = s.closed)
  | invoked (waits : s.Waits table a) (flagged : ¬ s'.Waits table a) (entry : s'.class_entry a = s.class_entry a)
      (events : s'.events = s.events ++ [Event.invoked a]) (spared : ¬ s.Loses table action a)
  | lost (loses : s.Loses table action a) (flagged : ¬ s'.Waits table a)
      (entry : s'.class_entry a = s.class_entry a) (events : s'.events = s.events)
  | left (loses : s.Loses table action a) (tasks : s'.tasks = []) (events : s'.events = s.events)

/-- What is proved of every step. -/
structure Stepped (table : ClassTable) (action : Action) (s s' : State) : Prop where
  inv : s'.Inv table
  closed : s'.closed = s.closed ∨ s'.tasks = []
  fate : ∀ a, Fate table action s s' a

section Effects
variable {table : ClassTable} {s s' s'' : State} {a b : Nat} {action : Action} {ready : Bool}

theorem Quiet.fate (inv : s.Inv table) (h : Quiet s s') (events : s'.events = s.events)
    (spared : ∀ a, ¬ s.Loses table action a) (a : Nat) : Fate table action s s' a := by
  refine .stays (h.waits inv.classed a) (congrFun h.entry a) ⟨[], ?_, not_mem_nil, fun _ => not_mem_nil⟩ (spared a) ?_
  · rw [events, append_nil]
  · exact fun _ => h.closed

/-- A step in which properties begin to be released. -/
theorem Quiet.fate_emptied (inv : s.Inv table) (h : Quiet s s') (events : s'.events = s.events ++ [Event.emptied b])
    (done : ¬ s.Waits table b) (spared : ∀ a, ¬ s.Loses table action a) (a : Nat) : Fate table action s s' a := by
  refine .stays (h.waits inv.classed a) (congrFun h.entry a) ⟨[.emptied b], events, ?_, fun waits other => ?_⟩ (spared a)
    fun _ => h.closed
  · intro other
    cases mem_singleton.mp other
  · cases mem_singleton.mp other
    exact done waits

theorem quiet_update {f : HeapValue → HeapValue} (h : s.update f a = some s')
    (same : ∀ v, (f v).type = v.type ∧ (f v).collecting = v.collecting ∧ (f v).destroying = v.destroying) :
    Quiet s s' ∧ s'.events = s.events ∧ s'.tasks = s.tasks := by
  obtain ⟨v, at_a, rfl⟩ := Option.map_eq_some_iff.mp h
  obtain ⟨type, collecting, destroying⟩ := same v
  refine ⟨⟨?_, ?_, rfl, rfl, rfl, fun _ h => .inl h, rfl⟩, rfl, rfl⟩
  · exact List.length_set.symm.le
  · exact fun x _ => Gc.tags_put at_a type collecting destroying

theorem retained_same (v : HeapValue) :
    v.retained.type = v.type ∧ v.retained.collecting = v.collecting ∧ v.retained.destroying = v.destroying := by
  unfold HeapValue.retained
  split <;> exact ⟨rfl, rfl, rfl⟩

theorem quiet_retain (h : s.retain a = some s') : Quiet s s' ∧ s'.events = s.events ∧ s'.tasks = s.tasks :=
  quiet_update h retained_same

theorem quiet_retains {l : List Nat} (h : l.foldlM retain s = some s') :
    Quiet s s' ∧ s'.events = s.events ∧ s'.tasks = s.tasks := by
  induction l generalizing s with
  | nil =>
    cases h
    exact ⟨Quiet.refl _, rfl, rfl⟩
  | cons a rest ih =>
    rw [foldlM_cons] at h
    obtain ⟨s₁, one, h⟩ := Option.bind_eq_some_iff.mp h
    obtain ⟨quiet, events, tasks⟩ := quiet_retain one
    obtain ⟨quiet', events', tasks'⟩ := ih h
    exact ⟨quiet.trans quiet', events'.trans events, tasks'.trans tasks⟩

theorem quiet_sweepFrom {next : Option Nat} {which : Sweep} {i : Bool} (h : s.sweepFrom next which i = some s') :
    Quiet s s' ∧ s'.events = s.events ∧ s'.tasks = .sweep next which i :: s.tasks := by
  cases next with
  | none =>
    cases h
    exact ⟨⟨le_rfl, fun _ _ => rfl, rfl, rfl, rfl, fun _ h => .inl h, rfl⟩, rfl, rfl⟩
  | some a =>
    obtain ⟨s₁, one, rfl⟩ := Option.map_eq_some_iff.mp h
    obtain ⟨quiet, events, tasks⟩ := quiet_retain one
    refine ⟨quiet.trans ⟨le_rfl, fun _ _ => rfl, rfl, rfl, rfl, fun _ h => .inl h, rfl⟩, events, ?_⟩
    rw [push, tasks]
    rfl

theorem quiet_make (v : HeapValue) : Quiet s (s.make v) := by
  refine ⟨?_, fun a lt => ?_, rfl, rfl, rfl, fun _ h => .inl h, rfl⟩
  · show s.gc.heap.length ≤ (s.gc.heap ++ [some v]).length
    rw [length_append]
    exact Nat.le_add_right _ _
  · unfold Gc.tags make
    rw [Gc.value_append _ lt]

theorem length_buffer (gc : Gc) (a : Nat) : (gc.buffer a).heap.length = gc.heap.length := by
  unfold Gc.buffer
  split
  · rfl
  · split
    · rfl
    · split
      · exact List.length_set
      · rfl

theorem length_unbuffer (gc : Gc) (a : Nat) : (gc.unbuffer a).heap.length = gc.heap.length := by
  unfold Gc.unbuffer
  split
  · rfl
  · split
    · exact List.length_set
    · rfl

theorem mem_candidates_buffer {gc : Gc} {a c : Nat} (lt : a < gc.heap.length) (h : c ∈ (gc.buffer a).candidates) :
    c ∈ gc.candidates ∨ c < gc.heap.length := by
  unfold Gc.buffer at h
  split at h
  · exact .inl h
  · split at h
    · exact .inl h
    · split at h
      · rcases mem_append.mp h with old | new
        · exact .inl old
        · cases mem_singleton.mp new
          exact .inr lt
      · exact .inl h

theorem mem_candidates_unbuffer {gc : Gc} {a c : Nat} (h : c ∈ (gc.unbuffer a).candidates) : c ∈ gc.candidates := by
  unfold Gc.unbuffer at h
  split at h
  · exact h
  · split at h
    · by_cases listed : a ∈ gc.candidates
      · exact (Gc.swapRemove_perm listed).subset (.tail _ h)
      · have same : Gc.swapRemove gc.candidates a = gc.candidates := by
          unfold Gc.swapRemove
          rw [idxOf?_eq_none_iff.mpr listed]
        rw [← same]
        exact h
    · exact h

theorem length_updates {f : HeapValue → HeapValue} (l : List Nat) (gc : Gc) :
    (l.foldl (Gc.update f) gc).heap.length = gc.heap.length := by
  induction l generalizing gc with
  | nil => rfl
  | cons a rest ih =>
    rw [foldl_cons, ih]
    unfold Gc.update
    split
    · rfl
    · exact List.length_set

theorem runDestructor_of_not (h : s.runDestructor table ready a = some s') (done : ¬ s.Waits table a) : s' = s := by
  unfold runDestructor at h
  split at h
  · cases h
  · next v at_a =>
    split at h
    · exact (Option.some.inj h).symm
    · next off =>
      simp only [not_or, Bool.not_eq_true] at off
      split at h
      · exact (Option.some.inj h).symm
      · next d has =>
        refine absurd ⟨v, at_a, ?_⟩ done
        rw [runs, off.1, off.2, has]
        rfl

theorem later_flagged {v flagged : HeapValue} {l : List (Option HeapValue)} (classed : s.Classed)
    (at_a : s.gc.value a = some v) (type : flagged.type = v.type) (destroying : flagged.destroying = true)
    (heap : s'.gc.heap = (s.gc.put a flagged).heap ++ l) (entry : s'.class_entry = s.class_entry)
    (objects : s'.objects = s.objects) (closing : s'.closing = s.closing)
    (candidates : s'.gc.candidates = s.gc.candidates) (closed : s'.closed = s.closed) :
    Later table s s' ∧ ¬ s'.Waits table a ∧ ∀ x ≠ a, s'.Waits table x ↔ s.Waits table x := by
  have lt := Gc.lt_of_value at_a
  have length : (s.gc.put a flagged).heap.length = s.gc.heap.length := List.length_set
  have value : ∀ x < s.size, s'.gc.value x = (s.gc.put a flagged).value x := by
    intro x lt
    rw [Gc.value_congr (s := { s.gc.put a flagged with heap := (s.gc.put a flagged).heap ++ l }) heap]
    exact Gc.value_append l (length ▸ lt)
  have own : s'.gc.value a = some flagged := by rw [value a lt, Gc.value_put_self lt]
  have done : ¬ s'.Waits table a := by
    rintro ⟨w, at_a', run⟩
    rw [own] at at_a'
    cases at_a'
    simp only [runs, destroying, Bool.not_true, Bool.and_false, Bool.false_and, Bool.false_eq_true] at run
  have tags : ∀ x ≠ a, x < s.size → s'.gc.tags x = s.gc.tags x := by
    intro x ne lt
    rw [Gc.tags, value x lt, Gc.value_put_ne (Ne.symm ne), Gc.tags]
  have others : ∀ x ≠ a, s'.Waits table x ↔ s.Waits table x := by
    intro x ne
    by_cases lt' : x < s.size
    · exact waits_congr (tags x ne lt') (congrFun entry x)
    · constructor
      · intro waits
        have born := waits.entry
        rw [entry] at born
        exact absurd (classed x born) lt'
      · exact fun waits => absurd waits.lt lt'
  refine ⟨⟨?_, ?_, ?_, entry, objects, closing, fun c hc => .inl (candidates ▸ hc), closed⟩, done, others⟩
  · rw [size, size, heap, length_append, length]
    exact Nat.le_add_right _ _
  · intro x lt' f' tagged
    by_cases same : x = a
    · subst same
      rw [Gc.tags, own] at tagged
      cases tagged
      refine ⟨(v.type, v.collecting, v.destroying), ?_, type⟩
      rw [Gc.tags, at_a]
      rfl
    · exact ⟨f', (tags x same lt').symm.trans tagged, rfl⟩
  · intro x waits
    by_cases same : x = a
    · subst same
      exact absurd waits done
    · exact (others x same).mp waits

/-- **What `pobject_run_destructor` does** to an object that waits: its flag goes up, and the
destructor is invoked unless the call is refused. -/
theorem runDestructor_of_waits (classed : s.Classed) (h : s.runDestructor table ready a = some s')
    (waits : s.Waits table a) : (Later table s s' ∧ ¬ s'.Waits table a ∧ ∀ x ≠ a, s'.Waits table x ↔ s.Waits table x) ∧
      (s'.events = s.events ∧ s.refuses table ready a ∨
        s'.events = s.events ++ [Event.invoked a] ∧ ¬ s.refuses table ready a) ∧
      ∃ pushed, s'.tasks = pushed ++ s.tasks ∧ ∀ t ∈ pushed, t ≠ .freeState ∧ t.ends = none := by
  obtain ⟨v, at_a, run⟩ := waits
  simp only [runs, Bool.and_eq_true, Bool.not_eq_true'] at run
  obtain ⟨⟨collecting, destroying⟩, has⟩ := run
  obtain ⟨d, class_d⟩ := Option.isSome_iff_exists.mp has
  unfold runDestructor at h
  rw [at_a] at h
  simp only [collecting, destroying, Bool.false_eq_true, or_self, if_false, class_d] at h
  have after : ∀ t ∈ (if v.refcnt = 0 then [Task.unguard a] else []), t ≠ .freeState ∧ t.ends = none := by
    intro t ht
    split at ht
    · cases mem_singleton.mp ht
      exact ⟨nofun, rfl⟩
    · cases ht
  split at h
  · next on =>
    cases h
    refine ⟨later_flagged classed at_a ?_ ?_ rfl rfl rfl rfl rfl rfl, ?_, _, rfl, ?_⟩
    · exact (retained_same _).1
    · exact (retained_same _).2.2
    · cases isPublic : d.isPublic with
      | true =>
        refine .inr ⟨?_, ?_⟩
        · simp only [invoke, isPublic, if_true]
        · rintro (off | no)
          · rw [on] at off
            cases off
          · have := no d class_d
            rw [isPublic] at this
            cases this
      | false =>
        refine .inl ⟨?_, .inr fun d' class_d' => ?_⟩
        · simp only [invoke, isPublic, Bool.false_eq_true, if_false, append_nil]
        · rw [class_d] at class_d'
          cases class_d'
          exact isPublic
    · intro t ht
      rcases mem_append.mp ht with ht | ht
      · rcases mem_append.mp ht with ht | ht
        · split at ht
          · cases mem_singleton.mp ht
            exact ⟨nofun, rfl⟩
          · cases ht
        · simp only [mem_cons, not_mem_nil, or_false] at ht
          rcases ht with rfl | rfl <;> exact ⟨nofun, rfl⟩
      · exact after t ht
  · next off =>
    cases h
    refine ⟨later_flagged classed at_a ?_ ?_ (append_nil _).symm rfl rfl rfl rfl rfl, ?_, _, rfl, after⟩
    · rfl
    · rfl
    · exact .inl ⟨rfl, .inl (Bool.eq_false_iff.mpr off)⟩

end Effects

/-! ## The steps -/

section Steps
variable {table : ClassTable} {s s' : State} {a : Nat} {action : Action} {ready : Bool} {p rest : List Task}

theorem Quiet.stepped (inv : s.Inv table) (quiet : Quiet s s') (events : s'.events = s.events)
    (tasks : s'.tasks = p ++ rest) (below : rest <:+ s.tasks)
    (sweeps : ∀ b i, Task.sweep (some b) .all i ∈ s.tasks → Task.sweep (some b) .all i ∈ rest)
    (ends : ∀ t ∈ p, t ≠ .freeState ∧ ∀ a, t.ends = some a → a < s.size ∧ ¬ s.Waits table a)
    (spared : ∀ a, ¬ s.Loses table action a) : Stepped table action s s' := by
  refine ⟨inv.pushed (quiet.later inv.classed) tasks below sweeps ?_ ?_, .inl quiet.closed,
    quiet.fate inv events spared⟩
  · intro t ht
    obtain ⟨ne, done⟩ := ends t ht
    refine ⟨ne, fun a e => ?_⟩
    obtain ⟨lt, not⟩ := done a e
    exact ⟨lt, fun waits => not ((quiet.waits inv.classed a).mp waits)⟩
  · intro e he
    rw [events] at he
    exact .inl he

theorem Quiet.stepped_push (inv : s.Inv table) (quiet : Quiet s s') (events : s'.events = s.events)
    (tasks : s'.tasks = p ++ s.tasks) (ends : ∀ t ∈ p, t ≠ .freeState ∧ t.ends = none)
    (spared : ∀ a, ¬ s.Loses table action a) : Stepped table action s s' := by
  apply quiet.stepped inv events tasks (suffix_refl _) (fun _ _ h => h) ?_ spared
  intro t ht
  obtain ⟨ne, none⟩ := ends t ht
  refine ⟨ne, fun a e => ?_⟩
  rw [none] at e
  cases e

theorem Quiet.stepped_top {task : Task} (inv : s.Inv table) (top : s.tasks = task :: rest) (quiet : Quiet s s')
    (events : s'.events = s.events) (tasks : s'.tasks = p ++ rest) (ne : ∀ b i, task ≠ .sweep (some b) .all i)
    (ends : ∀ t ∈ p, t ≠ .freeState ∧ ∀ a, t.ends = some a → a < s.size ∧ ¬ s.Waits table a)
    (spared : ∀ a, ¬ s.Loses table action a) : Stepped table action s s' := by
  refine quiet.stepped inv events tasks ?_ ?_ ends spared
  · rw [top]
    exact suffix_cons _ _
  · intro b i sweep
    rw [top] at sweep
    exact (mem_cons.mp sweep).resolve_left fun e => ne b i e.symm

theorem not_loses_code (top : s.tasks = .code :: rest) (a : Nat) : ¬ s.Loses table action a := by
  rintro ⟨-, loses⟩
  rw [top] at loses
  exact loses

theorem not_loses_definitions (top : s.tasks = .definitions :: rest) (a : Nat) : ¬ s.Loses table action a := by
  rintro ⟨-, loses⟩
  rw [top] at loses
  exact loses

theorem plain_nil : ∀ t ∈ ([] : List Task), t ≠ .freeState ∧ t.ends = none := nofun

theorem plain_singleton {t : Task} (ne : t ≠ .freeState) (ends : t.ends = none) :
    ∀ u ∈ [t], u ≠ .freeState ∧ u.ends = none := by
  intro u hu
  cases mem_singleton.mp hu
  exact ⟨ne, ends⟩

theorem stepped_new {k : Nat} {slots : List Slot} (inv : s.Inv table) (h : s.new k slots = some s')
    (spared : ∀ a, ¬ s.Loses table action a) : Stepped table action s s' := by
  obtain ⟨s₁, retains, h⟩ := Option.bind_eq_some_iff.mp h
  obtain ⟨quiet, events, tasks⟩ := quiet_retains retains
  have inv₁ : s₁.Inv table := by
    have stepped : Stepped table action s s₁ :=
      quiet.stepped_push inv events (p := []) (by rw [tasks, nil_append]) plain_nil spared
    exact stepped.inv
  cases h
  have length : (s₁.gc.heap ++ [some (freshValue .object 1 slots)]).length = s₁.size + 1 := length_append
  have fresh : s₁.class_entry s₁.size = none := by
    by_contra born
    exact absurd (inv₁.classed _ born) (lt_irrefl _)
  have tags : ∀ x < s₁.size, (s₁.make (freshValue .object 1 slots)).gc.tags x = s₁.gc.tags x := (quiet_make _).tags
  have own : (s₁.make (freshValue .object 1 slots)).gc.tags s₁.size = some (.object, false, false) := by
    unfold Gc.tags Gc.value make size
    rw [getElem?_append_right (le_refl _), Nat.sub_self]
    rfl
  set s' : State := { s₁.make (freshValue .object 1 slots) with
    objects := s₁.size :: s₁.objects
    class_entry := fun a => if a = s₁.size then some k else s₁.class_entry a } with made
  have entry : ∀ x ≠ s₁.size, s'.class_entry x = s₁.class_entry x := fun x ne => if_neg ne
  have size : s'.size = s₁.size + 1 := length
  have waits : ∀ x ≠ s₁.size, s'.Waits table x ↔ s₁.Waits table x := by
    intro x ne
    by_cases lt : x < s₁.size
    · exact waits_congr (tags x lt) (entry x ne)
    · constructor
      · intro waits
        have born := waits.entry
        rw [entry x ne] at born
        exact absurd (inv₁.classed x born) lt
      · exact fun waits => absurd waits.lt lt
  refine ⟨⟨?_, ?_, ?_, ?_, ?_, ?_, ?_, ?_, ?_, ?_, ?_⟩, .inl quiet.closed, fun x => ?_⟩
  · intro x born
    rw [size]
    by_cases same : x = s₁.size
    · omega
    · rw [entry x same] at born
      have := inv₁.classed x born
      omega
  · intro x f tagged born
    by_cases same : x = s₁.size
    · subst same
      have := own.symm.trans tagged
      cases this
      rfl
    · rw [entry x same] at born
      have lt := inv₁.classed x born
      exact inv₁.typed x f ((tags x lt).symm.trans tagged) born
  · intro x waiting
    by_cases same : x = s₁.size
    · exact mem_cons.mpr (.inl same)
    · exact .tail _ (inv₁.listed x ((waits x same).mp waiting))
  · intro x hx
    rw [size]
    rcases mem_cons.mp hx with rfl | hx
    · omega
    · have := inv₁.below x hx
      omega
  · exact nodup_cons.mpr ⟨fun hx => absurd (inv₁.below _ hx) (lt_irrefl _), inv₁.nodup⟩
  · intro t ht x ends
    obtain ⟨lt, done⟩ := inv₁.ends t ht x ends
    rw [size]
    exact ⟨by omega, fun waiting => done ((waits x (ne_of_lt lt)).mp waiting)⟩
  · exact inv₁.last
  · intro m closing
    rw [size]
    exact Nat.le_succ_of_le (inv₁.before m closing)
  · intro m closing x lt waiting
    have lt' := lt.trans_le (inv₁.before m closing)
    have ne := ne_of_lt lt'
    obtain ⟨b, i, sweep, known, ahead⟩ := inv₁.old m closing x lt ((waits x ne).mp waiting)
    refine ⟨b, i, sweep, by rw [size]; omega, ?_⟩
    rcases ahead with same | gone | sub
    · exact .inl same
    · exact .inr (.inl fun hb => gone ((mem_cons.mp hb).resolve_left (ne_of_lt known)))
    · exact .inr (.inr (sub.cons _))
  · intro e he
    have := inv₁.told e he
    rw [size]
    omega
  · intro c hc
    have := inv₁.buffered c hc
    rw [size]
    omega
  · have events' : s'.events = s.events := events
    by_cases same : x = s₁.size
    · subst same
      refine .born ?_ quiet.size (fun has => waits_iff.mpr ⟨.object, own, has⟩) events' quiet.closed
      rw [← quiet.entry]
      exact fresh
    · refine .stays ((waits x same).trans (quiet.waits inv.classed x)) ?_ ⟨[], ?_, not_mem_nil, ?_⟩ (spared x)
        fun _ => quiet.closed
      · rw [entry x same, quiet.entry]
      · rw [events', append_nil]
      · exact fun _ => not_mem_nil

theorem stepped_close {s₁ : State} (inv : s.Inv table) (none_end : s.tasks = [.code])
    (start : s₁ = { s with
      closing := some s.size
      tasks := rootArrays.map Task.destroyArray ++ [Task.collect, .definitions, .freeState] })
    (h : s₁.sweepFrom s₁.objects.head? .all false = some s') : Stepped table action s s' := by
  obtain ⟨quiet, events, tasks⟩ := quiet_sweepFrom h
  have size : s₁.size = s.size := by rw [start]; rfl
  have waits₁ : ∀ a, s₁.Waits table a ↔ s.Waits table a := by
    intro a
    rw [start]
    exact waits_congr rfl rfl
  have classed : s₁.Classed := by
    rw [start]
    exact inv.classed
  have waits : ∀ a, s'.Waits table a ↔ s.Waits table a := fun a => (quiet.waits classed a).trans (waits₁ a)
  have entry : s'.class_entry = s.class_entry := by rw [quiet.entry, start]
  have objects : s'.objects = s.objects := by rw [quiet.objects, start]
  have closing : s'.closing = some s.size := by rw [quiet.closing, start]
  have events' : s'.events = s.events := by rw [events, start]
  have grows : s.size ≤ s'.size := size ▸ quiet.size
  have none_ends : ∀ t ∈ s'.tasks, t.ends = none := by
    intro t ht
    rw [tasks, start] at ht
    simp only [rootArrays, map_cons, map_nil, cons_append, nil_append, mem_cons, not_mem_nil, or_false] at ht
    rcases ht with rfl | rfl | rfl | rfl | rfl | rfl | rfl | rfl <;> rfl
  refine ⟨⟨?_, ?_, ?_, ?_, ?_, ?_, ?_, ?_, ?_, ?_, ?_⟩, .inl (by rw [quiet.closed, start]), fun a => ?_⟩
  · intro a born
    rw [entry] at born
    exact lt_of_lt_of_le (inv.classed a born) grows
  · intro a f tagged born
    rw [entry] at born
    have lt : a < s₁.size := size ▸ inv.classed a born
    have tagged₁ := (quiet.tags a lt).symm.trans tagged
    rw [start] at tagged₁
    exact inv.typed a f tagged₁ born
  · intro a waiting
    rw [objects]
    exact inv.listed a ((waits a).mp waiting)
  · intro a ha
    rw [objects] at ha
    exact lt_of_lt_of_le (inv.below a ha) grows
  · rw [objects]
    exact inv.nodup
  · intro t ht a ends
    rw [none_ends t ht] at ends
    cases ends
  · rw [tasks, start]
    simp only [rootArrays, map_cons, map_nil, cons_append, nil_append, dropLast_cons_cons,
      dropLast_singleton, mem_cons, not_mem_nil, or_false, reduceCtorEq, not_false_eq_true]
  · intro m at_m
    rw [closing] at at_m
    cases at_m
    exact grows
  · intro m _ a _ waiting
    rw [objects]
    have listed := inv.listed a ((waits a).mp waiting)
    obtain ⟨c, l, list⟩ := exists_cons_of_ne_nil (ne_nil_of_mem listed)
    have objects₁ : s₁.objects = c :: l := by rw [start]; exact list
    rw [objects₁, head?_cons] at tasks
    refine ⟨c, false, ?_, ?_, ?_⟩
    · rw [tasks]
      exact .head _
    · exact lt_of_lt_of_le (inv.below c (by rw [list]; exact .head _)) grows
    · rw [list] at listed ⊢
      rcases mem_cons.mp listed with same | later
      · exact .inl same
      · exact .inr (.inr (cons_sublist_cons.mpr (singleton_sublist.mpr later)))
  · intro e he
    rw [events'] at he
    exact lt_of_lt_of_le (inv.told e he) grows
  · intro c hc
    rcases quiet.buffered c hc with old | lt
    · rw [start] at old
      exact lt_of_lt_of_le (inv.buffered c old) grows
    · exact lt
  · refine .stays (waits a) (congrFun entry a) ⟨[], ?_, not_mem_nil, fun _ => not_mem_nil⟩ ?_
      fun _ => ?_
    · rw [events', append_nil]
    · exact not_loses_code none_end a
    · rw [quiet.closed, start]

theorem stepped_code (inv : s.Inv table) (top : s.tasks = .code :: rest) (h : s.act action = some s') :
    Stepped table action s s' := by
  have spared : ∀ a, ¬ s.Loses table action a := not_loses_code top
  cases action with
  | go ready => cases h
  | make type slots =>
    simp only [act] at h
    split at h
    · cases h
    · cases h
      exact (quiet_make _).stepped_push inv rfl (p := []) rfl plain_nil spared
  | new k slots => exact stepped_new inv h spared
  | constructed a =>
    simp only [act] at h
    split at h
    · cases h
    · split at h
      · cases h
        exact Quiet.stepped_push inv ⟨le_rfl, fun _ _ => rfl, rfl, rfl, rfl, fun _ h => .inl h, rfl⟩ rfl (p := []) rfl
          plain_nil spared
      · cases h
  | retain a =>
    obtain ⟨quiet, events, tasks⟩ := quiet_retain h
    exact quiet.stepped_push inv events (p := []) tasks plain_nil spared
  | release a =>
    cases h
    exact Quiet.stepped_push inv ⟨le_rfl, fun _ _ => rfl, rfl, rfl, rfl, fun _ h => .inl h, rfl⟩ rfl (p := [.release a]) rfl
      (plain_singleton nofun rfl) spared
  | write a slots =>
    obtain ⟨quiet, events, tasks⟩ := quiet_update h fun v => ⟨rfl, rfl, rfl⟩
    exact quiet.stepped_push inv events (p := []) tasks plain_nil spared
  | sweep which =>
    simp only [act] at h
    split at h
    · cases h
    · obtain ⟨quiet, events, tasks⟩ := quiet_sweepFrom h
      exact quiet.stepped_push inv events (p := [_]) tasks (plain_singleton nofun rfl) spared
  | collect =>
    cases h
    exact Quiet.stepped_push inv ⟨le_rfl, fun _ _ => rfl, rfl, rfl, rfl, fun _ h => .inl h, rfl⟩ rfl (p := [.collect]) rfl
      (plain_singleton nofun rfl) spared
  | done =>
    simp only [act] at h
    split at h
    · cases h
    · cases h
      refine Quiet.stepped_top inv top ⟨le_rfl, fun _ _ => rfl, rfl, rfl, rfl, fun _ h => .inl h, rfl⟩ rfl (p := []) ?_ nofun
        nofun spared
      rw [top]
      rfl
  | close =>
    simp only [act] at h
    split at h
    · next alone => exact stepped_close inv alone rfl h
    · cases h

theorem stepped_definitions (inv : s.Inv table) (top : s.tasks = .definitions :: rest)
    (h : s.clearDefinitions action = some s') : Stepped table action s s' := by
  have spared : ∀ a, ¬ s.Loses table action a := not_loses_definitions top
  cases action with
  | release a =>
    cases h
    exact Quiet.stepped_push inv ⟨le_rfl, fun _ _ => rfl, rfl, rfl, rfl, fun _ h => .inl h, rfl⟩ rfl (p := [.release a]) rfl
      (plain_singleton nofun rfl) spared
  | collect =>
    cases h
    exact Quiet.stepped_push inv ⟨le_rfl, fun _ _ => rfl, rfl, rfl, rfl, fun _ h => .inl h, rfl⟩ rfl (p := [.collect]) rfl
      (plain_singleton nofun rfl) spared
  | done =>
    cases h
    refine Quiet.stepped_top inv top ⟨le_rfl, fun _ _ => rfl, rfl, rfl, rfl, fun _ h => .inl h, rfl⟩ rfl (p := []) ?_ nofun
      nofun spared
    rw [top]
    rfl
  | _ => cases h

/-! ## The work of the runtime -/

/-- A walk comes to every object behind the one it is at. -/
theorem following_sublist {l : List Nat} {a b : Nat} (h : [b, a].Sublist l) :
    ∃ c, following b l = some c ∧ c ∈ l ∧ (a = c ∨ [c, a].Sublist l) := by
  induction l with
  | nil => cases h
  | cons x l ih =>
    by_cases same : x = b
    · subst same
      have later : a ∈ l := by
        cases h with
        | cons _ sub => exact sub.subset (.tail _ (.head _))
        | cons_cons _ sub => exact singleton_sublist.mp sub
      obtain ⟨c, rest, rfl⟩ := exists_cons_of_ne_nil (ne_nil_of_mem later)
      refine ⟨c, by rw [following, if_pos rfl, head?_cons], .tail _ (.head _), ?_⟩
      rcases mem_cons.mp later with same | later
      · exact .inl same
      · exact .inr ((cons_sublist_cons.mpr (singleton_sublist.mpr later)).cons _)
    · have sub : [b, a].Sublist l := by
        cases h with
        | cons _ sub => exact sub
        | cons_cons _ sub => exact absurd rfl same
      obtain ⟨c, next, mem, ahead⟩ := ih sub
      refine ⟨c, by rw [following, if_neg same, next], .tail _ mem, ?_⟩
      exact ahead.imp_right fun sub => sub.cons _

theorem Later.trans {s₁ s₂ s₃ : State} (h : Later table s₁ s₂) (h' : Later table s₂ s₃) : Later table s₁ s₃ := by
  refine ⟨h.size.trans h'.size, fun a lt f'' tagged => ?_, fun a waits => h.waits a (h'.waits a waits),
    h'.entry.trans h.entry, h'.objects.trans h.objects, h'.closing.trans h.closing, fun c hc => ?_, h'.closed.trans h.closed⟩
  · obtain ⟨f', tagged', type'⟩ := h'.types a (lt.trans_le h.size) f'' tagged
    obtain ⟨f, tagged, type⟩ := h.types a lt f' tagged'
    exact ⟨f, tagged, type'.trans type⟩
  · rcases h'.buffered c hc with hc | lt
    · exact (h.buffered c hc).imp_right fun lt => lt.trans_le h'.size
    · exact .inr lt

/-- **A step that may start a destructor.** `s₂` is the state when `pobject_run_destructor` begins: the
walk of `pphp_close`, if it was on top, has moved on from `a`. -/
theorem stepped_destructor {s₂ : State} (inv : s.Inv table) (quiet : Quiet s s₂) (events : s₂.events = s.events)
    (h : s₂.runDestructor table ready a = some s') (known : a < s.size)
    (tasks : s₂.tasks = p ++ rest) (below : rest <:+ s.tasks)
    (ends : ∀ t ∈ p, t ≠ .freeState ∧ (t.ends = none ∨ t.ends = some a))
    (sweeps : ∀ x b i, x ≠ a → Task.sweep (some b) .all i ∈ s.tasks → b < s.size → Ahead s.objects b x →
      ∃ b' i', Task.sweep (some b') .all i' ∈ s₂.tasks ∧ b' < s.size ∧ Ahead s.objects b' x)
    (loses : s.Loses table (.go ready) a ↔ s.Waits table a ∧ s.refuses table ready a)
    (others : ∀ x ≠ a, ¬ s.Loses table (.go ready) x) : Stepped table (.go ready) s s' := by
  have classed : s₂.Classed := by
    intro x born
    rw [quiet.entry] at born
    exact lt_of_lt_of_le (inv.classed x born) quiet.size
  have last : .freeState ∉ s₂.tasks.dropLast := tasks ▸ last_append inv.last below fun t ht => (ends t ht).1
  by_cases waits : s.Waits table a
  · obtain ⟨⟨later, done, same⟩, called, q, tasks', plain⟩ :=
      runDestructor_of_waits classed h ((quiet.waits inv.classed a).mpr waits)
    have refuses : s₂.refuses table ready a ↔ s.refuses table ready a := by
      unfold refuses destructor
      rw [quiet.entry]
    rw [refuses, events] at called
    have later' := (quiet.later inv.classed).trans later
    refine ⟨inv.later later' ?_ ?_ ?_ ?_, .inl later'.closed, fun x => ?_⟩
    · intro t ht
      rw [tasks', tasks] at ht
      rcases mem_append.mp ht with new | ht
      · refine .inr fun x e => ?_
        rw [(plain t new).2] at e
        cases e
      · rcases mem_append.mp ht with new | old
        · refine .inr fun x e => ?_
          rcases (ends t new).2 with none | own
          · rw [none] at e
            cases e
          · rw [own] at e
            cases e
            exact ⟨known, done⟩
        · exact .inl (below.subset old)
    · intro x b i waiting sweep known ahead
      have ne : x ≠ a := by
        rintro rfl
        exact done waiting
      obtain ⟨b', i', sweep', rest⟩ := sweeps x b i ne sweep known ahead
      refine ⟨b', i', ?_, rest⟩
      rw [tasks']
      exact mem_append_right _ sweep'
    · intro e he
      rcases called with ⟨none, -⟩ | ⟨one, -⟩
      · rw [none] at he
        exact .inl he
      · rw [one] at he
        rcases mem_append.mp he with old | new
        · exact .inl old
        · cases mem_singleton.mp new
          exact .inr known
    · rw [tasks']
      exact last_append last (suffix_refl _) fun t ht => (plain t ht).1
    · have entry : s'.class_entry x = s.class_entry x := by rw [later.entry, quiet.entry]
      by_cases own : x = a
      · subst own
        rcases called with ⟨none, refused⟩ | ⟨one, accepted⟩
        · exact .lost (loses.mpr ⟨waits, refused⟩) done entry none
        · exact .invoked waits done entry one fun lost => accepted (loses.mp lost).2
      · refine .stays ((same x own).trans (quiet.waits inv.classed x)) entry ?_ (others x own)
          fun _ => later'.closed
        rcases called with ⟨none, -⟩ | ⟨one, -⟩
        · exact ⟨[], by rw [none, append_nil], not_mem_nil, fun _ => not_mem_nil⟩
        · refine ⟨[.invoked a], one, fun hx => ?_, fun _ hx => ?_⟩
          · cases mem_singleton.mp hx
            exact own rfl
          · cases mem_singleton.mp hx
  · have same := runDestructor_of_not h fun waits' => waits ((quiet.waits inv.classed a).mp waits')
    subst same
    refine ⟨inv.later (quiet.later inv.classed) ?_ ?_ ?_ last, .inl quiet.closed, quiet.fate inv events fun x => ?_⟩
    · intro t ht
      rw [tasks] at ht
      rcases mem_append.mp ht with new | old
      · refine .inr fun x e => ?_
        rcases (ends t new).2 with none | own
        · rw [none] at e
          cases e
        · rw [own] at e
          cases e
          exact ⟨known, fun waits' => waits ((quiet.waits inv.classed a).mp waits')⟩
      · exact .inl (below.subset old)
    · intro x b i waiting sweep known ahead
      have ne : x ≠ a := by
        rintro rfl
        exact waits ((quiet.waits inv.classed x).mp waiting)
      exact sweeps x b i ne sweep known ahead
    · intro e he
      rw [events] at he
      exact .inl he
    · by_cases own : x = a
      · subst own
        exact fun lost => waits (loses.mp lost).1
      · exact others x own

theorem quiet_tasks (s : State) (rest : List Task) : Quiet s { s with tasks := rest } :=
  ⟨le_rfl, fun _ _ => rfl, rfl, rfl, rfl, fun _ h => .inl h, rfl⟩

theorem stepped_release (inv : s.Inv table) (top : s.tasks = .release a :: rest)
    (h : ({ s with tasks := rest } : State).release table ready a = some s') : Stepped table (.go ready) s s' := by
  unfold release at h
  cases at_a : s.gc.value a with
  | none => simp only [at_a, reduceCtorEq] at h
  | some v =>
    have loses : ∀ x, s.Loses table (.go ready) x ↔
        s.Waits table x ∧ a = x ∧ s.gc.rc x = 1 ∧ s.refuses table ready x := by
      intro x
      unfold Loses
      rw [top]
      exact Iff.rfl
    have count : s.gc.rc a = v.refcnt := Gc.rc_of_value at_a
    simp only [at_a] at h
    split at h
    · next stuck =>
      cases h
      refine (quiet_tasks s rest).stepped_top inv top rfl (p := []) rfl (fun _ _ h => by cases h) (fun _ h => absurd h not_mem_nil) fun x => ?_
      rw [loses]
      rintro ⟨-, rfl, one, -⟩
      omega
    · next alive =>
      split at h
      · next many =>
        cases h
        have quiet : Quiet s { s with
            gc := (s.gc.put a { v with refcnt := v.refcnt - 1 }).buffer a
            tasks := rest } := by
          have length := (length_buffer (s.gc.put a { v with refcnt := v.refcnt - 1 }) a).trans List.length_set
          refine ⟨length.symm.le, fun x _ => ?_, rfl, rfl, rfl, fun c hc => ?_, rfl⟩
          · exact (Gc.tags_buffer _ a x).trans (Gc.tags_put at_a rfl rfl rfl)
          · have lt : a < (s.gc.put a { v with refcnt := v.refcnt - 1 }).heap.length := by
              rw [Gc.put, List.length_set]
              exact Gc.lt_of_value at_a
            refine (mem_candidates_buffer lt hc).imp_right fun lt => lt.trans_le (le_of_eq ?_)
            exact (length_buffer _ a).symm
        refine quiet.stepped_top inv top rfl (p := []) rfl (fun _ _ h => by cases h) (fun _ h => absurd h not_mem_nil) fun x => ?_
        rw [loses]
        rintro ⟨-, rfl, one, -⟩
        omega
      · next last =>
        have one : s.gc.rc a = 1 := by omega
        have lt := Gc.lt_of_value at_a
        have quiet : ∀ l, Quiet s { s with
            gc := (s.gc.put a { v with refcnt := 0 }).unbuffer a
            tasks := l } := by
          intro l
          refine ⟨le_of_eq ?_, fun x _ => ?_, rfl, rfl, rfl, fun c hc => ?_, rfl⟩
          · exact ((length_unbuffer _ a).trans List.length_set).symm
          · exact (Gc.tags_unbuffer _ a x).trans (Gc.tags_put at_a rfl rfl rfl)
          · have old := mem_candidates_unbuffer hc
            exact .inl old
        split at h
        · refine stepped_destructor inv (quiet (.unlink a :: rest)) rfl h lt (p := [.unlink a]) rfl ?_ ?_ ?_ ?_ ?_
          · rw [top]
            exact suffix_cons _ _
          · intro t ht
            cases mem_singleton.mp ht
            exact ⟨(fun h => by cases h), .inr rfl⟩
          · intro x b i _ sweep known ahead
            rw [top] at sweep
            have old := (mem_cons.mp sweep).resolve_left fun h => by cases h
            exact ⟨b, i, .tail _ old, known, ahead⟩
          · rw [loses]
            exact ⟨fun h => ⟨h.1, h.2.2.2⟩, fun h => ⟨h.1, rfl, one, h.2⟩⟩
          · intro x ne
            rw [loses]
            rintro ⟨-, rfl, -⟩
            exact ne rfl
        · next other =>
          cases h
          have done : ¬ s.Waits table a := by
            intro waits
            refine other (inv.typed a (v.type, v.collecting, v.destroying) ?_ waits.entry)
            rw [Gc.tags, at_a]
            rfl
          refine (quiet (.drop a 0 :: rest)).stepped_top inv top rfl (p := [.drop a 0]) rfl (fun _ _ h => by cases h) ?_ fun x => ?_
          · intro t ht
            cases mem_singleton.mp ht
            refine ⟨(fun h => by cases h), fun x e => ?_⟩
            cases e
            exact ⟨lt, done⟩
          · rw [loses]
            rintro ⟨waits, rfl, -⟩
            exact done waits

theorem stepped_visit {which : Sweep} {i : Bool} (inv : s.Inv table) (top : s.tasks = .sweep (some a) which i :: rest)
    (h : ({ s with tasks := rest } : State).visit table ready a which i = some s') :
    Stepped table (.go ready) s s' := by
  unfold visit at h
  cases at_a : s.gc.value a with
  | none => simp only [at_a, reduceCtorEq] at h
  | some v =>
    have loses : ∀ x, s.Loses table (.go ready) x ↔
        s.Waits table x ∧ a = x ∧ s.selects x which = true ∧ s.refuses table ready x := by
      intro x
      unfold Loses
      rw [top]
      exact Iff.rfl
    simp only [at_a] at h
    split at h
    · cases h
    · next listed =>
      have listed : a ∈ s.objects := not_not.mp listed
      split at h
      · next selected =>
        have selected : s.selects a which = true := selected
        obtain ⟨s₂, moved, h⟩ := Option.bind_eq_some_iff.mp h
        obtain ⟨quiet, events, tasks⟩ := quiet_sweepFrom moved
        have quiet' : Quiet s (s₂.push [.release a]) := (quiet_tasks s rest).trans (quiet.trans (quiet_tasks s₂ _))
        have tasks' : (s₂.push [.release a]).tasks =
            [Task.release a, Task.sweep (following a s.objects) which (i || s.runs table v a)] ++ rest := by
          rw [push, tasks]
          rfl
        refine stepped_destructor inv quiet' events h (Gc.lt_of_value at_a) tasks' ?_ ?_ ?_ ?_ ?_
        · rw [top]
          exact suffix_cons _ _
        · intro t ht
          simp only [mem_cons, not_mem_nil, or_false] at ht
          rcases ht with rfl | rfl <;> exact ⟨nofun, .inl rfl⟩
        · intro x b j ne sweep known ahead
          rw [tasks']
          rw [top] at sweep
          rcases mem_cons.mp sweep with here | old
          · -- the walk of `pphp_close` itself moves on
            simp only [Task.sweep.injEq, Option.some.injEq] at here
            obtain ⟨rfl, rfl, -⟩ := here
            have sub : [b, x].Sublist s.objects := (ahead.resolve_left ne).resolve_left (not_not.mpr listed)
            obtain ⟨c, next, mem, ahead'⟩ := following_sublist sub
            rw [next]
            refine ⟨c, _, .tail _ (.head _), inv.below c mem, ?_⟩
            exact ahead'.imp_right .inr
          · exact ⟨b, j, .tail _ (.tail _ old), known, ahead⟩
        · rw [loses]
          exact ⟨fun ⟨waits, _, _, refused⟩ => ⟨waits, refused⟩, fun ⟨waits, refused⟩ => ⟨waits, rfl, selected, refused⟩⟩
        · intro x ne
          rw [loses]
          rintro ⟨-, rfl, -⟩
          exact ne rfl
      · next skipped =>
        have skipped : ¬ s.selects a which = true := skipped
        obtain ⟨s₂, moved, h⟩ := Option.bind_eq_some_iff.mp h
        cases h
        obtain ⟨quiet, events, tasks⟩ := quiet_sweepFrom moved
        have quiet' : Quiet s (s₂.push [.release a]) := (quiet_tasks s rest).trans (quiet.trans (quiet_tasks s₂ _))
        refine quiet'.stepped_top inv top events (p := [Task.release a, Task.sweep (following a s.objects) which i]) ?_ ?_ ?_
          fun x => ?_
        · rw [push, tasks]
          rfl
        · intro b j here
          simp only [Task.sweep.injEq] at here
          rw [here.2.1] at skipped
          exact skipped rfl
        · intro t ht
          simp only [mem_cons, not_mem_nil, or_false] at ht
          rcases ht with rfl | rfl <;> exact ⟨nofun, nofun⟩
        · rw [loses]
          rintro ⟨-, rfl, selected, -⟩
          exact skipped selected

theorem stepped_unlink (inv : s.Inv table) (top : s.tasks = .unlink a :: rest)
    (made : s' = { s with
      objects := s.objects.erase a
      events := s.events ++ [Event.emptied a]
      tasks := .drop a 0 :: rest }) : Stepped table (.go ready) s s' := by
  obtain ⟨lt, done⟩ := inv.ends (.unlink a) (by rw [top]; exact .head _) a rfl
  have spared : ∀ x, ¬ s.Loses table (.go ready) x := by
    rintro x ⟨-, loses⟩
    rw [top] at loses
    exact loses
  subst made
  have waits : ∀ x, State.Waits table { s with
      objects := s.objects.erase a
      events := s.events ++ [Event.emptied a]
      tasks := .drop a 0 :: rest } x ↔ s.Waits table x := fun x => waits_congr rfl rfl
  refine ⟨⟨inv.classed, inv.typed, fun x waiting => ?_, fun x hx => ?_, inv.nodup.erase a, fun t ht x ends => ?_,
    ?_, inv.before, fun m closing x lt' waiting => ?_, fun e he => ?_, inv.buffered⟩, .inl rfl, fun x => ?_⟩
  · have waiting := (waits x).mp waiting
    have ne : x ≠ a := by
      rintro rfl
      exact done waiting
    exact (mem_erase_of_ne ne).mpr (inv.listed x waiting)
  · exact inv.below x (mem_of_mem_erase hx)
  · rw [waits]
    rcases mem_cons.mp ht with rfl | old
    · cases ends
      exact ⟨lt, done⟩
    · exact inv.ends t (by rw [top]; exact .tail _ old) x ends
  · refine last_append (p := [.drop a 0]) inv.last (by rw [top]; exact suffix_cons _ _) fun t ht => ?_
    cases mem_singleton.mp ht
    exact nofun
  · have waiting := (waits x).mp waiting
    obtain ⟨b, i, sweep, known, ahead⟩ := inv.old m closing x lt' waiting
    rw [top] at sweep
    have old := (mem_cons.mp sweep).resolve_left nofun
    refine ⟨b, i, .tail _ old, known, ?_⟩
    rcases ahead with same | gone | sub
    · exact .inl same
    · exact .inr (.inl fun hb => gone (mem_of_mem_erase hb))
    · by_cases own : b = a
      · rw [own]
        exact .inr (.inl inv.nodup.not_mem_erase)
      · -- what is taken out is neither of the two
        have ne : x ≠ a := by
          rintro rfl
          exact done waiting
        have kept : [b, x].erase a = [b, x] := List.erase_of_not_mem (by
          simp only [mem_cons, not_mem_nil, or_false, not_or]
          exact ⟨Ne.symm own, Ne.symm ne⟩)
        have sub' := sub.erase a
        rw [kept] at sub'
        exact .inr (.inr sub')
  · rcases mem_append.mp he with old | new
    · exact inv.told e old
    · cases mem_singleton.mp new
      exact lt
  · refine .stays (waits x) rfl ⟨[.emptied a], rfl, ?_, fun waiting hx => ?_⟩ (spared x) fun _ => rfl
    · intro hx
      cases mem_singleton.mp hx
    · cases mem_singleton.mp hx
      exact done waiting

/-- Freeing a value that does not wait. -/
theorem later_free (rest : List Task) (done : ¬ s.Waits table a) :
    Later table s { s with gc := s.gc.free a, tasks := rest } ∧
      ∀ x, State.Waits table { s with gc := s.gc.free a, tasks := rest } x ↔ s.Waits table x := by
  have gone : ¬ State.Waits table { s with gc := s.gc.free a, tasks := rest } a := by
    rintro ⟨v, at_a, -⟩
    exact nomatch at_a.symm.trans Gc.value_free_self
  have tags : ∀ x ≠ a, (s.gc.free a).tags x = s.gc.tags x := fun x ne => Gc.tags_free (Ne.symm ne)
  have waits : ∀ x, State.Waits table { s with gc := s.gc.free a, tasks := rest } x ↔ s.Waits table x := by
    intro x
    by_cases same : x = a
    · rw [same]
      exact iff_of_false gone done
    · exact waits_congr (tags x same) rfl
  refine ⟨⟨List.length_set.symm.le, fun x _ f' tagged => ?_, fun x => (waits x).mp, rfl, rfl, rfl,
    fun _ h => .inl h, rfl⟩, waits⟩
  by_cases same : x = a
  · rw [same, Gc.tags_free_self] at tagged
    cases tagged
  · exact ⟨f', (tags x same).symm.trans tagged, rfl⟩

theorem stepped_drop {i : Nat} (inv : s.Inv table) (top : s.tasks = .drop a i :: rest)
    (h : ({ s with tasks := rest } : State).work table ready (.drop a i) = some s') :
    Stepped table (.go ready) s s' := by
  obtain ⟨lt, done⟩ := inv.ends (.drop a i) (by rw [top]; exact .head _) a rfl
  have spared : ∀ x, ¬ s.Loses table (.go ready) x := by
    rintro x ⟨-, loses⟩
    rw [top] at loses
    exact loses
  simp only [work] at h
  split at h
  · cases h
  · split at h
    · cases h
      obtain ⟨later, waits⟩ := later_free rest done
      refine ⟨inv.pushed later (p := []) rfl ?_ ?_ nofun fun e he => .inl he, .inl rfl, fun x => ?_⟩
      · rw [top]
        exact suffix_cons _ _
      · intro b j sweep
        rw [top] at sweep
        exact (mem_cons.mp sweep).resolve_left nofun
      · refine .stays (waits x) rfl ⟨[], ?_, not_mem_nil, fun _ => not_mem_nil⟩ (spared x)
          fun _ => rfl
        exact (append_nil _).symm
    · cases h
      refine (quiet_tasks s _).stepped_top inv top rfl rfl nofun ?_ spared
      intro t ht
      rcases mem_append.mp ht with release | more
      · obtain ⟨c, -, rfl⟩ := List.mem_map.mp release
        exact ⟨nofun, nofun⟩
      · cases mem_singleton.mp more
        refine ⟨nofun, fun x e => ?_⟩
        cases e
        exact ⟨lt, done⟩

theorem stepped_clear {i : Nat} (inv : s.Inv table) (top : s.tasks = .clear a i :: rest)
    (h : ({ s with tasks := rest } : State).work table ready (.clear a i) = some s') :
    Stepped table (.go ready) s s' := by
  obtain ⟨lt, done⟩ := inv.ends (.clear a i) (by rw [top]; exact .head _) a rfl
  have spared : ∀ x, ¬ s.Loses table (.go ready) x := by
    rintro x ⟨-, loses⟩
    rw [top] at loses
    exact loses
  simp only [work] at h
  split at h
  · cases h
  · next v at_a =>
    split at h
    · cases h
      exact (quiet_tasks s rest).stepped_top inv top rfl (p := []) rfl nofun nofun spared
    · next slot _ =>
      cases h
      set p : List Task := slot.target.toList.map Task.release ++ [Task.clear a (i + 1)] with pushed
      have plain : ∀ t ∈ p, t ≠ .freeState ∧ ∀ x, t.ends = some x → x < s.size ∧ ¬ s.Waits table x := by
        intro t ht
        rcases mem_append.mp ht with release | more
        · obtain ⟨c, -, rfl⟩ := List.mem_map.mp release
          exact ⟨nofun, nofun⟩
        · cases mem_singleton.mp more
          refine ⟨nofun, fun x e => ?_⟩
          cases e
          exact ⟨lt, done⟩
      have quiet : ∀ events, Quiet s { s with
          gc := s.gc.put a { v with slots := v.slots.set i .null }
          events := events
          tasks := p ++ rest } := fun events =>
        ⟨List.length_set.symm.le, fun x _ => Gc.tags_put at_a rfl rfl rfl, rfl, rfl, rfl, fun _ h => .inl h, rfl⟩
      by_cases first : i = 0
      · simp only [if_pos first]
        refine ⟨inv.pushed ((quiet _).later inv.classed) (p := p) rfl ?_ ?_ ?_ ?_, .inl rfl, ?_⟩
        · rw [top]
          exact suffix_cons _ _
        · intro b j sweep
          rw [top] at sweep
          exact (mem_cons.mp sweep).resolve_left nofun
        · intro t ht
          obtain ⟨ne, ends⟩ := plain t ht
          refine ⟨ne, fun x e => ?_⟩
          obtain ⟨lt, not⟩ := ends x e
          exact ⟨lt, fun waits => not (((quiet _).waits inv.classed x).mp waits)⟩
        · intro e he
          rcases mem_append.mp he with old | new
          · exact .inl old
          · cases mem_singleton.mp new
            exact .inr lt
        · exact (quiet _).fate_emptied inv rfl done spared
      · simp only [if_neg first, append_nil]
        exact (quiet _).stepped_top inv top rfl (p := p) rfl nofun plain spared

/-- The values a collection takes are flagged; they are the nodes nothing anchors. -/
theorem later_collect {gc : Gc} {tasks : List Task}
    (condemn : gc = s.garbage.foldl (Gc.update condemned) s.gc.clearBuffer) (empty : gc.candidates = []) :
    Later table s { s with gc := gc, collecting := true, tasks := tasks } ∧
      ∀ x, State.Waits table { s with gc := gc, collecting := true, tasks := tasks } x ↔
        s.Waits table x ∧ x ∉ s.garbage := by
  set s' : State := { s with gc := gc, collecting := true, tasks := tasks } with made
  have length : gc.heap.length = s.gc.heap.length := by
    rw [condemn]
    exact (length_updates _ _).trans (length_updates _ _)
  have tags : ∀ x, s'.gc.tags x =
      if x ∈ s.garbage then (s.gc.tags x).map fun f => (f.1, true, f.2.2) else s.gc.tags x := by
    intro x
    rw [made, condemn, Gc.tags_condemned, Gc.tags_clearBuffer]
  have waits : ∀ x, s'.Waits table x ↔ s.Waits table x ∧ x ∉ s.garbage := by
    intro x
    by_cases taken : x ∈ s.garbage
    · refine iff_of_false ?_ fun h => h.2 taken
      intro waiting
      obtain ⟨t, tagged, -⟩ := waits_iff.mp waiting
      rw [tags, if_pos taken] at tagged
      obtain ⟨f, -, e⟩ := Option.map_eq_some_iff.mp tagged
      simp only [Prod.mk.injEq, Bool.true_eq_false, false_and, and_false] at e
    · refine Iff.trans ?_ (and_iff_left taken).symm
      refine waits_congr ?_ rfl
      rw [tags, if_neg taken]
  refine ⟨⟨length.symm.le, fun x _ f' tagged => ?_, fun x waiting => ((waits x).mp waiting).1, rfl, rfl, rfl,
    fun c hc => ?_, rfl⟩, waits⟩
  · rw [tags] at tagged
    split at tagged
    · obtain ⟨f, own, rfl⟩ := Option.map_eq_some_iff.mp tagged
      exact ⟨f, own, rfl⟩
    · exact ⟨f', tagged, rfl⟩
  · have none : s'.gc.candidates = [] := empty
    rw [none] at hc
    cases hc

theorem candidates_updates {f : HeapValue → HeapValue} (l : List Nat) (gc : Gc) :
    (l.foldl (Gc.update f) gc).candidates = gc.candidates := by
  induction l generalizing gc with
  | nil => rfl
  | cons a rest ih =>
    rw [foldl_cons, ih]
    unfold Gc.update
    split <;> rfl

theorem garbage_lt (inv : s.Inv table) (h : a ∈ s.garbage) : a < s.size := by
  have length : s.gc.clearBuffer.heap.length = s.gc.heap.length := length_updates _ _
  refine Gc.discoverFrom_all (P := fun x => x < s.size) ?_ 256 0 inv.buffered a (mem_filter.mp h).1
  intro x _ c hc
  obtain ⟨v, -, -, w, at_c, -⟩ := Gc.mem_containerChildren.mp hc
  exact lt_of_lt_of_le (Gc.lt_of_value at_c) (length.le)

theorem stepped_collect (inv : s.Inv table) (top : s.tasks = .collect :: rest)
    (made : s' = ({ s with tasks := rest } : State).collect) : Stepped table (.go ready) s s' := by
  have loses : ∀ x, s.Loses table (.go ready) x ↔ s.Waits table x ∧ s.collects = true ∧ x ∈ s.garbage := by
    intro x
    unfold Loses
    rw [top, State.garbage, mem_filter, decide_eq_true_eq, Gc.mem_marks]
    exact Iff.rfl
  unfold collect at made
  split at made
  · next begins =>
    have begins : s.collects = true := begins
    have made : s' = { s with
        gc := s.garbage.foldl (Gc.update condemned) s.gc.clearBuffer
        collecting := true
        tasks := s.garbage.map (Task.clear · 0) ++ s.garbage.map Task.release ++ .collected :: rest } := made
    have empty : (s.garbage.foldl (Gc.update condemned) s.gc.clearBuffer).candidates = [] := candidates_updates _ _
    obtain ⟨later, waits⟩ := later_collect rfl empty
    rw [← made] at later waits
    have tasks : s'.tasks =
        (s.garbage.map (Task.clear · 0) ++ s.garbage.map Task.release ++ [Task.collected]) ++ rest := by
      simp only [made, append_assoc, singleton_append]
    refine ⟨inv.pushed later tasks ?_ ?_ ?_ ?_, .inl later.closed, fun x => ?_⟩
    · rw [top]
      exact suffix_cons _ _
    · intro b i sweep
      rw [top] at sweep
      exact (mem_cons.mp sweep).resolve_left nofun
    · intro t ht
      rcases mem_append.mp ht with ht | ht
      · rcases mem_append.mp ht with ht | ht
        · obtain ⟨c, taken, rfl⟩ := List.mem_map.mp ht
          refine ⟨nofun, fun x e => ?_⟩
          cases e
          exact ⟨garbage_lt inv taken, fun waiting => ((waits c).mp waiting).2 taken⟩
        · obtain ⟨c, -, rfl⟩ := List.mem_map.mp ht
          exact ⟨nofun, nofun⟩
      · cases mem_singleton.mp ht
        exact ⟨nofun, nofun⟩
    · intro e he
      rw [made] at he
      exact .inl he
    · have events : s'.events = s.events := by rw [made]
      have entry : s'.class_entry x = s.class_entry x := by rw [made]
      by_cases lost : s.Loses table (.go ready) x
      · exact .lost lost (fun waiting => ((waits x).mp waiting).2 ((loses x).mp lost).2.2) entry events
      · refine .stays ((waits x).trans ?_) entry ⟨[], ?_, not_mem_nil, fun _ => not_mem_nil⟩ lost
          fun _ => later.closed
        · refine and_iff_left_of_imp fun waiting taken => ?_
          exact lost ((loses x).mpr ⟨waiting, begins, taken⟩)
        · rw [events, append_nil]
  · next idle =>
    subst made
    refine (quiet_tasks s rest).stepped_top inv top rfl (p := []) rfl nofun nofun fun x => ?_
    rw [loses]
    rintro ⟨-, begins, -⟩
    exact idle begins

theorem stepped_freeState (inv : s.Inv table) (top : s.tasks = .freeState :: rest)
    (made : s' = { s with tasks := [], closed := true }) : Stepped table (.go ready) s s' := by
  have alone : rest = [] := by
    by_contra some_rest
    have last := inv.last
    rw [top, dropLast_cons_of_ne_nil some_rest] at last
    exact last (.head _)
  -- the walk of `pphp_close` is over: what waits now was made after it began
  have late : ∀ x, s.Waits table x → s.Loses table (.go ready) x := by
    intro x waiting
    refine ⟨waiting, ?_⟩
    rw [top]
    intro m closing
    by_contra old
    obtain ⟨b, i, sweep, -⟩ := inv.old m closing x (Nat.lt_of_not_le old) waiting
    rw [top, alone] at sweep
    cases mem_singleton.mp sweep
  subst made
  have waits : ∀ x, State.Waits table { s with tasks := [], closed := true } x ↔ s.Waits table x :=
    fun x => waits_congr rfl rfl
  refine ⟨⟨inv.classed, inv.typed, inv.listed, inv.below, inv.nodup, nofun, nofun, inv.before, ?_, inv.told,
    inv.buffered⟩, .inr rfl, fun x => ?_⟩
  · intro m closing x lt waiting
    obtain ⟨b, i, sweep, -⟩ := inv.old m closing x lt waiting
    rw [top, alone] at sweep
    cases mem_singleton.mp sweep
  · by_cases waiting : s.Waits table x
    · exact .left (late x waiting) rfl rfl
    · refine .stays (waits x) rfl ⟨[], ?_, not_mem_nil, fun _ => not_mem_nil⟩
        (fun lost => waiting lost.1) fun waits => absurd waits waiting
      exact (append_nil _).symm

theorem stepped_work {task : Task} (inv : s.Inv table) (top : s.tasks = task :: rest)
    (h : ({ s with tasks := rest } : State).work table ready task = some s') : Stepped table (.go ready) s s' := by
  cases task with
  | code => cases h
  | definitions => cases h
  | release a => exact stepped_release inv top h
  | unlink a =>
    cases h
    exact stepped_unlink inv top rfl
  | drop a i => exact stepped_drop inv top h
  | unguard a =>
    obtain ⟨quiet, events, tasks⟩ := quiet_update h fun v => ⟨rfl, rfl, rfl⟩
    refine ((quiet_tasks s rest).trans quiet).stepped_top inv top events (p := []) tasks nofun nofun ?_
    rintro x ⟨-, loses⟩
    rw [top] at loses
    exact loses
  | sweep next which i =>
    cases next with
    | some a => exact stepped_visit inv top h
    | none =>
      have spared : ∀ x, ¬ s.Loses table (.go ready) x := by
        rintro x ⟨-, loses⟩
        rw [top] at loses
        exact loses
      simp only [work] at h
      split at h
      · obtain ⟨quiet, events, tasks⟩ := quiet_sweepFrom h
        refine ((quiet_tasks s rest).trans quiet).stepped_top inv top events (p := [_]) tasks nofun ?_ spared
        intro t ht
        cases mem_singleton.mp ht
        exact ⟨nofun, nofun⟩
      · cases h
        exact (quiet_tasks s rest).stepped_top inv top rfl (p := []) rfl nofun nofun spared
  | collect =>
    cases h
    exact stepped_collect inv top rfl
  | clear a i => exact stepped_clear inv top h
  | collected =>
    cases h
    refine Quiet.stepped_top inv top ?_ rfl (p := []) rfl nofun nofun ?_
    · exact ⟨le_rfl, fun _ _ => rfl, rfl, rfl, rfl, fun _ h => .inl h, rfl⟩
    · rintro x ⟨-, loses⟩
      rw [top] at loses
      exact loses
  | destroyArray a =>
    simp only [work] at h
    split at h
    · cases h
    · next v at_a =>
      have at_a : s.gc.value a = some v := at_a
      split at h
      · next array =>
        cases h
        have done : ¬ s.Waits table a := by
          intro waits
          have object := inv.typed a (v.type, v.collecting, v.destroying) (by rw [Gc.tags, at_a]; rfl) waits.entry
          exact nomatch array.symm.trans object
        have quiet : Quiet s { s with gc := s.gc.unbuffer a, tasks := .drop a 0 :: rest } := by
          refine ⟨le_of_eq (length_unbuffer _ a).symm, fun x _ => Gc.tags_unbuffer _ a x, rfl, rfl, rfl,
            fun c hc => .inl ?_, rfl⟩
          exact mem_candidates_unbuffer hc
        refine quiet.stepped_top inv top rfl (p := [.drop a 0]) rfl nofun ?_ ?_
        · intro t ht
          cases mem_singleton.mp ht
          refine ⟨nofun, fun x e => ?_⟩
          cases e
          exact ⟨Gc.lt_of_value at_a, done⟩
        · rintro x ⟨-, loses⟩
          rw [top] at loses
          exact loses
      · cases h
  | freeState =>
    cases h
    exact stepped_freeState inv top rfl

/-- **Every step** keeps the invariant and treats each object in one of the five ways. -/
theorem stepped (inv : s.Inv table) (h : s.step table action = some s') : Stepped table action s s' := by
  unfold step at h
  split at h
  · cases h
  · next top => exact stepped_code inv top h
  · next top => exact stepped_definitions inv top h
  · next top =>
    split at h
    · exact stepped_work inv top h
    · cases h

end Steps

end State
end Destruction
end PhpPico
