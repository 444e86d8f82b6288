import PhpPico.Gc.DestructorSteps

/-!
# The runtime comes to an end of its work

Between two steps of code the runtime works off its tasks. Each leads to smaller tasks or releases references; a
collection and another round of a walk may take new references, but neither leads to one of these again. So a step
makes a measure smaller, unless it flags an object whose destructor was to run.
-/

namespace PhpPico
open List

/-! ## References and slots -/

namespace Gc

/-- All the references that are counted. -/
def references (s : Gc) : Nat := (s.heap.map fun o => o.elim 0 HeapValue.refcnt).sum

/-- No value has more slots than `width`. -/
def Narrow (width : Nat) (s : Gc) : Prop := ∀ a v, s.value a = some v → v.slots.length ≤ width

section References
variable {s : Gc} {a width : Nat} {v v' : HeapValue}

theorem references_put (at_a : s.value a = some v) (v' : HeapValue) :
    (s.put a v').references + v.refcnt = s.references + v'.refcnt :=
  sum_map_set (fun o => o.elim 0 HeapValue.refcnt) (value_eq_some.mp at_a)

theorem references_free (at_a : s.value a = some v) : (s.free a).references + v.refcnt = s.references :=
  sum_map_set (fun o => o.elim 0 HeapValue.refcnt) (value_eq_some.mp at_a)

theorem references_buffer (s : Gc) (a : Nat) : (s.buffer a).references = s.references := by
  unfold buffer
  split
  · rfl
  · next v at_a =>
    split
    · rfl
    · have on := references_put at_a { v with buffered := true }
      split
      · exact Nat.add_right_cancel on
      · rfl

theorem references_unbuffer (s : Gc) (a : Nat) : (s.unbuffer a).references = s.references := by
  unfold unbuffer
  split
  · rfl
  · next v at_a =>
    split
    · exact Nat.add_right_cancel (references_put at_a { v with buffered := false })
    · rfl

theorem Narrow.congr {s' : Gc} (h : s.Narrow width) (heap : s'.heap = s.heap) : s'.Narrow width := by
  intro x w at_x
  rw [value_congr heap] at at_x
  exact h x w at_x

theorem Narrow.put (h : s.Narrow width) (at_a : s.value a = some v) (slots : v'.slots.length = v.slots.length) :
    (s.put a v').Narrow width := by
  intro x w at_x
  by_cases same : a = x
  · subst same
    rw [value_put_self (lt_of_value at_a)] at at_x
    cases at_x
    rw [slots]
    exact h a v at_a
  · rw [value_put_ne same] at at_x
    exact h x w at_x

theorem Narrow.free (h : s.Narrow width) (a : Nat) : (s.free a).Narrow width := by
  intro x w at_x
  by_cases same : a = x
  · subst same
    rw [value_free_self] at at_x
    cases at_x
  · rw [value_free_ne same] at at_x
    exact h x w at_x

theorem Narrow.buffer (h : s.Narrow width) (a : Nat) : (s.buffer a).Narrow width := by
  unfold Gc.buffer
  split
  · exact h
  · next v at_a =>
    have on : (s.put a { v with buffered := true }).Narrow width := h.put at_a rfl
    split
    · exact h
    · split
      · exact on.congr rfl
      · exact h.congr rfl

theorem Narrow.unbuffer (h : s.Narrow width) (a : Nat) : (s.unbuffer a).Narrow width := by
  unfold Gc.unbuffer
  split
  · exact h
  · next v at_a =>
    have off : (s.put a { v with buffered := false }).Narrow width := h.put at_a rfl
    split
    · exact off.congr rfl
    · exact h

theorem Narrow.updates {f : HeapValue → HeapValue} (same : ∀ v, (f v).slots = v.slots) (l : List Nat)
    (h : s.Narrow width) : (l.foldl (update f) s).Narrow width := by
  induction l generalizing s with
  | nil => exact h
  | cons a rest ih =>
    rw [foldl_cons]
    apply ih
    unfold update
    split
    · exact h
    · next v at_a =>
      exact h.put at_a (congrArg List.length (same v))

theorem Narrow.clearBuffer (h : s.Narrow width) : s.clearBuffer.Narrow width :=
  (h.updates (f := fun v => { v with buffered := false }) (fun _ => rfl) s.candidates).congr rfl

theorem exists_narrow (s : Gc) : ∃ width, s.Narrow width := by
  refine ⟨(s.heap.map fun o => o.elim 0 fun v => v.slots.length).sum, fun a v at_a => ?_⟩
  have mem : v.slots.length ∈ s.heap.map fun o => o.elim 0 fun v => v.slots.length :=
    List.mem_map.mpr ⟨some v, mem_of_getElem? (value_eq_some.mp at_a), rfl⟩
  exact single_le_sum (fun _ _ => Nat.zero_le _) _ mem

theorem retained_refcnt_le (v : HeapValue) : v.retained.refcnt ≤ v.refcnt + 1 := by
  unfold HeapValue.retained
  split
  · exact le_rfl
  · exact Nat.le_succ _

theorem retained_slots (v : HeapValue) : v.retained.slots = v.slots := by
  unfold HeapValue.retained
  split <;> rfl

end References
end Gc

namespace Destruction

/-! ## The measure -/

/-- What a walk that is at `a` has left of the list. -/
def left (a : Nat) : List Nat → Nat
  | [] => 0
  | b :: rest => if b = a then rest.length + 1 else left a rest

/-- How much a task that is not done weighs, where no value has more slots than `width`. -/
def Task.weight (width : Nat) (objects : List Nat) : Task → Nat
  | .code | .definitions | .freeState => 0
  | .release _ | .unguard _ | .collect | .collected | .sweep none _ _ => 1
  | .unlink _ | .destroyArray _ => 2 * width + 2
  | .drop _ i | .clear _ i => 2 * (width - i) + 1
  | .sweep (some a) _ _ => (2 * width + 7) * left a objects + 1

/-- The collections that are to begin, and the walks that go round again. -/
def Task.rounds : Task → Nat
  | .collect => 1
  | .sweep _ _ invoked => invoked.toNat
  | _ => 0

/-- Neither code nor one of the last phases of `pphp_close`. -/
def Task.plain : Task → Bool
  | .code | .definitions | .freeState => false
  | _ => true

theorem left_erase_le (a c : Nat) (l : List Nat) : left a (l.erase c) ≤ left a l := by
  induction l with
  | nil => exact le_rfl
  | cons b rest ih =>
    rw [erase_cons]
    simp only [beq_iff_eq, left]
    split
    · split
      · have bound : ∀ l, left a l ≤ l.length := by
          intro l
          induction l with
          | nil => exact le_rfl
          | cons x l ih =>
            rw [left, length_cons]
            split <;> omega
        have := bound rest
        omega
      · exact le_rfl
    · rw [left]
      split
      · have := length_erase_le (a := c) (l := rest)
        omega
      · exact ih

theorem left_pos {a : Nat} {l : List Nat} (mem : a ∈ l) : 0 < left a l := by
  induction l with
  | nil => cases mem
  | cons x rest ih =>
    rw [left]
    split
    · exact Nat.succ_pos _
    · next other => exact ih ((mem_cons.mp mem).resolve_left fun same => other same.symm)

namespace State

/-- The rounds that are to come. -/
def rounds (s : State) : Nat := (s.tasks.map Task.rounds).sum

/-- The references there are to release and the weight of the tasks. -/
def debt (width : Nat) (s : State) : Nat :=
  (2 * width + 4) * s.gc.references + (s.tasks.map (Task.weight width s.objects)).sum

/-- **The measure**: fewer rounds, or as many and less debt. -/
def Eases (width : Nat) (s s' : State) : Prop :=
  s'.rounds < s.rounds ∨ s'.rounds = s.rounds ∧ s'.debt width < s.debt width

theorem mem_of_following {a b : Nat} {l : List Nat} (next : following a l = some b) : b ∈ l := by
  induction l with
  | nil => cases next
  | cons x rest ih =>
    rw [following] at next
    split at next
    · exact .tail _ (mem_of_mem_head? next)
    · exact .tail _ (ih next)

theorem left_following {a b : Nat} {l : List Nat} (nodup : l.Nodup) (next : following a l = some b) :
    left b l + 1 = left a l := by
  induction l with
  | nil => cases next
  | cons x rest ih =>
    obtain ⟨fresh, nodup⟩ := nodup_cons.mp nodup
    rw [following] at next
    split at next
    · next here =>
      subst here
      obtain ⟨more, rfl⟩ := head?_eq_some_iff.mp next
      have ne : x ≠ b := fun same => fresh (same ▸ (.head _))
      rw [left, if_neg ne, left, if_pos rfl, left, if_pos rfl, length_cons]
    · next other =>
      have mem : b ∈ rest := mem_of_following next
      have ne : x ≠ b := fun same => fresh (same ▸ mem)
      rw [left, if_neg ne, left, if_neg other]
      exact ih nodup next

/-- What is released makes the debt smaller. -/
theorem scaled (width : Nat) {n n' : Nat} (fewer : n' + 1 ≤ n) :
    (2 * width + 4) * n' + (2 * width + 4) ≤ (2 * width + 4) * n :=
  Nat.mul_le_mul_left _ fewer

section Eases
variable {table : ClassTable} {s s' : State} {a b width : Nat} {task : Task} {rest : List Task} {ready : Bool}

theorem eases_of (pushed : List Task) (top : s.tasks = task :: rest) (tasks : s'.tasks = pushed ++ rest) (objects : s'.objects = s.objects)
    (rounds : (pushed.map Task.rounds).sum ≤ task.rounds)
    (debt : (2 * width + 4) * s'.gc.references + (pushed.map (Task.weight width s.objects)).sum <
      (2 * width + 4) * s.gc.references + task.weight width s.objects) : s.Eases width s' := by
  unfold Eases State.rounds State.debt
  rw [top, tasks, objects, map_append, map_append, sum_append, sum_append, map_cons, map_cons, sum_cons, sum_cons]
  omega

theorem eases_of_rounds (pushed : List Task) (top : s.tasks = task :: rest) (tasks : s'.tasks = pushed ++ rest)
    (rounds : (pushed.map Task.rounds).sum < task.rounds) : s.Eases width s' := by
  unfold Eases State.rounds
  rw [top, tasks, map_append, sum_append, map_cons, sum_cons]
  omega

/-- What a step of the runtime comes to: the measure gets smaller, or an object is flagged whose
destructor was to run; then its code may come on top. -/
inductive Outcome (table : ClassTable) (width : Nat) (s : State) (rest : List Task) (s' : State) : Prop where
  | eases (pushed : List Task) (tasks : s'.tasks = pushed ++ rest) (plain : ∀ t ∈ pushed, t.plain = true)
      (entry : s'.class_entry = s.class_entry) (narrow : s'.gc.Narrow width) (less : s.Eases width s')
  | flags (a : Nat) (waits : s.Waits table a) (flagged : ¬ s'.Waits table a) (pushed : List Task)
      (tasks : s'.tasks = pushed ++ rest) (plain : ∀ t ∈ pushed, t.plain = true) (entry : s'.class_entry = s.class_entry)
  | invokes (a : Nat) (waits : s.Waits table a) (flagged : ¬ s'.Waits table a) (pushed : List Task)
      (tasks : s'.tasks = Task.code :: pushed ++ rest) (plain : ∀ t ∈ pushed, t.plain = true)
      (entry : s'.class_entry = s.class_entry) (events : s'.events = s.events ++ [Event.invoked a])

theorem invoke_tasks (s : State) (d : Destructor) (a : Nat) {after : List Task} (plain : ∀ t ∈ after, t.plain = true) :
    ∃ pushed, (∀ t ∈ pushed, t.plain = true) ∧ ((s.invoke d a after).tasks = pushed ++ s.tasks ∨
        (s.invoke d a after).tasks = Task.code :: pushed ++ s.tasks ∧
          (s.invoke d a after).events = s.events ++ [Event.invoked a]) := by
  refine ⟨[Task.release (s.size + 1), Task.release s.size] ++ after, ?_, ?_⟩
  · intro t ht
    rcases mem_append.mp ht with ht | ht
    · simp only [mem_cons, not_mem_nil, or_false] at ht
      rcases ht with rfl | rfl <;> rfl
    · exact plain t ht
  · unfold invoke
    cases d.isPublic with
    | true => exact .inr ⟨rfl, rfl⟩
    | false => exact .inl rfl

/-- **What `pobject_run_destructor` puts on the stack** for an object that waits. -/
theorem runDestructor_tasks (h : s.runDestructor table ready a = some s') (waits : s.Waits table a) :
    ∃ pushed, (∀ t ∈ pushed, t.plain = true) ∧ (s'.tasks = pushed ++ s.tasks ∨
        s'.tasks = Task.code :: pushed ++ s.tasks ∧ s'.events = s.events ++ [Event.invoked a]) := by
  obtain ⟨v, at_a, run⟩ := waits
  simp only [runs, Bool.and_eq_true, Bool.not_eq_true'] at run
  obtain ⟨⟨collecting, destroying⟩, has⟩ := run
  obtain ⟨d, class_d⟩ := Option.isSome_iff_exists.mp has
  unfold runDestructor at h
  rw [at_a] at h
  simp only [collecting, destroying, Bool.false_eq_true, or_self, if_false, class_d] at h
  have after : ∀ t ∈ (if v.refcnt = 0 then [Task.unguard a] else []), t.plain = true := by
    intro t ht
    split at ht
    · cases mem_singleton.mp ht
      rfl
    · cases ht
  split at h
  · cases h
    exact invoke_tasks _ d a after
  · cases h
    exact ⟨_, after, .inl rfl⟩

theorem sweepFrom_spec (width : Nat) {next : Option Nat} {which : Sweep} {i : Bool} (h : s.sweepFrom next which i = some s') :
    s'.tasks = .sweep next which i :: s.tasks ∧ s'.objects = s.objects ∧ s'.class_entry = s.class_entry ∧
      (s.gc.Narrow width → s'.gc.Narrow width) ∧ s'.gc.references ≤ s.gc.references + next.toList.length := by
  cases next with
  | none =>
    cases h
    exact ⟨rfl, rfl, rfl, id, le_rfl⟩
  | some a =>
    obtain ⟨s₁, retained, rfl⟩ := Option.map_eq_some_iff.mp h
    obtain ⟨v, at_a, rfl⟩ := Option.map_eq_some_iff.mp retained
    refine ⟨rfl, rfl, rfl, fun narrow => narrow.put at_a (congrArg List.length (Gc.retained_slots v)), ?_⟩
    have put := Gc.references_put at_a v.retained
    have := Gc.retained_refcnt_le v
    simp only [push, Option.toList_some, length_singleton]
    omega

end Eases

/-! ## The steps of the runtime -/

section Outcomes
variable {table : ClassTable} {s s' : State} {a b width : Nat} {task : Task} {rest : List Task} {ready : Bool}

/-- A step that may start a destructor, with `mid` the state when `pobject_run_destructor` begins. -/
theorem outcome_destructor {mid : State} (pushed : List Task) (inv : s.Inv table) (quiet : Quiet s mid)
    (h : mid.runDestructor table ready a = some s') (tasks : mid.tasks = pushed ++ rest)
    (plain : ∀ t ∈ pushed, t.plain = true) (events : mid.events = s.events)
    (eases : ¬ s.Waits table a → mid.gc.Narrow width ∧ s.Eases width mid) : Outcome table width s rest s' := by
  have classed : mid.Classed := by
    intro x born
    rw [quiet.entry] at born
    exact lt_of_lt_of_le (inv.classed x born) quiet.size
  by_cases waits : s.Waits table a
  · have waiting : mid.Waits table a := (quiet.waits inv.classed a).mpr waits
    obtain ⟨⟨later, flagged, -⟩, -⟩ := runDestructor_of_waits classed h waiting
    have entry : s'.class_entry = s.class_entry := later.entry.trans quiet.entry
    obtain ⟨more, plain', tasks' | ⟨tasks', events'⟩⟩ := runDestructor_tasks h waiting
    · apply Outcome.flags a waits flagged (more ++ pushed)
      · rw [tasks', tasks, append_assoc]
      · intro t ht
        exact (mem_append.mp ht).elim (plain' t) (plain t)
      · exact entry
    · apply Outcome.invokes a waits flagged (more ++ pushed)
      · rw [tasks', tasks, cons_append, cons_append, append_assoc]
      · intro t ht
        exact (mem_append.mp ht).elim (plain' t) (plain t)
      · exact entry
      · rw [events', events]
  · have same := runDestructor_of_not h fun waiting => waits ((quiet.waits inv.classed a).mp waiting)
    subst same
    obtain ⟨narrow, less⟩ := eases waits
    exact .eases pushed tasks plain quiet.entry narrow less

theorem plain_none : ∀ x ∈ ([] : List Task), x.plain = true := by
  intro x hx
  cases hx

theorem plain_one {t : Task} (h : t.plain = true) : ∀ x ∈ [t], x.plain = true := by
  intro x hx
  cases mem_singleton.mp hx
  exact h

theorem plain_releases {t : Task} (slot : Slot) (h : t.plain = true) :
    ∀ x ∈ slot.target.toList.map Task.release ++ [t], x.plain = true := by
  intro x hx
  rcases mem_append.mp hx with release | last
  · obtain ⟨c, -, rfl⟩ := List.mem_map.mp release
    rfl
  · exact plain_one h x last

theorem weight_releases (width : Nat) (slot : Slot) (t : Task) (objects : List Nat) :
    ((slot.target.toList.map Task.release ++ [t]).map (Task.weight width objects)).sum ≤ 1 + t.weight width objects := by
  cases slot with
  | ref a => exact le_rfl
  | null => exact Nat.le_add_left _ _
  | scalar bits => exact Nat.le_add_left _ _

theorem rounds_releases (slot : Slot) (t : Task) :
    ((slot.target.toList.map Task.release ++ [t]).map Task.rounds).sum = t.rounds := by
  cases slot with
  | ref a => exact zero_add _
  | null => rfl
  | scalar bits => rfl

theorem outcome_release (inv : s.Inv table) (narrow : s.gc.Narrow width) (top : s.tasks = .release a :: rest)
    (h : ({ s with tasks := rest } : State).release table ready a = some s') : Outcome table width s rest s' := by
  unfold release at h
  cases at_a : s.gc.value a with
  | none => simp only [at_a, reduceCtorEq] at h
  | some v =>
    simp only [at_a] at h
    split at h
    · cases h
      refine .eases [] rfl plain_none rfl narrow ?_
      refine eases_of [] top rfl rfl le_rfl ?_
      exact Nat.lt_succ_self _
    · next alive =>
      have put : ∀ n < v.refcnt, (s.gc.put a { v with refcnt := n }).references + 1 ≤ s.gc.references := by
        intro n fewer
        have := Gc.references_put at_a { v with refcnt := n }
        simp only at this
        omega
      split at h
      · next many =>
        cases h
        have fewer := put (v.refcnt - 1) (by omega)
        rw [← Gc.references_buffer _ a] at fewer
        have kept : (s.gc.put a { v with refcnt := v.refcnt - 1 }).Narrow width := narrow.put at_a rfl
        refine .eases [] rfl plain_none rfl (kept.buffer a) ?_
        refine eases_of [] top rfl rfl le_rfl ?_
        have := scaled width fewer
        simp only [map_nil, sum_nil]
        omega
      · next last =>
        have fewer := put 0 (by omega)
        rw [← Gc.references_unbuffer _ a] at fewer
        have kept : (s.gc.put a { v with refcnt := 0 }).Narrow width := narrow.put at_a rfl
        have drops := scaled width fewer
        have quiet : ∀ l, Quiet s { s with gc := (s.gc.put a { v with refcnt := 0 }).unbuffer a, tasks := l } := by
          intro l
          refine ⟨le_of_eq ?_, fun x _ => ?_, rfl, rfl, rfl, fun c hc => ?_, rfl⟩
          · exact ((length_unbuffer _ a).trans List.length_set).symm
          · exact (Gc.tags_unbuffer _ a x).trans (Gc.tags_put at_a rfl rfl rfl)
          · have old := mem_candidates_unbuffer hc
            exact .inl old
        split at h
        · apply outcome_destructor [.unlink a] inv (quiet (.unlink a :: rest)) h rfl (plain_one rfl) rfl
          intro _
          refine ⟨kept.unbuffer a, eases_of [.unlink a] top rfl rfl le_rfl ?_⟩
          simp only [map_cons, map_nil, sum_cons, sum_nil, Task.weight]
          omega
        · cases h
          refine .eases [.drop a 0] rfl (plain_one rfl) rfl (kept.unbuffer a) ?_
          refine eases_of [.drop a 0] top rfl rfl le_rfl ?_
          simp only [push, map_cons, map_nil, sum_cons, sum_nil, Task.weight]
          omega

theorem outcome_visit {which : Sweep} {i : Bool} (inv : s.Inv table) (narrow : s.gc.Narrow width)
    (top : s.tasks = .sweep (some a) which i :: rest)
    (h : ({ s with tasks := rest } : State).visit table ready a which i = some s') : Outcome table width s rest s' := by
  unfold visit at h
  cases at_a : s.gc.value a with
  | none => simp only [at_a, reduceCtorEq] at h
  | some v =>
    simp only [at_a] at h
    split at h
    · cases h
    · next listed =>
      have listed : a ∈ s.objects := not_not.mp listed
      -- the walk moves on to the next object, which is retained
      have moves : ∀ {j : Bool} {s₁ : State},
          ({ s with tasks := rest } : State).sweepFrom (following a s.objects) which j = some s₁ → j.toNat ≤ i.toNat →
          (s₁.push [.release a]).gc.Narrow width ∧ s.Eases width (s₁.push [.release a]) := by
        intro j s₁ moved same
        obtain ⟨tasks, objects, entry, kept, more⟩ := sweepFrom_spec width moved
        refine ⟨kept narrow, eases_of [Task.release a, Task.sweep (following a s.objects) which j] top
          (by rw [push, tasks]; rfl) objects ?_ ?_⟩
        · simp only [map_cons, map_nil, sum_cons, sum_nil, Task.rounds]
          omega
        · have grows := Nat.mul_le_mul_left (2 * width + 4) more
          have ahead := left_pos listed
          simp only [push, map_cons, map_nil, sum_cons, sum_nil]
          cases next : following a s.objects with
          | none =>
            rw [next] at grows
            simp only [Option.toList_none, length_nil, add_zero] at grows
            have := Nat.mul_le_mul_left (2 * width + 7) ahead
            simp only [Task.weight]
            omega
          | some b =>
            rw [next] at grows
            simp only [Option.toList_some, length_singleton] at grows
            have steps := left_following inv.nodup next
            have := congrArg (fun n => (2 * width + 7) * n) steps
            simp only [Nat.mul_add, mul_one] at this grows
            simp only [Task.weight]
            omega
      split at h
      · obtain ⟨s₁, moved, h⟩ := Option.bind_eq_some_iff.mp h
        obtain ⟨quiet, events, -⟩ := quiet_sweepFrom moved
        obtain ⟨tasks, -⟩ := sweepFrom_spec width moved
        apply outcome_destructor [Task.release a, Task.sweep (following a s.objects) which (i || s.runs table v a)] inv
          ((quiet_tasks s rest).trans (quiet.trans (quiet_tasks s₁ _))) h
        · rw [tasks]
          rfl
        · intro t ht
          simp only [mem_cons, not_mem_nil, or_false] at ht
          rcases ht with rfl | rfl <;> rfl
        · exact events
        · intro settled
          refine moves moved ?_
          have silent : s.runs table v a = false := by
            rw [← Bool.not_eq_true]
            exact fun runs => settled ⟨v, at_a, runs⟩
          have silent : ({ s with tasks := rest } : State).runs table v a = false := silent
          rw [silent, Bool.or_false]
      · obtain ⟨s₁, moved, h⟩ := Option.bind_eq_some_iff.mp h
        cases h
        obtain ⟨tasks, objects, entry, -⟩ := sweepFrom_spec width moved
        obtain ⟨kept, less⟩ := moves moved le_rfl
        refine .eases [Task.release a, Task.sweep (following a s.objects) which i] ?_ ?_ entry kept less
        · rw [push, tasks]
          rfl
        · intro t ht
          simp only [mem_cons, not_mem_nil, or_false] at ht
          rcases ht with rfl | rfl <;> rfl

theorem outcome_unlink (narrow : s.gc.Narrow width) (top : s.tasks = .unlink a :: rest)
    (made : s' = { s with
      objects := s.objects.erase a
      events := s.events ++ [Event.emptied a]
      tasks := .drop a 0 :: rest }) : Outcome table width s rest s' := by
  subst made
  refine .eases [.drop a 0] rfl (plain_one rfl) rfl narrow (.inr ⟨?_, ?_⟩)
  · simp only [rounds, top, map_cons, sum_cons, Task.rounds]
  · have lighter : ∀ t : Task, t.weight width (s.objects.erase a) ≤ t.weight width s.objects := by
      intro t
      cases t with
      | sweep next which i =>
        cases next with
        | none => exact le_rfl
        | some b => exact Nat.add_le_add_right (Nat.mul_le_mul_left _ (left_erase_le b a s.objects)) 1
      | _ => exact le_rfl
    have all : (rest.map (Task.weight width (s.objects.erase a))).sum ≤ (rest.map (Task.weight width s.objects)).sum :=
      sum_le_sum fun t _ => lighter t
    simp only [debt, top, map_cons, sum_cons, Task.weight]
    omega

theorem outcome_drop {i : Nat} (narrow : s.gc.Narrow width) (top : s.tasks = .drop a i :: rest)
    (h : ({ s with tasks := rest } : State).work table ready (.drop a i) = some s') : Outcome table width s rest s' := by
  simp only [work] at h
  split at h
  · cases h
  · next v at_a =>
    have at_a : s.gc.value a = some v := at_a
    split at h
    · cases h
      refine .eases [] rfl plain_none rfl (narrow.free a) ?_
      refine eases_of [] top rfl rfl le_rfl ?_
      have fewer := Gc.references_free at_a
      have := Nat.mul_le_mul_left (2 * width + 4) (Nat.le.intro fewer)
      simp only [map_nil, sum_nil, Task.weight]
      omega
    · next slot at_i =>
      cases h
      have fits : i < width := lt_of_lt_of_le (List.getElem?_eq_some_iff.mp at_i).1 (narrow a v at_a)
      refine .eases _ rfl (plain_releases slot rfl) rfl narrow ?_
      refine eases_of _ top rfl rfl (le_of_eq (rounds_releases slot _)) ?_
      have := weight_releases width slot (.drop a (i + 1)) s.objects
      simp only [Task.weight] at this ⊢
      simp only [push]
      omega

theorem outcome_clear {i : Nat} (narrow : s.gc.Narrow width) (top : s.tasks = .clear a i :: rest)
    (h : ({ s with tasks := rest } : State).work table ready (.clear a i) = some s') : Outcome table width s rest s' := by
  simp only [work] at h
  split at h
  · cases h
  · next v at_a =>
    have at_a : s.gc.value a = some v := at_a
    split at h
    · cases h
      refine .eases [] rfl plain_none rfl narrow ?_
      refine eases_of [] top rfl rfl le_rfl ?_
      simp only [map_nil, sum_nil, Task.weight]
      omega
    · next slot at_i =>
      cases h
      have fits : i < width := lt_of_lt_of_le (List.getElem?_eq_some_iff.mp at_i).1 (narrow a v at_a)
      have emptied : (s.gc.put a { v with slots := v.slots.set i .null }).Narrow width := narrow.put at_a List.length_set
      refine .eases _ rfl (plain_releases slot rfl) rfl emptied ?_
      refine eases_of _ top rfl rfl (le_of_eq (rounds_releases slot _)) ?_
      have same : (s.gc.put a { v with slots := v.slots.set i .null }).references = s.gc.references :=
        Nat.add_right_cancel (Gc.references_put at_a { v with slots := v.slots.set i .null })
      have := weight_releases width slot (.clear a (i + 1)) s.objects
      simp only [Task.weight] at this ⊢
      simp only [push, same]
      omega

theorem outcome_collect (narrow : s.gc.Narrow width) (top : s.tasks = .collect :: rest) :
    Outcome table width s rest ({ s with tasks := rest } : State).collect := by
  unfold collect
  split
  · have kept : (s.garbage.foldl (Gc.update Gc.condemned) s.gc.clearBuffer).Narrow width :=
      narrow.clearBuffer.updates (f := Gc.condemned) (fun v => Gc.retained_slots _) s.garbage
    have tasks : ∀ l : List Task, s.garbage.map (Task.clear · 0) ++ s.garbage.map Task.release ++ .collected :: l =
        (s.garbage.map (Task.clear · 0) ++ s.garbage.map Task.release ++ [Task.collected]) ++ l := by
      intro l
      simp
    refine .eases _ (tasks rest) ?_ rfl kept (eases_of_rounds _ top (tasks rest) ?_)
    · intro t ht
      simp only [mem_append, List.mem_map, mem_singleton] at ht
      rcases ht with (⟨c, -, rfl⟩ | ⟨c, -, rfl⟩) | rfl <;> rfl
    · have none : ∀ (f : Nat → Task), (∀ c, (f c).rounds = 0) → ((s.garbage.map f).map Task.rounds).sum = 0 := by
        intro f zero
        simp only [sum_eq_zero_iff, List.mem_map]
        rintro n ⟨t, ⟨c, -, rfl⟩, rfl⟩
        exact zero c
      rw [map_append, map_append, sum_append, sum_append, none _ fun _ => rfl, none _ fun _ => rfl]
      exact Nat.lt_succ_self _
  · refine .eases [] rfl plain_none rfl narrow ?_
    exact eases_of_rounds [] top rfl (Nat.lt_succ_self _)

/-- **A step of the runtime** makes the measure smaller or flags an object whose destructor was to
run. -/
theorem outcome_work (inv : s.Inv table) (narrow : s.gc.Narrow width) (top : s.tasks = task :: rest)
    (plain : task.plain = true) (h : ({ s with tasks := rest } : State).work table ready task = some s') :
    Outcome table width s rest s' := by
  cases task with
  | code => cases plain
  | definitions => cases plain
  | freeState => cases plain
  | release a => exact outcome_release inv narrow top h
  | unlink a =>
    cases h
    exact outcome_unlink narrow top rfl
  | drop a i => exact outcome_drop narrow top h
  | unguard a =>
    obtain ⟨v, at_a, rfl⟩ := Option.map_eq_some_iff.mp h
    have at_a : s.gc.value a = some v := at_a
    refine .eases [] rfl plain_none rfl (narrow.put at_a rfl) ?_
    refine eases_of [] top rfl rfl le_rfl ?_
    have put := Gc.references_put at_a { v with refcnt := 0 }
    have := Nat.mul_le_mul_left (2 * width + 4) (Nat.le.intro put)
    simp only [map_nil, sum_nil, Task.weight]
    simp only [add_zero] at this
    omega
  | sweep next which i =>
    cases next with
    | some a => exact outcome_visit inv narrow top h
    | none =>
      simp only [work] at h
      split at h
      · next again =>
        obtain ⟨tasks, objects, entry, kept, -⟩ := sweepFrom_spec width h
        refine .eases [_] tasks (plain_one rfl) entry (kept narrow) (eases_of_rounds [_] top tasks ?_)
        simp only [Bool.and_eq_true] at again
        rw [again.2]
        exact Nat.lt_succ_self _
      · cases h
        refine .eases [] rfl plain_none rfl narrow ?_
        refine eases_of [] top rfl rfl (Nat.zero_le _) ?_
        exact Nat.lt_succ_self _
  | collect =>
    cases h
    exact outcome_collect narrow top
  | clear a i => exact outcome_clear narrow top h
  | collected =>
    cases h
    refine .eases [] rfl plain_none rfl narrow ?_
    exact eases_of [] top rfl rfl le_rfl (Nat.lt_succ_self _)
  | destroyArray a =>
    simp only [work] at h
    split at h
    · cases h
    · split at h
      · cases h
        refine .eases [.drop a 0] rfl (plain_one rfl) rfl (narrow.unbuffer a) ?_
        refine eases_of [.drop a 0] top rfl rfl le_rfl ?_
        simp only [push, Gc.references_unbuffer, map_cons, map_nil, sum_cons, sum_nil, Task.weight]
        omega
      · cases h

end Outcomes

end State
end Destruction
end PhpPico
