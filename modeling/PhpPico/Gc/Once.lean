import PhpPico.Gc.DestructorSteps

/-!
# Destructors run once

In every run a destructor is invoked at most once, before the properties are released. It is missed where the collector takes the
object first, where it cannot be called, and where the object is made after `pphp_close` has begun.
-/

namespace PhpPico.Destruction
open List

namespace State

/-- The destructor of an object is invoked once, and not after its properties began to be released. -/
def DestructsOnce (events : List Event) (a : Nat) : Prop :=
  events.count (.invoked a) = 1 ∧ ¬ [Event.emptied a, .invoked a].Sublist events

/-- No step of a run misses the destructor of the object. -/
def Spares (table : ClassTable) : State → List Action → Nat → Prop
  | _, [], _ => True
  | s, action :: rest, a => ¬ s.Loses table action a ∧ ∀ s', s.step table action = some s' → Spares table s' rest a

section Runs
variable {table : ClassTable} {s s' : State} {a : Nat} {actions : List Action}

theorem run_cons {action : Action} {rest : List Action} (h : s.run table (action :: rest) = some s') :
    ∃ s₁, s.step table action = some s₁ ∧ s₁.run table rest = some s' := by
  rw [run, foldlM_cons] at h
  exact Option.bind_eq_some_iff.mp h

theorem run_nil (empty : s.tasks = []) (ran : s.run table actions = some s') : actions = [] ∧ s' = s := by
  cases actions with
  | nil =>
    cases ran
    exact ⟨rfl, rfl⟩
  | cons action rest =>
    obtain ⟨s₁, step, -⟩ := run_cons ran
    unfold State.step at step
    rw [empty] at step
    cases step

/-- **An object that does not wait** is never invoked any more, and no step misses it. -/
theorem run_flagged (inv : s.Inv table) (done : ¬ s.Waits table a) (born : s.class_entry a ≠ none)
    (ran : s.run table actions = some s') :
    (∃ new, s'.events = s.events ++ new ∧ .invoked a ∉ new) ∧ s'.class_entry a = s.class_entry a ∧
      Spares table s actions a := by
  induction actions generalizing s with
  | nil =>
    cases ran
    exact ⟨⟨[], (append_nil _).symm, not_mem_nil⟩, rfl, trivial⟩
  | cons action rest ih =>
    obtain ⟨s₁, step, ran⟩ := run_cons ran
    obtain ⟨inv₁, ends, fate⟩ := stepped inv step
    cases fate a with
    | stays waits entry events spared closed =>
      obtain ⟨new, events, none, -⟩ := events
      rw [← entry] at born
      obtain ⟨⟨more, events', none'⟩, entry', spares⟩ := ih inv₁ (fun waiting => done (waits.mp waiting)) born ran
      refine ⟨⟨new ++ more, ?_, ?_⟩, entry'.trans entry, spared, fun s₂ step₂ => ?_⟩
      · rw [events', events, append_assoc]
      · rw [mem_append, not_or]
        exact ⟨none, none'⟩
      · cases step.symm.trans step₂
        exact spares
    | born unborn => exact absurd unborn born
    | invoked waits => exact absurd waits done
    | lost loses => exact absurd loses.1 done
    | left loses => exact absurd loses.1 done

theorem not_once_of_none {events new : List Event} (none : .invoked a ∉ events) (none' : Event.invoked a ∉ new) :
    ¬ DestructsOnce (events ++ new) a := by
  rintro ⟨one, -⟩
  rw [List.count_append, count_eq_zero_of_not_mem none, count_eq_zero_of_not_mem none'] at one
  cases one

theorem once_of_invoked {events new : List Event} (none : .invoked a ∉ events) (full : .emptied a ∉ events)
    (none' : Event.invoked a ∉ new) : DestructsOnce (events ++ [Event.invoked a] ++ new) a := by
  constructor
  · rw [List.count_append, List.count_append, count_eq_zero_of_not_mem none,
      count_eq_zero_of_not_mem none', count_singleton_self]
  · intro sub
    obtain ⟨l, r, both, left, right⟩ := sublist_append_iff.mp sub
    -- what is invoked is not in the part behind
    cases r with
    | nil =>
      rw [append_nil] at both
      subst both
      obtain ⟨l', r', both', left', right'⟩ := sublist_append_iff.mp left
      have short := right'.length_le
      cases l' with
      | nil =>
        rw [nil_append] at both'
        rw [← both'] at short
        simp only [length_cons, length_nil] at short
        omega
      | cons x rest =>
        rw [cons_append] at both'
        obtain ⟨rfl, -⟩ := cons.inj both'
        exact full (left'.subset (.head _))
    | cons x rest =>
      have last : Event.invoked a ∈ x :: rest := by
        have e := congrArg List.getLast? both
        rw [getLast?_append_of_ne_nil _ (cons_ne_nil x rest)] at e
        exact mem_of_getLast? e.symm
      exact none' (right.subset last)

/-- **From when it is made on**, the destructor of an object runs once exactly when no step misses it. -/
theorem run_waits (inv : s.Inv table) (waits : s.Waits table a) (opened : s.closed = false)
    (none : .invoked a ∉ s.events) (full : .emptied a ∉ s.events) (ran : s.run table actions = some s')
    (closed : s'.closed = true) : DestructsOnce s'.events a ↔ Spares table s actions a := by
  induction actions generalizing s with
  | nil =>
    cases ran
    exact nomatch opened.symm.trans closed
  | cons action rest ih =>
    obtain ⟨s₁, step, ran⟩ := run_cons ran
    obtain ⟨inv₁, ends, fate⟩ := stepped inv step
    have unfolds : Spares table s (action :: rest) a ↔ ¬ s.Loses table action a ∧ Spares table s₁ rest a := by
      refine and_congr_right fun _ => ⟨fun all => all s₁ step, fun one s₂ step₂ => ?_⟩
      cases step.symm.trans step₂
      exact one
    rw [unfolds]
    cases fate a with
    | stays same entry events spared still =>
      obtain ⟨new, events, none', full'⟩ := events
      rw [ih inv₁ (same.mpr waits) ((still waits).trans opened) ?_ ?_ ran]
      · exact (and_iff_right spared).symm
      · rw [events, mem_append, not_or]
        exact ⟨none, none'⟩
      · rw [events, mem_append, not_or]
        exact ⟨full, full' waits⟩
    | born unborn => exact absurd unborn waits.entry
    | invoked _ flagged entry events spared =>
      have born := waits.entry
      rw [← entry] at born
      obtain ⟨⟨more, events', none'⟩, -, spares⟩ := run_flagged inv₁ flagged born ran
      rw [events', events]
      exact iff_of_true (once_of_invoked none full none') ⟨spared, spares⟩
    | lost loses flagged entry events =>
      have born := waits.entry
      rw [← entry] at born
      obtain ⟨⟨more, events', none'⟩, -⟩ := run_flagged inv₁ flagged born ran
      rw [events', events]
      exact iff_of_false (not_once_of_none none none') fun h => h.1 loses
    | left loses tasks events =>
      obtain ⟨-, rfl⟩ := run_nil tasks ran
      refine iff_of_false ?_ fun h => h.1 loses
      have : ¬ DestructsOnce (_ ++ []) _ := not_once_of_none none not_mem_nil
      rwa [append_nil, ← events] at this

/-- Before an object is made no step misses its destructor. -/
theorem run_unborn (inv : s.Inv table) (unborn : s.class_entry a = none) (opened : s.closed = false)
    (ran : s.run table actions = some s') (closed : s'.closed = true) (has : s'.destructor table a ≠ none) :
    DestructsOnce s'.events a ↔ Spares table s actions a := by
  induction actions generalizing s with
  | nil =>
    cases ran
    rw [destructor, unborn] at has
    exact absurd rfl has
  | cons action rest ih =>
    obtain ⟨s₁, step, ran⟩ := run_cons ran
    obtain ⟨inv₁, ends, fate⟩ := stepped inv step
    have spared : ¬ s.Loses table action a := fun loses => absurd unborn loses.1.entry
    have unfolds : Spares table s (action :: rest) a ↔ Spares table s₁ rest a := by
      refine ⟨fun all => all.2 s₁ step, fun one => ⟨spared, fun s₂ step₂ => ?_⟩⟩
      cases step.symm.trans step₂
      exact one
    rw [unfolds]
    cases fate a with
    | stays same entry events _ _ =>
      rcases ends with still | empty
      · exact ih inv₁ (entry.trans unborn) (still.trans opened) ran
      · obtain ⟨-, rfl⟩ := run_nil empty ran
        rw [destructor, entry, unborn] at has
        exact absurd rfl has
    | born _ new waits events still =>
      by_cases unborn' : s₁.class_entry a = none
      · exact ih inv₁ unborn' (still.trans opened) ran
      · cases has₁ : s₁.destructor table a with
        | none =>
          -- its class has no destructor
          have done : ¬ s₁.Waits table a := by
            intro waiting
            obtain ⟨t, -, some_d⟩ := waits_iff.mp waiting
            rw [has₁] at some_d
            cases some_d
          obtain ⟨-, entry', -⟩ := run_flagged inv₁ done unborn' ran
          rw [destructor, entry', ← destructor, has₁] at has
          exact absurd rfl has
        | some d =>
          have silent : ∀ e ∈ s₁.events, e.subject < a := fun e he =>
            lt_of_lt_of_le (inv.told e (events ▸ he)) new
          refine run_waits inv₁ (waits (by rw [has₁]; rfl)) (still.trans opened) ?_ ?_ ran closed
          · exact fun he => lt_irrefl a (silent _ he)
          · exact fun he => lt_irrefl a (silent _ he)
    | invoked waits => exact absurd unborn waits.entry
    | lost loses => exact absurd loses spared
    | left loses => exact absurd loses spared

theorem run_at_most_once (inv : s.Inv table) (none : .invoked a ∉ s.events)
    (full : s.Waits table a → .emptied a ∉ s.events) (ran : s.run table actions = some s') :
    .invoked a ∉ s'.events ∨ DestructsOnce s'.events a := by
  induction actions generalizing s with
  | nil =>
    cases ran
    exact .inl none
  | cons action rest ih =>
    obtain ⟨s₁, step, ran⟩ := run_cons ran
    obtain ⟨inv₁, -, fate⟩ := stepped inv step
    cases fate a with
    | stays same _ events _ _ =>
      obtain ⟨new, events, none', full'⟩ := events
      refine ih inv₁ ?_ (fun waits => ?_) ran
      · rw [events, mem_append, not_or]
        exact ⟨none, none'⟩
      · have waits := same.mp waits
        rw [events, mem_append, not_or]
        exact ⟨full waits, full' waits⟩
    | born _ new _ events _ =>
      rw [← events] at none
      exact ih inv₁ none (fun _ told => (inv.told (.emptied a) (events ▸ told)).not_ge new) ran
    | invoked waits flagged entry events _ =>
      have born := waits.entry
      rw [← entry] at born
      obtain ⟨⟨more, events', none'⟩, -, -⟩ := run_flagged inv₁ flagged born ran
      rw [events', events]
      exact .inr (once_of_invoked none (full waits) none')
    | lost _ flagged _ events =>
      rw [← events] at none
      exact ih inv₁ none (fun waits => absurd waits flagged) ran
    | left _ tasks events =>
      obtain ⟨-, rfl⟩ := run_nil tasks ran
      rw [events]
      exact .inl none

end Runs
end State

open State

theorem start_inv (table : ClassTable) : start.Inv table := by
  have none : ∀ a, ¬ start.Waits table a := fun a waits => waits.entry rfl
  refine ⟨fun a born => absurd rfl born, fun a f _ born => absurd rfl born, fun a waits => absurd waits (none a),
    nofun, nodup_nil, ?_, ?_, nofun, nofun, nofun, nofun⟩
  · intro t ht a ends
    cases mem_singleton.mp ht
    cases ends
  · exact not_mem_nil

/-- **Destructors run exactly once**, before the properties are released, for the objects of a run
that were fully constructed, if and only if no step of the run misses one of them. -/
theorem destructors_once_iff (table : ClassTable) (actions : List Action) {s : State}
    (ran : start.run table actions = some s) (closed : s.closed = true) :
    (∀ a ∈ s.constructed, s.destructor table a ≠ none → DestructsOnce s.events a) ↔
      ∀ a ∈ s.constructed, s.destructor table a ≠ none → Spares table start actions a := by
  have one : ∀ a, s.destructor table a ≠ none → (DestructsOnce s.events a ↔ Spares table start actions a) :=
    fun a has => run_unborn (start_inv table) rfl rfl ran closed has
  exact forall₃_congr fun a _ has => one a has

/-- One class, with a public destructor. -/
def oneClass : ClassTable := fun k => if k = 0 then some ⟨true⟩ else none

/-- An object that is still held when `pphp_close` begins; its destructor returns at once. -/
def heldObject : List Action :=
  ([.new 0 [.null], .constructed 4, .close, .go true, .done] : List Action) ++ replicate 21 (Action.go true) ++
    [Action.done, Action.go true]

theorem destructors_once_iff_held : ∃ s, start.run oneClass heldObject = some s ∧ s.closed = true ∧
    ((∀ a ∈ s.constructed, s.destructor oneClass a ≠ none → DestructsOnce s.events a) ↔
      ∀ a ∈ s.constructed, s.destructor oneClass a ≠ none → Spares oneClass start heldObject a) := by
  have ended : (start.run oneClass heldObject).any (·.closed) = true := by decide +kernel
  obtain ⟨s, ran, closed⟩ := (Option.any_eq_true _ _).mp ended
  exact ⟨s, ran, closed, destructors_once_iff oneClass heldObject ran closed⟩

/-- **No destructor is invoked twice**, nor once the properties of its object are being released: in every run, at any
moment of it, whatever the code of the program and of the destructors does and whichever calls are refused. -/
theorem destructors_at_most_once (table : ClassTable) (actions : List Action) {s : State}
    (ran : start.run table actions = some s) (a : Nat) : .invoked a ∉ s.events ∨ DestructsOnce s.events a :=
  run_at_most_once (start_inv table) not_mem_nil (fun _ => not_mem_nil) ran

theorem destructors_at_most_once_held : ∃ s, start.run oneClass heldObject = some s ∧
    (.invoked 4 ∉ s.events ∨ DestructsOnce s.events 4) := by
  have ended : (start.run oneClass heldObject).isSome = true := by decide +kernel
  obtain ⟨s, ran⟩ := Option.isSome_iff_exists.mp ended
  exact ⟨s, ran, destructors_at_most_once oneClass heldObject ran 4⟩

/-- `$a->self = $a; unset($a); gc_collect_cycles();` and the end of the program. -/
def collectedCycle : List Action :=
  ([.new 0 [.null], .constructed 4, .write 4 [.ref 4], .retain 4, .release 4, .go true, .collect] : List Action) ++
    replicate 9 (Action.go true) ++ Action.close :: replicate 10 (Action.go true) ++ [Action.done, Action.go true]

/-- The collector takes the cycle, and the destructor is never invoked. -/
theorem collected_cycle_missed : ¬ ∀ (table : ClassTable) (actions : List Action) (s : State),
    start.run table actions = some s → s.closed = true →
      ∀ a ∈ s.constructed, s.destructor table a ≠ none → DestructsOnce s.events a := by
  intro all
  have ended : (start.run oneClass collectedCycle).any (fun s => s.closed && s.constructed.contains 4 &&
      (s.destructor oneClass 4).isSome && s.events.count (.invoked 4) == 0) = true := by decide +kernel
  obtain ⟨s, ran, facts⟩ := (Option.any_eq_true _ _).mp ended
  simp only [Bool.and_eq_true, contains_iff_mem, beq_iff_eq] at facts
  obtain ⟨⟨⟨closed, mem⟩, has⟩, zero⟩ := facts
  obtain ⟨once, -⟩ := all oneClass collectedCycle s ran closed 4 mem (Option.isSome_iff_ne_none.mp has)
  omega

end PhpPico.Destruction
