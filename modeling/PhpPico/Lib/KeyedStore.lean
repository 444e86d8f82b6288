import Mathlib.Logic.Function.Basic
import Mathlib.Tactic.Common

/-!
# Stores with shared keys

A store keeps a value for each key; places address it through a key of theirs. Two ways to key the same places show
the same values in all runs exactly when they identify the same places.
-/

namespace KeyedStore
open Function

variable {X K L V : Type}

/-- What is done at a place. -/
inductive Event (X V : Type) where
  | enter (x : X)
  | read (x : X)
  | write (x : X) (v : V)
  | remove (x : X)
deriving DecidableEq, Repr

/-- The place of an event. -/
def Event.place : Event X V → X
  | .enter x | .read x | .write x _ | .remove x => x

section Run
variable [DecidableEq K] (key : X → K) (initial : X → V)

def step (store : K → Option V) : Event X V → K → Option V
  | .enter x => if (store (key x)).isNone then update store (key x) (some (initial x)) else store
  | .read _ => store
  | .write x v => update store (key x) (some v)
  | .remove x => update store (key x) none

/-- The values seen at the places of the events, each just behind its event. -/
def run (store : K → Option V) : List (Event X V) → List (Option V)
  | [] => []
  | e :: rest => step key initial store e (key e.place) :: run (step key initial store e) rest

end Run

section Agree
variable [DecidableEq K] [DecidableEq L] {key : X → K} {other : X → L} {initial : X → V} {used : X → Prop}
  {s : K → Option V} {t : L → Option V}

/-- An update at a place is seen at the same places through both keys. -/
theorem update_agree (same : ∀ x y, used x → used y → (key x = key y ↔ other x = other y))
    (agree : ∀ x, used x → s (key x) = t (other x)) {x : X} (at_x : used x) (v : Option V) (y : X) (at_y : used y) :
    update s (key x) v (key y) = update t (other x) v (other y) := by
  by_cases here : key y = key x
  · have there := (same y x at_y at_x).mp here
    rw [here, there, update_self, update_self]
  · have there : other y ≠ other x := fun eq => here ((same y x at_y at_x).mpr eq)
    rw [update_of_ne here, update_of_ne there]
    exact agree y at_y

theorem step_agree (same : ∀ x y, used x → used y → (key x = key y ↔ other x = other y))
    (agree : ∀ x, used x → s (key x) = t (other x)) {e : Event X V} (at_e : used e.place) (y : X) (at_y : used y) :
    step key initial s e (key y) = step other initial t e (other y) := by
  cases e with
  | enter x =>
    have present := agree x at_e
    simp only [step, present]
    split
    · exact update_agree same agree at_e _ y at_y
    · exact agree y at_y
  | read x => exact agree y at_y
  | write x v => exact update_agree same agree at_e _ y at_y
  | remove x => exact update_agree same agree at_e _ y at_y

theorem run_agree (same : ∀ x y, used x → used y → (key x = key y ↔ other x = other y)) (events : List (Event X V))
    (agree : ∀ x, used x → s (key x) = t (other x)) (at_events : ∀ e ∈ events, used e.place) :
    run key initial s events = run other initial t events := by
  induction events generalizing s t with
  | nil => rfl
  | cons e rest ih =>
    have at_e := at_events e (.head _)
    have stays : ∀ y, used y → step key initial s e (key y) = step other initial t e (other y) :=
      step_agree same agree at_e
    rw [run, run, stays e.place at_e]
    rw [ih stays fun e' he' => at_events e' (List.mem_cons_of_mem e he')]

/-- Where a second place finds the value that was written at a first. -/
theorem enter_write_enter {x y : X} {v : V} : run key initial (fun _ => none) [.enter x, .write x v, .enter y] =
      [some (initial x), some v, some (if key x = key y then v else initial y)] := by
  simp only [run, step, Event.place, Option.isNone_none, if_true, update_self, Function.update_idem]
  by_cases shared : key x = key y
  · rw [← shared]
    simp
  · have apart : key y ≠ key x := fun eq => shared eq.symm
    simp [update_of_ne apart, shared]

/-- **Two keys show the same in all runs** exactly if they are equal at the same places. -/
theorem run_agree_iff [Nontrivial V] : (∀ events : List (Event X V), (∀ e ∈ events, used e.place) →
      run key initial (fun _ => none) events = run other initial (fun _ => none) events) ↔
      ∀ x y, used x → used y → (key x = key y ↔ other x = other y) := by
  constructor
  · intro agree x y at_x at_y
    obtain ⟨v, fresh⟩ := exists_ne (initial y)
    have seen := agree [.enter x, .write x v, .enter y] (by
      intro e he
      rcases List.mem_cons.mp he with rfl | he
      · exact at_x
      rcases List.mem_cons.mp he with rfl | he
      · exact at_x
      · rw [List.mem_singleton.mp he]
        exact at_y)
    rw [enter_write_enter, enter_write_enter] at seen
    have last : (if key x = key y then v else initial y) = if other x = other y then v else initial y := by
      simpa using seen
    constructor
    · intro shared
      by_contra apart
      rw [if_pos shared, if_neg apart] at last
      exact fresh last
    · intro shared
      by_contra apart
      rw [if_pos shared, if_neg apart] at last
      exact fresh last.symm
  · intro same events at_events
    exact run_agree same events (fun _ _ => rfl) at_events

end Agree

end KeyedStore
