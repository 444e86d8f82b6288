import PhpPico.Class.Marking
import Mathlib.Data.Fin.VecNotation

/-!
# Clearing user classes

`pphp_clear_user_classes` releases the classes that are not marked. Marking does not look at the callbacks of
peripheral objects, and does not go on from a class that is no longer in the table. **Nothing that is still referred
to is released exactly if these lead to no other classes.**
-/

namespace PhpPico.UserClasses
open List Reaching Relation

section Clearing
variable {n m : Nat}

/-! ## The table of classes -/

/-- The callback that the GPIO data of an object keeps. -/
def Container.callback : Container n m → PValue n
  | .object _ _ callback => callback
  | _ => none

/-- `pclass_release_values`. -/
def PClass.releaseValues (entry : PClass n m) : PClass n m :=
  { entry with
    properties := entry.properties.map fun p => { p with defaultValue := none }
    staticProperties := []
    constants := [] }

variable {supers : Fin m → List (Fin m)} {table : List (Fin m)}

theorem ordered_registered (ordered : Ordered supers table) {c : Fin m}
    (listed : c ∈ table) : ∀ p ∈ supers c, p ∈ table := by
  obtain ⟨before, after, split⟩ := append_of_mem listed
  intro p above
  rw [split]
  exact mem_append_left _ (ordered before c after split p above)

theorem ordered_front {front : List (Fin m)} (ordered : Ordered supers table)
    (front_of : front <+: table) : Ordered supers front := by
  obtain ⟨rest, rfl⟩ := front_of
  intro before c after split
  refine ordered before c (after ++ rest) ?_
  rw [split, append_assoc, cons_append]

theorem ordered_push (ordered : Ordered supers table) {c : Fin m}
    (above : ∀ p ∈ supers c, p ∈ table) : Ordered supers (table ++ [c]) := by
  intro before d after split
  rcases append_eq_append_iff.mp split with ⟨more, rfl, last⟩ | ⟨more, rfl, last⟩
  · cases more with
    | nil =>
      obtain ⟨rfl, -⟩ := cons.inj last
      rwa [append_nil]
    | cons first rest =>
      have lengths := congrArg List.length last
      simp only [length_cons, length_append, length_nil] at lengths
      omega
  · cases more with
    | nil =>
      obtain ⟨rfl, -⟩ := cons.inj last
      rwa [append_nil] at above
    | cons first rest =>
      obtain ⟨rfl, -⟩ := cons.inj last
      exact ordered before _ rest rfl

/-- Some classes of a table, and with each of them those above it. -/
theorem ordered_filter (ordered : Ordered supers table) {kept : Fin m → Bool}
    (closed : ∀ c ∈ table, kept c = true → ∀ p ∈ supers c, kept p = true) : Ordered supers (table.filter kept) := by
  intro before c after split p above
  obtain ⟨front, back, rfl, first, second⟩ := filter_eq_append_iff.mp split
  obtain ⟨dropped, rest, rfl, none_kept, keeps, -⟩ := filter_eq_cons_iff.mp second
  have listed : p ∈ front ++ dropped := by
    refine ordered (front ++ dropped) c rest ?_ p above
    rw [append_assoc]
  have p_kept := closed c (mem_append_right _ (mem_append_right _ (.head _))) keeps p above
  rw [← first]
  rcases mem_append.mp listed with in_front | in_dropped
  · exact mem_filter.mpr ⟨in_front, p_kept⟩
  · exact absurd p_kept (none_kept p in_dropped)

namespace State
variable (s : State n m)

/-- `pphp_register_class`, for a class whose parent and interfaces were found in the table. -/
def register (c : Fin m) (fresh : c ∉ s.classes) (above : ∀ p ∈ (s.entries c).supers, p ∈ s.classes) : State n m :=
  { s with
    classes := s.classes ++ [c]
    buildingClass := none
    nodup := nodup_push s.nodup fresh
    ordered := ordered_push s.ordered above }

/-- The values of some classes are released. -/
def releasing (released : Fin m → Bool) (c : Fin m) : PClass n m :=
  if released c then (s.entries c).releaseValues else s.entries c

theorem releasing_supers (released : Fin m → Bool) (c : Fin m) :
    (s.releasing released c).supers = (s.entries c).supers ∧
      (s.releasing released c).parent = (s.entries c).parent := by
  unfold releasing
  split <;> exact ⟨rfl, rfl⟩

theorem releasing_owned (released : Fin m → Bool) (c : Fin m) : ∀ p ∈ (s.releasing released c).properties,
      ReflTransGen (fun c above => (s.releasing released c).parent = some above) c p.owner := by
  have parents : (fun c above => (s.releasing released c).parent = some above) =
      fun c above => (s.entries c).parent = some above := by
    funext c above
    rw [(s.releasing_supers released c).2]
  intro p declared
  rw [parents]
  unfold releasing at declared
  split at declared
  · obtain ⟨q, listed, rfl⟩ := List.mem_map.mp declared
    exact s.owned c q listed
  · exact s.owned c p declared

theorem releasing_ordered (released : Fin m → Bool) {table : List (Fin m)}
    (ordered : Ordered (fun c => (s.entries c).supers) table) :
    Ordered (fun c => (s.releasing released c).supers) table := by
  intro before c after split p above
  change p ∈ (s.releasing released c).supers at above
  rw [(s.releasing_supers released c).1] at above
  exact ordered before c after split p above

/-- `rollback_definitions`: the classes behind a checkpoint leave the table, and their values are released. -/
def rollback (checkpoint : Nat) : State n m :=
  { s with
    entries := s.releasing fun c => (s.classes.drop checkpoint).contains c
    classes := s.classes.take checkpoint
    nodup := s.nodup.sublist (take_sublist _ _)
    ordered := s.releasing_ordered _ (ordered_front s.ordered (List.take_prefix _ _))
    owned := s.releasing_owned _ }

/-- Whether a class is kept. -/
def keeps (r : Reachability n m) (c : Fin m) : Bool := r.classQueue.contains c || (s.entries c).persistent

end State

/-! ## What is kept -/

section Kept
variable {s : State n m} {memory : Nat → Bool} {granted : Bool} {r : Reachability n m}

variable {c : Fin m}

theorem keeps_iff (built : reachabilityBuild memory s granted = some r) (listed : c ∈ s.classes) :
    s.keeps r c = true ↔ Led s.MarkedRoot s.Marks (.ofClass c) := by
  unfold State.keeps
  rw [Bool.or_eq_true, contains_iff_mem]
  have marked := build_spec memory built (.ofClass c)
  constructor
  · rintro (queued | persistent)
    · exact marked.mp queued
    · refine led_root ⟨?_, listed⟩
      have root : Node.ofClass c ∈ (s.classes.filter fun c => (s.entries c).persistent).map (Node.ofClass (n := n)) :=
        List.mem_map_of_mem (mem_filter.mpr ⟨listed, persistent⟩)
      unfold State.roots
      simp only [mem_append, root, true_or]
  · exact fun led => .inl (marked.mpr led)

theorem super_target {p : Fin m} (above : p ∈ (s.entries c).supers) : Node.ofClass p ∈ s.targets (.ofClass c) := by
  have root : Node.ofClass p ∈ (s.entries c).supers.map (Node.ofClass (n := n)) := List.mem_map_of_mem above
  unfold State.targets PClass.nodes
  simp only [mem_append, root, true_or]

theorem keeps_supers (built : reachabilityBuild memory s granted = some r) (listed : c ∈ s.classes)
    (kept : s.keeps r c = true) : ∀ p ∈ (s.entries c).supers, p ∈ s.classes ∧ s.keeps r p = true := by
  intro p above
  have registered := ordered_registered s.ordered listed p above
  have led := (keeps_iff built listed).mp kept
  exact ⟨registered, (keeps_iff built registered).mpr (led.next ⟨super_target above, registered⟩)⟩

end Kept

/-- What `pphp_clear_user_classes` does behind the destructors. `pphp_gc_collect` frees what nothing refers to any
more; it is left out. -/
def State.cleared (s : State n m) {memory : Nat → Bool} {granted : Bool} {r : Reachability n m}
    (built : reachabilityBuild memory s granted = some r) : State n m :=
  { s with
    entries := s.releasing fun c => s.classes.contains c && !s.keeps r c
    classes := s.classes.filter (s.keeps r)
    buildingClass := s.buildingClass.filter fun c => (s.entries c).persistent
    nodup := s.nodup.filter _
    ordered := s.releasing_ordered _
      (ordered_filter s.ordered fun _ listed kept p above => (keeps_supers built listed kept p above).2)
    owned := s.releasing_owned _ }

/-! ## Runs -/

/-- A state, with its containers and classes. -/
abbrev World := (n : Nat) × (m : Nat) × State n m

/-- Runs of `pphp_clear_user_classes`: while destructors of unmarked objects are invoked, which may do anything,
marking begins again. A run has a last pass, and leaves a state. -/
inductive Clears (memory : Nat → Bool) (granted : Bool)
    (destructors : (w : World) → Reachability w.1 w.2.1 → Option World) : World → World → World → Prop where
  | outOfMemory {n m : Nat} {s : State n m} (failed : reachabilityBuild memory s granted = none) :
      Clears memory granted destructors ⟨n, m, s⟩ ⟨n, m, s⟩ ⟨n, m, s⟩
  | again {n m : Nat} {s : State n m} {r : Reachability n m} {w last left : World}
      (built : reachabilityBuild memory s granted = some r) (invoked : destructors ⟨n, m, s⟩ r = some w)
      (rest : Clears memory granted destructors w last left) : Clears memory granted destructors ⟨n, m, s⟩ last left
  | done {n m : Nat} {s : State n m} {r : Reachability n m} (built : reachabilityBuild memory s granted = some r)
      (invoked : destructors ⟨n, m, s⟩ r = none) :
      Clears memory granted destructors ⟨n, m, s⟩ ⟨n, m, s⟩ ⟨n, m, s.cleared built⟩

/-- What the last pass leaves: the same state where memory has run out, and otherwise the kept classes. -/
theorem Clears.last {memory : Nat → Bool} {granted : Bool}
    {destructors : (w : World) → Reachability w.1 w.2.1 → Option World} {start last left : World}
    (run : Clears memory granted destructors start last left) :
    (reachabilityBuild memory last.2.2 granted = none ∧ left = last) ∨
      ∃ (r : Reachability last.1 last.2.1) (built : reachabilityBuild memory last.2.2 granted = some r),
        left = ⟨last.1, last.2.1, last.2.2.cleared built⟩ := by
  induction run with
  | outOfMemory failed => exact .inl ⟨failed, rfl⟩
  | again _ _ _ ih => exact ih
  | done built _ => exact .inr ⟨_, built, rfl⟩

/-! ## What is referred to -/

/-- What a class or a container refers to. -/
def State.Refers (s : State n m) (x y : Node n m) : Prop :=
  y ∈ s.targets x ∨ ∃ a, x = .container a ∧ y ∈ valueNodes (s.heap a).callback

/-- The roots lead to it. -/
def State.Alive (s : State n m) (x : Node n m) : Prop := Led (fun r => r ∈ s.roots) s.Refers x

/-- The classes that are still referred to stay in the table; and with each class those above it, and those that
declare its properties. -/
structure SafelyCleared (s s' : State n m) : Prop where
  alive : ∀ c ∈ s.classes, s.Alive (.ofClass c) → c ∈ s'.classes
  supers : ∀ c ∈ s'.classes, ∀ p ∈ (s.entries c).supers, p ∈ s'.classes
  contexts : ∀ c ∈ s'.classes, ∀ p ∈ (s.entries c).properties, p.owner ∈ s'.classes

/-- Where marking stops: at the callback of a peripheral object, and at a class that is not in the table. -/
inductive Detour (s : State n m) : Node n m → Prop where
  | callback {a b : Fin n} (alive : s.Alive (.container a)) (kept : (s.heap a).callback = some b) :
      Detour s (.container b)
  | unregistered {c : Fin m} (alive : s.Alive (.ofClass c)) (outside : c ∉ s.classes) : Detour s (.ofClass c)

/-- Whatever classes a detour leads to are marked without it. -/
def Covered (s : State n m) : Prop := ∀ y, Detour s y → ∀ c ∈ s.classes,
  ReflTransGen s.Refers y (.ofClass c) → Led s.MarkedRoot s.Marks (.ofClass c)

section Safety
variable {s s' : State n m} {memory : Nat → Bool} {granted : Bool} {r : Reachability n m}

theorem Detour.alive {y : Node n m} (h : Detour s y) : s.Alive y := by
  cases h with
  | callback alive kept =>
    refine alive.next (.inr ⟨_, rfl, ?_⟩)
    rw [kept]
    exact mem_singleton_self _
  | unregistered alive => exact alive

/-- What is not in the table is a class. -/
theorem detour_of_not_registered {y : Node n m} (alive : s.Alive y) (outside : ¬ s.Registered y) : Detour s y := by
  cases y with
  | ofClass c => exact .unregistered alive outside
  | container a => exact absurd trivial outside

theorem alive_cases {z : Node n m} (alive : s.Alive z) :
    Led s.MarkedRoot s.Marks z ∨ ∃ y, Detour s y ∧ ReflTransGen s.Refers y z := by
  obtain ⟨root, is_root, path⟩ := alive
  by_cases registered : s.Registered root
  · have split (x y : Node n m) (one : s.Refers x y) : s.Marks x y ∨ (s.Refers x y ∧ ¬ s.Marks x y) := by
      by_cases marks : s.Marks x y
      · exact .inl marks
      · exact .inr ⟨one, marks⟩
    rcases path_leaves split path with inside | ⟨u, v, inside, ⟨leaves, unmarked⟩, rest⟩
    · exact .inl ⟨root, ⟨is_root, registered⟩, inside⟩
    · have u_alive : s.Alive u := ⟨root, is_root, ReflTransGen.mono (fun _ _ marks => Or.inl marks.1) _ _ inside⟩
      refine .inr ⟨v, ?_, rest⟩
      rcases leaves with target | ⟨a, rfl, kept⟩
      · exact detour_of_not_registered (u_alive.next (.inl target)) fun registered => unmarked ⟨target, registered⟩
      · cases callback : (s.heap a).callback with
        | none =>
          rw [callback] at kept
          exact absurd kept not_mem_nil
        | some b =>
          rw [callback] at kept
          obtain rfl := mem_singleton.mp kept
          exact .callback u_alive callback
  · exact .inr ⟨root, detour_of_not_registered (led_root is_root) registered, path⟩

variable (built : reachabilityBuild memory s granted = some r) {c : Fin m}

theorem mem_cleared : c ∈ (s.cleared built).classes ↔ c ∈ s.classes ∧ s.keeps r c = true := mem_filter

/-- **What is above a kept class is kept.** -/
theorem cleared_supers
    (kept : c ∈ (s.cleared built).classes) : ∀ p ∈ (s.entries c).supers, p ∈ (s.cleared built).classes := by
  obtain ⟨listed, keeps⟩ := (mem_cleared built).mp kept
  exact fun p above => (mem_cleared built).mpr (keeps_supers built listed keeps p above)

/-- What has the classes above each of its classes has those that declare their properties. -/
theorem owner_kept {table : List (Fin m)} (closed : ∀ c ∈ table, ∀ p ∈ (s.entries c).supers, p ∈ table)
    (kept : c ∈ table) : ∀ p ∈ (s.entries c).properties, p.owner ∈ table := by
  intro p declared
  have path := s.owned c p declared
  generalize p.owner = owner at path
  induction path with
  | refl => exact kept
  | tail _ parent ih =>
    apply closed _ ih
    unfold PClass.supers
    rw [parent]
    exact mem_append_left _ (mem_singleton_self _)

/-- **So are the classes that declare its properties.** -/
theorem cleared_contexts
    (kept : c ∈ (s.cleared built).classes) : ∀ p ∈ (s.entries c).properties, p.owner ∈ (s.cleared built).classes := by
  exact owner_kept (fun _ listed => cleared_supers built listed) kept

/-- **The last pass is safe exactly if the detours lead to no other classes.** -/
theorem cleared_safe_iff : SafelyCleared s (s.cleared built) ↔ Covered s := by
  constructor
  · intro safe y detour c listed path
    have stays := safe.alive c listed (detour.alive.follow path)
    exact (keeps_iff built listed).mp ((mem_cleared built).mp stays).2
  · intro covered
    refine ⟨fun c listed alive => ?_, fun _ kept => cleared_supers built kept,
      fun _ kept => cleared_contexts built kept⟩
    refine (mem_cleared built).mpr ⟨listed, (keeps_iff built listed).mpr ?_⟩
    rcases alive_cases alive with led | ⟨y, detour, path⟩
    · exact led
    · exact covered y detour c listed path

/-- Where memory runs out, nothing is released. -/
theorem unchanged_safe (s : State n m) : SafelyCleared s s where
  alive := fun _ listed _ => listed
  supers := fun _ listed => ordered_registered s.ordered listed
  contexts := fun _ listed => owner_kept (fun _ listed => ordered_registered s.ordered listed) listed

end Safety

/-- **`pphp_clear_user_classes` is safe exactly if** no memory is left for marking, or the callbacks of peripheral
objects, and the classes that have left the table, lead to no class that is not marked anyway. -/
theorem clear_user_classes {memory : Nat → Bool} {granted : Bool}
    {destructors : (w : World) → Reachability w.1 w.2.1 → Option World} {start : World} {s s' : State n m}
    (run : Clears memory granted destructors start ⟨n, m, s⟩ ⟨n, m, s'⟩) :
    SafelyCleared s s' ↔ reachabilityBuild memory s granted = none ∨ Covered s := by
  rcases run.last with ⟨failed, left⟩ | ⟨r, built, left⟩
  · cases left
    exact iff_of_true (unchanged_safe s) (.inl failed)
  · cases left
    rw [cleared_safe_iff built]
    constructor
    · exact .inr
    · rintro (failed | covered)
      · exact absurd (failed.symm.trans built) (fun same => by cases same)
      · exact covered

end Clearing

/-- A class without members. -/
def bareClass {n m : Nat} (parent : Option (Fin m)) (persistent : Bool) : PClass n m :=
  ⟨parent, [], [], [], [], persistent⟩

/-- A state without classes in its table, with one global. -/
def globalState {n m : Nat} (heap : Fin n → Container n m) (parents : Fin m → Option (Fin m))
    (persistent : Fin m → Bool) (value : PValue n) : State n m where
  heap := heap
  entries := fun c => bareClass (parents c) (persistent c)
  classes := []
  buildingClass := none
  globals := [some (none, value)]
  statics := []
  constants := []
  includedFiles := []
  stack := []
  frames := []
  oomException := none
  nodup := nodup_nil
  ordered := fun before c after same => absurd (congrArg List.length same) (by
    rw [length_append, length_cons, length_nil]
    omega)
  owned := fun _ _ declared => absurd declared not_mem_nil

/-- A global holds a pin, whose callback may be a closure that was made in a user class. -/
def pinState (callback : PValue 2) : State 2 2 :=
  let s : State 2 2 := globalState ![.object 0 [] callback, .closure (some 1) (some 1) []] (fun _ => none)
    ![true, false] (some 0)
  let builtin := s.register 0 not_mem_nil fun _ above => absurd above not_mem_nil
  builtin.register 1 (show (1 : Fin 2) ∉ [0] by decide) fun _ above => absurd above not_mem_nil

theorem pin_built (callback : PValue 2) :
    reachabilityBuild (fun _ => true) (pinState callback) true = some ⟨[0], 1, [0], 16, 1, false⟩ := by
  rcases callback with _ | callback
  · decide
  · revert callback
    decide

theorem clear_user_classes_pin : SafelyCleared (pinState none) ((pinState none).cleared (pin_built none)) ↔
      reachabilityBuild (fun _ => true) (pinState none) true = none ∨ Covered (pinState none) := by
  have run : Clears (fun _ => true) true (fun _ _ => none) ⟨2, 2, pinState none⟩ ⟨2, 2, pinState none⟩
      ⟨2, 2, (pinState none).cleared (pin_built none)⟩ := .done (pin_built none) rfl
  exact clear_user_classes run

/-- An object of a class whose definition is rolled back; its parent stays in the table. -/
def rolledBackState : State 1 2 :=
  let s : State 1 2 := globalState ![.object 1 [] none] ![none, some 0] (fun _ => false) (some 0)
  ((s.register 0 (by decide) (by decide)).register 1 (by decide) (by decide)).rollback 1

theorem rolled_back_built :
    reachabilityBuild (fun _ => true) rolledBackState true = some ⟨[], 0, [0], 16, 1, false⟩ := by
  decide

theorem callback_class_is_released :
    (∃ s', Clears (fun _ => true) true (fun _ _ => none) ⟨2, 2, pinState (some 1)⟩ ⟨2, 2, pinState (some 1)⟩
      ⟨2, 2, s'⟩ ∧ ¬ SafelyCleared (pinState (some 1)) s') ∧
      ∃ s', Clears (fun _ => true) true (fun _ _ => none) ⟨1, 2, rolledBackState⟩ ⟨1, 2, rolledBackState⟩ ⟨1, 2, s'⟩ ∧
        ¬ SafelyCleared rolledBackState s' := by
  refine ⟨⟨_, .done (pin_built (some 1)) rfl, ?_⟩, ⟨_, .done rolled_back_built rfl, ?_⟩⟩
  · intro safe
    have pin : (pinState (some 1)).Alive (.container 0) := led_root (by decide)
    have closure : (pinState (some 1)).Alive (.container 1) := pin.next (.inr ⟨0, rfl, by decide⟩)
    have handler : (pinState (some 1)).Alive (.ofClass 1) := closure.next (.inl (by decide))
    exact absurd (safe.alive 1 (by decide) handler) (by decide)
  · intro safe
    have object : rolledBackState.Alive (.container 0) := led_root (by decide)
    have child : rolledBackState.Alive (.ofClass 1) := object.next (.inl (by decide))
    have parent : rolledBackState.Alive (.ofClass 0) := child.next (.inl (by decide))
    exact absurd (safe.alive 0 (by decide) parent) (by decide)

end PhpPico.UserClasses
