import PhpPico.Class.Reachability
import Mathlib.Data.List.Infix

/-!
# What marking reaches

Marking keeps two queues without repetitions. What stands before a cursor is expanded. The rounds are enough for both
cursors to come to the end, unless memory runs out.
-/

namespace PhpPico.UserClasses
open List Reaching

section Marking
variable {n m : Nat} {s : State n m} {memory : Nat → Bool} {r r' r'' : Reachability n m}

/-- No queue has anything twice. -/
structure Reachability.Distinct (r : Reachability n m) : Prop where
  classes : r.classQueue.Nodup
  containers : r.containers.Nodup

/-- What marking some nodes does. -/
structure Marked (s : State n m) (xs : List (Node n m)) (r r' : Reachability n m) : Prop where
  classCursor : r'.classCursor = r.classCursor
  containerCursor : r'.containerCursor = r.containerCursor
  classQueue : r.classQueue <+: r'.classQueue
  containers : r.containers <+: r'.containers
  failed : r'.failed = false → r.failed = false
  has : r'.failed = false → ∀ x ∈ xs, s.Registered x → r'.Has x
  only : ∀ y, r'.Has y → r.Has y ∨ (y ∈ xs ∧ s.Registered y)
  distinct : r.Distinct → r'.Distinct

theorem Marked.keeps {xs : List (Node n m)} (h : Marked s xs r r') {x : Node n m} (has : r.Has x) : r'.Has x := by
  cases x with
  | ofClass c => exact h.classQueue.subset has
  | container a => exact h.containers.subset has

theorem marked_nil (s : State n m) (r : Reachability n m) : Marked s [] r r :=
  ⟨rfl, rfl, prefix_rfl, prefix_rfl, id, fun _ _ mem => absurd mem not_mem_nil, fun _ has => .inl has, id⟩

theorem Marked.append {xs ys : List (Node n m)} (h : Marked s xs r r') (h' : Marked s ys r' r'') :
    Marked s (xs ++ ys) r r'' where
  classCursor := h'.classCursor.trans h.classCursor
  containerCursor := h'.containerCursor.trans h.containerCursor
  classQueue := h.classQueue.trans h'.classQueue
  containers := h.containers.trans h'.containers
  failed := fun going => h.failed (h'.failed going)
  has := fun going x mem registered => by
    rcases mem_append.mp mem with first | second
    · exact h'.keeps (h.has (h'.failed going) x first registered)
    · exact h'.has going x second registered
  only := fun y has => by
    rcases h'.only y has with before | ⟨mem, registered⟩
    · rcases h.only y before with before | ⟨mem, registered⟩
      · exact .inl before
      · exact .inr ⟨mem_append_left _ mem, registered⟩
    · exact .inr ⟨mem_append_right _ mem, registered⟩
  distinct := fun distinct => h'.distinct (h.distinct distinct)

theorem marked_same {x : Node n m} (done : r.failed = false → s.Registered x → r.Has x) : Marked s [x] r r where
  classCursor := rfl
  containerCursor := rfl
  classQueue := prefix_rfl
  containers := prefix_rfl
  failed := id
  has := fun going y mem registered => by
    obtain rfl := mem_singleton.mp mem
    exact done going registered
  only := fun _ has => .inl has
  distinct := id

theorem nodup_push {α : Type} {l : List α} {x : α} (distinct : l.Nodup) (fresh : x ∉ l) : (l ++ [x]).Nodup := by
  rw [← concat_eq_append]
  exact distinct.concat fresh

theorem markClass_marked (s : State n m) (r : Reachability n m) (c : Fin m) :
    Marked s [.ofClass c] r (markClass s r (some c)) := by
  have code : markClass s r (some c) = if r.failed || !s.classes.contains c || r.classQueue.contains c then r
      else { r with classQueue := r.classQueue ++ [c] } := rfl
  rw [code]
  split
  · rename_i skipped
    apply marked_same
    intro going registered
    have listed : s.classes.contains c = true := contains_iff_mem.mpr registered
    rw [going, listed, Bool.not_true, Bool.or_self, Bool.false_or] at skipped
    exact contains_iff_mem.mp skipped
  · rename_i new
    simp only [Bool.or_eq_true, Bool.not_eq_true', contains_iff_mem, not_or, Bool.not_eq_true, Bool.not_eq_false] at new
    obtain ⟨⟨going, registered⟩, fresh⟩ := new
    exact {
      classCursor := rfl
      containerCursor := rfl
      classQueue := prefix_append _ _
      containers := prefix_rfl
      failed := id
      has := fun _ y mem _ => by
        obtain rfl := mem_singleton.mp mem
        exact mem_append_right _ (mem_singleton_self c)
      only := fun y has => by
        cases y with
        | container a => exact .inl has
        | ofClass d =>
          rcases mem_append.mp has with before | last
          · exact .inl before
          · obtain rfl := mem_singleton.mp last
            exact .inr ⟨mem_singleton_self _, registered⟩
      distinct := fun distinct => ⟨nodup_push distinct.classes fresh, distinct.containers⟩ }

/-- A container that is not there yet comes to the end of its queue. -/
theorem marked_push {a : Fin n} {capacity : Nat} (fresh : a ∉ r.containers) :
    Marked s [.container a] r { r with containers := r.containers ++ [a], capacity := capacity } where
  classCursor := rfl
  containerCursor := rfl
  classQueue := prefix_rfl
  containers := prefix_append _ _
  failed := id
  has := fun _ y mem _ => by
    obtain rfl := mem_singleton.mp mem
    exact mem_append_right _ (mem_singleton_self a)
  only := fun y has => by
    cases y with
    | ofClass c => exact .inl has
    | container b =>
      rcases mem_append.mp has with before | last
      · exact .inl before
      · obtain rfl := mem_singleton.mp last
        exact .inr ⟨mem_singleton_self _, trivial⟩
  distinct := fun distinct => ⟨distinct.classes, nodup_push distinct.containers fresh⟩

theorem markValue_marked (s : State n m) (memory : Nat → Bool) (r : Reachability n m) (a : Fin n) :
    Marked s [.container a] r (markValue memory r (some a)) := by
  have code : markValue memory r (some a) = if r.failed || r.containers.contains a then r
      else if r.containers.length = r.capacity then
        if memory (if r.capacity = 0 then 16 else r.capacity * 2) then
          { r with containers := r.containers ++ [a], capacity := if r.capacity = 0 then 16 else r.capacity * 2 }
        else { r with failed := true }
      else { r with containers := r.containers ++ [a] } := rfl
  rw [code]
  by_cases skipped : (r.failed || r.containers.contains a) = true
  · rw [if_pos skipped]
    apply marked_same
    intro going _
    rw [going, Bool.false_or] at skipped
    exact contains_iff_mem.mp skipped
  · rw [if_neg skipped]
    have fresh : a ∉ r.containers := fun mem => skipped (by rw [contains_iff_mem.mpr mem, Bool.or_true])
    by_cases full : r.containers.length = r.capacity
    · rw [if_pos full]
      by_cases granted : memory (if r.capacity = 0 then 16 else r.capacity * 2) = true
      · rw [if_pos granted]
        exact marked_push fresh
      · rw [if_neg granted]
        exact {
          classCursor := rfl
          containerCursor := rfl
          classQueue := prefix_rfl
          containers := prefix_rfl
          failed := fun going => by cases going
          has := fun going => by cases going
          only := fun _ has => .inl has
          distinct := fun distinct => ⟨distinct.classes, distinct.containers⟩ }
    · rw [if_neg full]
      exact marked_push fresh

theorem mark_marked (s : State n m) (memory : Nat → Bool) (r : Reachability n m) (x : Node n m) :
    Marked s [x] r (mark s memory r x) := by
  cases x with
  | ofClass c => exact markClass_marked s r c
  | container a => exact markValue_marked s memory r a

/-- **Marking one after the other** marks what is registered, and nothing else. -/
theorem foldl_marked (s : State n m) (memory : Nat → Bool) (xs : List (Node n m)) (r : Reachability n m) :
    Marked s xs r (xs.foldl (mark s memory) r) := by
  induction xs generalizing r with
  | nil => exact marked_nil s r
  | cons x rest ih => exact (mark_marked s memory r x).append (ih _)

/-! ## The queues -/

/-- What marking keeps: what is marked is led to, the roots are marked, and what stands before a cursor is expanded. -/
structure Invariant (s : State n m) (r : Reachability n m) : Prop where
  distinct : r.Distinct
  classCursor : r.classCursor ≤ r.classQueue.length
  containerCursor : r.containerCursor ≤ r.containers.length
  led : ∀ x, r.Has x → Led s.MarkedRoot s.Marks x
  roots : r.failed = false → ∀ x, s.MarkedRoot x → r.Has x
  classes : r.failed = false → ∀ c ∈ r.classQueue.take r.classCursor, ∀ y, s.Marks (.ofClass c) y → r.Has y
  containers : r.failed = false → ∀ a ∈ r.containers.take r.containerCursor, ∀ y, s.Marks (.container a) y → r.Has y

theorem prefix_take {α : Type} {l l' : List α} (front : l <+: l') {k : Nat} (short : k ≤ l.length) :
    l'.take k = l.take k := by
  obtain ⟨rest, rfl⟩ := front
  exact take_append_of_le_length short

theorem invariant_roots (s : State n m) (memory : Nat → Bool) : Invariant s (markRoots memory s) := by
  rw [markRoots_eq]
  have marked := foldl_marked s memory s.roots ⟨[], 0, [], 0, 0, false⟩
  have none_before (x : Node n m) : ¬ Reachability.Has ⟨[], 0, [], 0, 0, false⟩ x := by
    cases x with
    | ofClass c => exact not_mem_nil
    | container a => exact not_mem_nil
  refine ⟨marked.distinct ⟨nodup_nil, nodup_nil⟩, ?_, ?_, ?_, ?_, ?_, ?_⟩
  · rw [marked.classCursor]
    exact Nat.zero_le _
  · rw [marked.containerCursor]
    exact Nat.zero_le _
  · intro x has
    exact led_root ((marked.only x has).resolve_left (none_before x))
  · exact fun going x root => marked.has going x root.1 root.2
  · intro _ c mem
    rw [marked.classCursor, take_zero] at mem
    simp at mem
  · intro _ a mem
    rw [marked.containerCursor, take_zero] at mem
    simp at mem

variable (memory)

theorem Invariant.expand (h : Invariant s r) {i j : Nat} {x : Node n m} (listed : r.Has x)
    (marked : Marked s (s.targets x) { r with classCursor := i, containerCursor := j } r')
    (classCursor : i ≤ r.classQueue.length) (containerCursor : j ≤ r.containers.length)
    (classes : ∀ c ∈ r.classQueue.take i, c ∈ r.classQueue.take r.classCursor ∨ .ofClass c = x)
    (containers : ∀ a ∈ r.containers.take j, a ∈ r.containers.take r.containerCursor ∨ .container a = x) :
    Invariant s r' := by
  refine ⟨marked.distinct ⟨h.distinct.classes, h.distinct.containers⟩, ?_, ?_, ?_, ?_, ?_, ?_⟩
  · rw [marked.classCursor]
    exact classCursor.trans marked.classQueue.length_le
  · rw [marked.containerCursor]
    exact containerCursor.trans marked.containers.length_le
  · intro y has
    rcases marked.only y has with before | ⟨target, registered⟩
    · exact h.led y before
    · exact (h.led _ listed).next ⟨target, registered⟩
  · exact fun going y root => marked.keeps (h.roots (marked.failed going) y root)
  · intro going c mem y target
    rw [marked.classCursor, prefix_take marked.classQueue classCursor] at mem
    rcases classes c mem with before | rfl
    · exact marked.keeps (h.classes (marked.failed going) c before y target)
    · exact marked.has going y target.1 target.2
  · intro going a mem y target
    rw [marked.containerCursor, prefix_take marked.containers containerCursor] at mem
    rcases containers a mem with before | rfl
    · exact marked.keeps (h.containers (marked.failed going) a before y target)
    · exact marked.has going y target.1 target.2

theorem mem_take_next {α : Type} {l : List α} {k : Nat} {x y : α} (next : l[k]? = some x) (mem : y ∈ l.take (k + 1)) :
    y ∈ l.take k ∨ y = x := by
  simpa [take_add_one, next] using mem

theorem Invariant.expandClass (h : Invariant s r) {c : Fin m} (next : r.classQueue[r.classCursor]? = some c) :
    Invariant s (expandClass memory s { r with classCursor := r.classCursor + 1 } c) := by
  have listed : r.Has (.ofClass c) := mem_of_getElem? next
  rw [expandClass_eq]
  exact h.expand listed (foldl_marked s memory _ _) (List.getElem?_eq_some_iff.mp next).1
    h.containerCursor (fun _ mem => (mem_take_next next mem).imp_right (congrArg Node.ofClass)) fun _ mem => .inl mem

theorem Invariant.expandContainer (h : Invariant s r) {a : Fin n} (next : r.containers[r.containerCursor]? = some a) :
    Invariant s (expandContainer memory s { r with containerCursor := r.containerCursor + 1 } a) := by
  have listed : r.Has (.container a) := mem_of_getElem? next
  rw [expandContainer_eq]
  exact h.expand listed (foldl_marked s memory _ _) h.classCursor
    (List.getElem?_eq_some_iff.mp next).1 (fun _ mem => .inl mem)
    fun _ mem => (mem_take_next next mem).imp_right (congrArg Node.container)

/-! ## The loops -/

/-- How far a loop has come: no cursor goes back. -/
structure Advanced (r r' : Reachability n m) : Prop where
  classes : r.classCursor ≤ r'.classCursor
  containers : r.containerCursor ≤ r'.containerCursor

theorem Invariant.classQueue_length (h : Invariant s r) : r.classQueue.length ≤ m := by
  have card := h.distinct.classes.length_le_card
  rwa [Fintype.card_fin] at card

theorem Invariant.containers_length (h : Invariant s r) : r.containers.length ≤ n := by
  have card := h.distinct.containers.length_le_card
  rwa [Fintype.card_fin] at card

theorem expandClass_cursors (r : Reachability n m) (c : Fin m) :
    (expandClass memory s r c).classCursor = r.classCursor ∧
      (expandClass memory s r c).containerCursor = r.containerCursor := by
  rw [expandClass_eq]
  have marked := foldl_marked s memory (s.targets (.ofClass c)) r
  exact ⟨marked.classCursor, marked.containerCursor⟩

theorem expandContainer_cursors (r : Reachability n m) (a : Fin n) :
    (expandContainer memory s r a).classCursor = r.classCursor ∧
      (expandContainer memory s r a).containerCursor = r.containerCursor := by
  rw [expandContainer_eq]
  have marked := foldl_marked s memory (s.targets (.container a)) r
  exact ⟨marked.classCursor, marked.containerCursor⟩

/-- **The loop over the classes** goes on to the end of the queue. -/
theorem drainClasses_spec (rounds : Nat) (h : Invariant s r) :
    Invariant s (drainClasses memory s rounds r) ∧ Advanced r (drainClasses memory s rounds r) ∧
      (0 < rounds → r.classCursor < r.classQueue.length →
        r.classCursor < (drainClasses memory s rounds r).classCursor) ∧ (m < r.classCursor + rounds →
        (drainClasses memory s rounds r).classQueue.length ≤ (drainClasses memory s rounds r).classCursor) := by
  induction rounds generalizing r with
  | zero =>
    have short := h.classQueue_length
    have before := h.classCursor
    exact ⟨h, ⟨le_rfl, le_rfl⟩, fun none_left => absurd none_left (lt_irrefl 0), fun far => by omega⟩
  | succ rounds ih =>
    cases next : r.classQueue[r.classCursor]? with
    | none =>
      have code : drainClasses memory s (rounds + 1) r = r := by
        rw [drainClasses, next]
      rw [code]
      have past := List.getElem?_eq_none_iff.mp next
      exact ⟨h, ⟨le_rfl, le_rfl⟩, fun _ more => absurd more (not_lt.mpr past), fun _ => past⟩
    | some c =>
      have code : drainClasses memory s (rounds + 1) r =
          drainClasses memory s rounds (expandClass memory s { r with classCursor := r.classCursor + 1 } c) := by
        rw [drainClasses, next]
      obtain ⟨first, second⟩ := expandClass_cursors (s := s) memory
        { r with classCursor := r.classCursor + 1 } c
      dsimp only at first second
      obtain ⟨kept, advanced, -, finished⟩ := ih (h.expandClass memory next)
      rw [code]
      have further := advanced.classes
      rw [first] at further finished
      refine ⟨kept, ⟨by omega, ?_⟩, fun _ _ => by omega, fun far => finished (by omega)⟩
      exact second.symm.trans_le advanced.containers

/-- **The loop over the containers**, too. -/
theorem drainContainers_spec (rounds : Nat) (h : Invariant s r) :
    Invariant s (drainContainers memory s rounds r) ∧ Advanced r (drainContainers memory s rounds r) ∧
      (0 < rounds → r.containerCursor < r.containers.length →
        r.containerCursor < (drainContainers memory s rounds r).containerCursor) := by
  induction rounds generalizing r with
  | zero => exact ⟨h, ⟨le_rfl, le_rfl⟩, fun none_left => absurd none_left (lt_irrefl 0)⟩
  | succ rounds ih =>
    cases next : r.containers[r.containerCursor]? with
    | none =>
      have code : drainContainers memory s (rounds + 1) r = r := by
        rw [drainContainers, next]
      rw [code]
      have past := List.getElem?_eq_none_iff.mp next
      exact ⟨h, ⟨le_rfl, le_rfl⟩, fun _ more => absurd more (not_lt.mpr past)⟩
    | some a =>
      have code : drainContainers memory s (rounds + 1) r = drainContainers memory s rounds
            (expandContainer memory s { r with containerCursor := r.containerCursor + 1 } a) := by
        rw [drainContainers, next]
      obtain ⟨first, second⟩ := expandContainer_cursors (s := s) memory
        { r with containerCursor := r.containerCursor + 1 } a
      dsimp only at first second
      obtain ⟨kept, advanced, -⟩ := ih (h.expandContainer memory next)
      rw [code]
      have further := advanced.containers
      rw [second] at further
      exact ⟨kept, ⟨first.symm.trans_le advanced.classes, by omega⟩, fun _ _ => by omega⟩

/-- **The outer loop** ends with nothing left in the queues, or failed. -/
theorem drain_spec (rounds : Nat) (h : Invariant s r) (enough : n + m < r.classCursor + r.containerCursor + rounds) :
    Invariant s (drain memory s rounds r) ∧
      ((drain memory s rounds r).failed = true ∨ (drain memory s rounds r).Drained) := by
  induction rounds generalizing r with
  | zero =>
    have classes := h.classCursor.trans h.classQueue_length
    have containers := h.containerCursor.trans h.containers_length
    omega
  | succ rounds ih =>
    by_cases stops : r.failed = true ∨ r.Drained
    · have code : drain memory s (rounds + 1) r = r := if_pos stops
      rw [code]
      exact ⟨h, stops⟩
    · have code : drain memory s (rounds + 1) r = drain memory s rounds
          (drainContainers memory s (n + 1) (drainClasses memory s (m + 1) r)) := if_neg stops
      rw [code]
      obtain ⟨kept, advanced, further, -⟩ := drainClasses_spec memory (m + 1) h
      obtain ⟨kept', advanced', further'⟩ := drainContainers_spec memory (n + 1) kept
      apply ih kept'
      have containers := advanced.containers
      have classes' := advanced'.classes
      have containers' := advanced'.containers
      obtain ⟨-, undrained⟩ := not_or.mp stops
      by_cases more : r.classCursor < r.classQueue.length
      · have step := further (Nat.succ_pos m) more
        omega
      · have left : r.containerCursor < r.containers.length := by
          by_contra none_left
          exact undrained ⟨not_lt.mp more, not_lt.mp none_left⟩
        have same : drainClasses memory s (m + 1) r = r := by
          rw [drainClasses, getElem?_eq_none (not_lt.mp more)]
        rw [same] at further' ⊢
        rw [same] at classes' containers'
        omega

/-- **What is marked when `reachability_build` succeeds is what the roots lead to.** -/
theorem build_spec {granted : Bool} (built : reachabilityBuild memory s granted = some r) (x : Node n m) :
    r.Has x ↔ Led s.MarkedRoot s.Marks x := by
  have code : reachabilityBuild memory s granted = if s.classes ≠ [] ∧ granted = false then none
      else if (drain memory s (n + m + 1) (markRoots memory s)).failed then none
      else some (drain memory s (n + m + 1) (markRoots memory s)) := rfl
  rw [code] at built
  split at built
  · cases built
  · split at built
    · cases built
    · rename_i going
      obtain rfl := Option.some.inj built
      have going := Bool.eq_false_iff.mpr going
      obtain ⟨h, finished⟩ := drain_spec memory (n + m + 1) (invariant_roots s memory) (by omega)
      obtain ⟨classes, containers⟩ := finished.resolve_left (Bool.eq_false_iff.mp going)
      refine ⟨h.led x, fun led => led.mem_of_closed (h.roots going) ?_⟩
      intro y z has marks
      cases y with
      | ofClass c =>
        refine h.classes going c ?_ z marks
        rw [take_of_length_le classes]
        exact has
      | container a =>
        refine h.containers going a ?_ z marks
        rw [take_of_length_le containers]
        exact has

/-! ## Refusals -/

variable {memory}

/-- Marking has failed only where memory was refused for one more container. -/
structure Refusable (memory : Nat → Bool) (r : Reachability n m) : Prop where
  distinct : r.Distinct
  refused : r.failed = true → ∃ size ≤ max 16 (2 * n), memory size = false

theorem markValue_refused (h : Refusable memory r) (a : Fin n) (failed : (markValue memory r (some a)).failed = true) :
    ∃ size ≤ max 16 (2 * n), memory size = false := by
  have code : markValue memory r (some a) = if r.failed || r.containers.contains a then r
      else if r.containers.length = r.capacity then
        if memory (if r.capacity = 0 then 16 else r.capacity * 2) then
          { r with containers := r.containers ++ [a], capacity := if r.capacity = 0 then 16 else r.capacity * 2 }
        else { r with failed := true }
      else { r with containers := r.containers ++ [a] } := rfl
  have few := h.distinct.containers.length_le_card
  rw [Fintype.card_fin] at few
  have small : r.containers.length = r.capacity → (if r.capacity = 0 then 16 else r.capacity * 2) ≤ max 16 (2 * n) := by
    intro full
    split <;> omega
  rw [code] at failed
  generalize (if r.capacity = 0 then 16 else r.capacity * 2) = size at failed small
  split at failed
  · exact h.refused failed
  · split at failed
    · rename_i full
      split at failed
      · exact h.refused failed
      · rename_i refused
        exact ⟨size, small full, Bool.eq_false_iff.mpr refused⟩
    · exact h.refused failed

theorem Refusable.mark (h : Refusable memory r) (x : Node n m) : Refusable memory (mark s memory r x) := by
  refine ⟨(mark_marked s memory r x).distinct h.distinct, fun failed => ?_⟩
  cases x with
  | container a => exact markValue_refused h a failed
  | ofClass c =>
    apply h.refused
    simp only [UserClasses.mark, markClass] at failed
    split at failed
    · exact failed
    · exact failed

theorem Refusable.foldl (h : Refusable memory r) (xs : List (Node n m)) :
    Refusable memory (xs.foldl (UserClasses.mark s memory) r) := by
  induction xs generalizing r with
  | nil => exact h
  | cons x rest ih => exact ih (h.mark x)

theorem Refusable.drainClasses (h : Refusable memory r) (rounds : Nat) :
    Refusable memory (drainClasses memory s rounds r) := by
  induction rounds generalizing r with
  | zero => exact h
  | succ rounds ih =>
    unfold UserClasses.drainClasses
    split
    · exact h
    · rw [expandClass_eq]
      exact ih (.foldl (r := { r with classCursor := r.classCursor + 1 }) ⟨⟨h.1.1, h.1.2⟩, h.2⟩ _)

theorem Refusable.drainContainers (h : Refusable memory r) (rounds : Nat) :
    Refusable memory (drainContainers memory s rounds r) := by
  induction rounds generalizing r with
  | zero => exact h
  | succ rounds ih =>
    unfold UserClasses.drainContainers
    split
    · exact h
    · rw [expandContainer_eq]
      exact ih (.foldl (r := { r with containerCursor := r.containerCursor + 1 }) ⟨⟨h.1.1, h.1.2⟩, h.2⟩ _)

theorem Refusable.drain (h : Refusable memory r) (rounds : Nat) : Refusable memory (drain memory s rounds r) := by
  induction rounds generalizing r with
  | zero => exact h
  | succ rounds ih =>
    unfold UserClasses.drain
    split
    · exact h
    · exact ih ((h.drainClasses (m + 1)).drainContainers (n + 1))

/-- **Marking is exact**: from any state, `reachability_build` marks the classes and containers that the roots lead to
and no others, or it has been refused the arrays of the classes, or one that grows with the containers there are. -/
theorem reachability_exact (memory : Nat → Bool) (s : State n m) (granted : Bool) :
    (∃ r, reachabilityBuild memory s granted = some r ∧ ∀ x, r.Has x ↔ Led s.MarkedRoot s.Marks x) ∨
      reachabilityBuild memory s granted = none ∧
        (s.classes ≠ [] ∧ granted = false ∨ ∃ size ≤ max 16 (2 * n), memory size = false) := by
  cases built : reachabilityBuild memory s granted with
  | some r => exact .inl ⟨r, rfl, build_spec memory built⟩
  | none =>
    refine .inr ⟨rfl, ?_⟩
    have start : Refusable memory (⟨[], 0, [], 0, 0, false⟩ : Reachability n m) :=
      ⟨⟨nodup_nil, nodup_nil⟩, fun failed => absurd failed Bool.false_ne_true⟩
    have roots : Refusable memory (markRoots memory s) := by
      rw [markRoots_eq]
      exact start.foldl s.roots
    unfold reachabilityBuild at built
    dsimp only at built
    split at built
    · rename_i refused
      exact .inl refused
    · split at built
      · rename_i failed
        exact .inr ((roots.drain (n + m + 1)).refused failed)
      · cases built

end Marking

end PhpPico.UserClasses
