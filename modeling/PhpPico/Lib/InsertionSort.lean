import Mathlib.Data.List.Perm.Basic
import Mathlib.Tactic.Common

/-!
# Sorting by insertion with comparisons that can fail

Each element is put into the sorted ones before it, compared with it from the last one on. A comparison may fail, and
may answer differently every time: it is given the number of comparisons before.
-/

namespace InsertionSort
open List

variable {E F : Type}

/-- What a comparison answers, by its number: negative, zero or positive, or a failure. -/
abbrev Comparison (E F : Type) := Nat → E → E → Except F Int

/-- Where an element goes: which of the sorted ones have been passed, and which not. The sorted ones stand with the
last one first. -/
inductive Place (E F : Type) where
  | found (calls : Nat) (passed kept : List E)
  | failed (failure : F) (passed kept : List E)

/-- One more element has been passed before. -/
def Place.pass (x : E) : Place E F → Place E F
  | .found calls passed kept => .found calls (x :: passed) kept
  | .failed failure passed kept => .failed failure (x :: passed) kept

/-- Look for the place of `current` among the sorted elements. -/
def place (compare : Comparison E F) (current : E) : Nat → List E → Place E F
  | calls, [] => .found calls [] []
  | calls, x :: rest =>
    match compare calls x current with
    | .error failure => .failed failure [] (x :: rest)
    | .ok answer =>
      if answer ≤ 0 then .found (calls + 1) [] (x :: rest) else (place compare current (calls + 1) rest).pass x

/-- The sorted elements, the last one first; or how far a failed search for a place had got. -/
inductive Outcome (E F : Type) where
  | sorted (elements : List E)
  | failed (failure : F) (passed kept : List E) (current : E) (todo : List E)

/-- Put the elements into the sorted ones, one after another. -/
def insertAll (compare : Comparison E F) : Nat → List E → List E → Outcome E F
  | _, done, [] => .sorted done
  | calls, done, current :: todo =>
    match place compare current calls done with
    | .found calls passed kept => insertAll compare calls (passed ++ current :: kept) todo
    | .failed failure passed kept => .failed failure passed kept current todo

theorem place_parts (compare : Comparison E F) (current : E) (calls : Nat) (done : List E) :
    (∀ n passed kept, place compare current calls done = .found n passed kept → done = passed ++ kept) ∧
      ∀ failure passed kept, place compare current calls done = .failed failure passed kept →
        done = passed ++ kept := by
  induction done generalizing calls with
  | nil =>
    refine ⟨fun n passed kept found => ?_, fun failure passed kept failed => ?_⟩
    · cases found
      rfl
    · cases failed
  | cons x rest ih =>
    rw [place]
    cases compare calls x current with
    | error failure =>
      refine ⟨fun n passed kept found => ?_, fun failure passed kept failed => ?_⟩
      · cases found
      · cases failed
        rfl
    | ok answer =>
      dsimp only
      split
      · refine ⟨fun n passed kept found => ?_, fun failure passed kept failed => ?_⟩
        · cases found
          rfl
        · cases failed
      · obtain ⟨founds, fails⟩ := ih (calls + 1)
        cases next : place compare current (calls + 1) rest with
        | found n passed kept =>
          refine ⟨fun n' passed' kept' found => ?_, fun failure' passed' kept' failed => ?_⟩
          · cases found
            rw [founds n passed kept next]
            rfl
          · cases failed
        | failed failure passed kept =>
          refine ⟨fun n' passed' kept' found => ?_, fun failure' passed' kept' failed => ?_⟩
          · cases found
          · cases failed
            rw [fails failure passed kept next]
            rfl

theorem found_perm (current : E) (todo : List E) {done passed kept : List E} (parts : done = passed ++ kept) :
    (passed ++ current :: kept ++ todo).Perm (done ++ current :: todo) := by
  rw [parts]
  have moved : (passed ++ current :: kept).Perm (current :: (passed ++ kept)) := perm_middle
  exact (moved.append_right todo).trans perm_middle.symm

/-- **Nothing is lost and nothing doubled**, whatever the comparisons answer. -/
theorem insertAll_perm (compare : Comparison E F) {calls : Nat} {done todo sorted : List E}
    (all : insertAll compare calls done todo = .sorted sorted) : sorted.Perm (done ++ todo) := by
  induction todo generalizing calls done with
  | nil =>
    cases all
    rw [append_nil]
  | cons current todo ih =>
    rw [insertAll] at all
    cases found : place compare current calls done with
    | found n passed kept =>
      rw [found] at all
      exact (ih all).trans (found_perm current todo ((place_parts compare current calls done).1 n passed kept found))
    | failed failure passed kept =>
      rw [found] at all
      cases all

/-- What a search that fails has got to is all there was. -/
theorem insertAll_failed (compare : Comparison E F) {calls : Nat} {done todo passed kept todo' : List E} {current : E}
    {failure : F} (all : insertAll compare calls done todo = .failed failure passed kept current todo') :
    (passed ++ (kept ++ current :: todo')).Perm (done ++ todo) := by
  induction todo generalizing calls done with
  | nil => cases all
  | cons element todo ih =>
    rw [insertAll] at all
    cases found : place compare element calls done with
    | found n passed' kept' =>
      rw [found] at all
      exact (ih all).trans (found_perm element todo ((place_parts compare element calls done).1 n passed' kept' found))
    | failed failure' passed' kept' =>
      rw [found] at all
      cases all
      rw [(place_parts compare current calls done).2 failure passed kept found, append_assoc]

/-! ## Comparisons that always answer the same -/

/-- The comparison answers `answer` on the elements of a list. -/
def Answers (compare : Comparison E F) (answer : E → E → Int) (elements : List E) : Prop :=
  ∀ n, ∀ x ∈ elements, ∀ y ∈ elements, compare n x y = .ok (answer x y)

section Answers
variable {compare : Comparison E F} {answer : E → E → Int}

theorem Answers.of_perm {elements elements' : List E} (h : Answers compare answer elements)
    (perm : elements'.Perm elements) : Answers compare answer elements' :=
  fun n x listed y listed' => h n x (perm.subset listed) y (perm.subset listed')

/-- An element passes those that are greater, and stops at one that is not. -/
theorem place_answers (current : E) (done : List E) (calls : Nat)
    (answers : ∀ n, ∀ x ∈ done, compare n x current = .ok (answer x current)) :
    ∃ n passed kept, place compare current calls done = .found n passed kept ∧ done = passed ++ kept ∧
      (∀ x ∈ passed, 0 < answer x current) ∧ ∀ x, kept.head? = some x → answer x current ≤ 0 := by
  induction done generalizing calls with
  | nil =>
    exact ⟨calls, [], [], rfl, rfl, fun x listed => absurd listed not_mem_nil, fun x none_there => by cases none_there⟩
  | cons x rest ih =>
    rw [place, answers calls x mem_cons_self]
    dsimp only
    by_cases stops : answer x current ≤ 0
    · rw [if_pos stops]
      refine ⟨_, [], x :: rest, rfl, rfl, fun x listed => absurd listed not_mem_nil, fun x' head => ?_⟩
      obtain rfl : x = x' := Option.some.inj head
      exact stops
    · obtain ⟨n, passed, kept, found, parts, greater, stop⟩ :=
        ih (calls + 1) fun n x' listed => answers n x' (mem_cons_of_mem x listed)
      rw [if_neg stops, found, parts]
      refine ⟨n, x :: passed, kept, rfl, rfl, fun x' listed => ?_, stop⟩
      rcases mem_cons.mp listed with rfl | later
      · exact Int.not_le.mp stops
      · exact greater x' later

/-- A pair of elements, one somewhere before the other. -/
theorem pair_append {x y : E} {l l' : List E} :
    [x, y].Sublist (l ++ l') ↔ [x, y].Sublist l ∨ x ∈ l ∧ y ∈ l' ∨ [x, y].Sublist l' := by
  constructor
  · intro pair
    obtain ⟨a, b, split, left, right⟩ := sublist_append_iff.mp pair
    rcases a with _ | ⟨x', _ | ⟨y', more⟩⟩
    · obtain rfl : [x, y] = b := split
      exact .inr (.inr right)
    · obtain ⟨rfl, rfl⟩ : x = x' ∧ [y] = b := cons.inj split
      exact .inr (.inl ⟨singleton_sublist.mp left, singleton_sublist.mp right⟩)
    · have whole : x = x' ∧ y = y' ∧ [] = more ++ b :=
        ⟨(cons.inj split).1, (cons.inj (cons.inj split).2).1, (cons.inj (cons.inj split).2).2⟩
      obtain ⟨rfl, rfl, none_left⟩ := whole
      obtain ⟨rfl, rfl⟩ := append_eq_nil_iff.mp none_left.symm
      exact .inl left
  · rintro (left | ⟨left, right⟩ | right)
    · exact left.trans (sublist_append_left l l')
    · exact (singleton_sublist.mpr left).append (singleton_sublist.mpr right)
    · exact right.trans (sublist_append_right l l')

/-- **Elements that need not change places do not**: one that is not greater than a later one stays before it. -/
theorem insertAll_stable {calls : Nat} {done todo sorted : List E} (answers : Answers compare answer (done ++ todo))
    (all : insertAll compare calls done todo = .sorted sorted) {x y : E} (order : answer x y ≤ 0)
    (before : [x, y].Sublist (done.reverse ++ todo)) : [x, y].Sublist sorted.reverse := by
  induction todo generalizing calls done with
  | nil =>
    cases all
    rwa [append_nil] at before
  | cons current todo ih =>
    obtain ⟨n, passed, kept, found, parts, greater, -⟩ := place_answers current done calls
      fun n x listed => answers n x (mem_append_left _ listed) current
        (mem_append_right _ (.head _))
    rw [insertAll, found] at all
    have moved := found_perm current todo parts
    have answers' := answers.of_perm moved
    refine ih answers' all ?_
    -- only the elements passed and the one that passes them change places
    rw [parts] at before
    simp only [reverse_append, reverse_cons, append_assoc, singleton_append] at before ⊢
    have other : ¬ (x ∈ passed.reverse ∧ y = current) := by
      rintro ⟨listed, rfl⟩
      exact absurd order (Int.not_le.mpr (greater x (mem_reverse.mp listed)))
    simp only [pair_append, mem_append, mem_cons, ← singleton_append (l := todo)] at before ⊢
    have single : ¬ [x, y].Sublist [current] := by
      intro pair
      have := pair.length_le
      simp at this
    simp only [single, false_or, not_mem_nil, or_false] at before ⊢
    tauto

/-- The comparison is a total preorder on the elements of a list. -/
structure TotalPreorder (answer : E → E → Int) (elements : List E) : Prop where
  total : ∀ x ∈ elements, ∀ y ∈ elements, answer x y ≤ 0 ∨ answer y x ≤ 0
  trans : ∀ x ∈ elements, ∀ y ∈ elements, ∀ z ∈ elements, answer x y ≤ 0 → answer y z ≤ 0 → answer x z ≤ 0

/-- **The result is in order** where the comparison is a total preorder. -/
theorem insertAll_ordered {calls : Nat} {done todo sorted : List E} (answers : Answers compare answer (done ++ todo))
    (preorder : TotalPreorder answer (done ++ todo)) (ordered : done.Pairwise fun y x => answer x y ≤ 0)
    (all : insertAll compare calls done todo = .sorted sorted) : sorted.Pairwise fun y x => answer x y ≤ 0 := by
  induction todo generalizing calls done with
  | nil =>
    cases all
    exact ordered
  | cons current todo ih =>
    obtain ⟨n, passed, kept, found, parts, greater, stop⟩ := place_answers current done calls
      fun n x listed => answers n x (mem_append_left _ listed) current
        (mem_append_right _ (.head _))
    rw [insertAll, found] at all
    have moved := found_perm current todo parts
    have answers' := answers.of_perm moved
    have preorder' : TotalPreorder answer (passed ++ current :: kept ++ todo) :=
      ⟨fun x listed y listed' => preorder.total x (moved.subset listed) y (moved.subset listed'),
        fun x listed y listed' z listed'' =>
          preorder.trans x (moved.subset listed) y (moved.subset listed') z (moved.subset listed'')⟩
    refine ih answers' preorder' ?_ all
    have here : current ∈ done ++ current :: todo := mem_append_right _ (.head _)
    have listed : ∀ x ∈ done, x ∈ done ++ current :: todo := fun x there => mem_append_left _ there
    rw [parts, pairwise_append] at ordered
    obtain ⟨orderedPassed, orderedKept, across⟩ := ordered
    -- the first element kept is not greater, and so none of them is
    have below : ∀ x ∈ kept, answer x current ≤ 0 := by
      cases kept with
      | nil => exact fun x there => absurd there not_mem_nil
      | cons first rest =>
        intro x there
        have firstBelow := stop first rfl
        rcases mem_cons.mp there with rfl | later
        · exact firstBelow
        · have order := (pairwise_cons.mp orderedKept).1 x later
          have member : ∀ z ∈ first :: rest, z ∈ done ++ current :: todo :=
            fun z there' => listed z (parts ▸ mem_append_right _ there')
          exact preorder.trans x (member x there) first (member first (.head _)) current here order firstBelow
    have above : ∀ x ∈ passed, answer current x ≤ 0 := by
      intro x there
      have member : x ∈ done ++ current :: todo := listed x (parts ▸ mem_append_left _ there)
      rcases preorder.total x member current here with le | le
      · exact absurd le (Int.not_le.mpr (greater x there))
      · exact le
    rw [pairwise_append, pairwise_cons]
    refine ⟨orderedPassed, ⟨below, orderedKept⟩, fun x there y there' => ?_⟩
    rcases mem_cons.mp there' with rfl | later
    · exact above x there
    · exact across x there y later

end Answers

end InsertionSort
