import Mathlib.Data.Set.Finite.Lattice
import Mathlib.Order.WellFounded
import Mathlib.Order.Bounds.Basic
import Mathlib.Order.Interval.Finset.Nat
import Mathlib.Logic.Relation
import Mathlib.Tactic.Common

/-!
# Things that are spent and beget others

Each thing is spent once at most, and was there at the beginning or was begotten by a thing that is spent. Where each
begets finitely many and no chain of begetting is endless, the spending ceases.
-/

namespace Offspring

open Relation (ReflTransGen)

variable {α : Type}

/-- An endless run, seen from the things that are spent in it. -/
structure Process (α : Type) where
  spends : Nat → α → Prop
  begets : α → α → Prop
  founders : Set α
  once : ∀ m n a, spends m a → spends n a → m = n
  first : founders.Finite
  source : ∀ n a, spends n a → a ∈ founders ∨ ∃ m p, spends m p ∧ begets p a
  few : ∀ a, {b | begets a b}.Finite
  older : WellFounded begets

/-- No thing begets one that begets one, and so on without end. -/
def EndsEvery (begets : α → α → Prop) : Prop := WellFounded fun b a => begets a b

section Descendants
variable {begets : α → α → Prop}

theorem descendants_finite (ends : EndsEvery begets) (few : ∀ a, {b | begets a b}.Finite) (a : α) :
    {b | ReflTransGen begets a b}.Finite := by
  induction a using ends.induction with
  | _ a ih =>
    have split : {b | ReflTransGen begets a b} = {a} ∪ ⋃ c ∈ {c | begets a c}, {b | ReflTransGen begets c b} := by
      ext b
      simp only [Set.mem_ofPred_eq, Set.singleton_union, Set.mem_insert_iff, Set.mem_iUnion, exists_prop]
      rw [ReflTransGen.cases_head_iff, eq_comm]
    rw [split]
    exact (Set.finite_singleton a).union ((few a).biUnion ih)

end Descendants

namespace Process
variable (p : Process α)

theorem descends {n : Nat} {a : α} (spent : p.spends n a) : ∃ f ∈ p.founders, ReflTransGen p.begets f a := by
  induction a using p.older.induction generalizing n with
  | _ a ih =>
    rcases p.source n a spent with founder | ⟨m, parent, spent, begets⟩
    · exact ⟨a, founder, .refl⟩
    · obtain ⟨f, founder, path⟩ := ih parent begets spent
      exact ⟨f, founder, path.tail begets⟩

theorem spent_finite (ends : EndsEvery p.begets) : {a | ∃ n, p.spends n a}.Finite := by
  have all : (⋃ f ∈ p.founders, {b | ReflTransGen p.begets f b}).Finite :=
    p.first.biUnion fun f _ => descendants_finite ends p.few f
  refine all.subset fun a ⟨n, spent⟩ => ?_
  obtain ⟨f, founder, path⟩ := p.descends spent
  exact Set.mem_biUnion founder path

/-- **The spending ceases**. -/
theorem ceases (ends : EndsEvery p.begets) : ∃ N, ∀ n ≥ N, ∀ a, ¬ p.spends n a := by
  have times : {n | ∃ a, p.spends n a} = ⋃ a ∈ {a | ∃ n, p.spends n a}, {n | p.spends n a} := by
    ext n
    simp only [Set.mem_ofPred_eq, Set.mem_iUnion, exists_prop]
    exact ⟨fun ⟨a, spent⟩ => ⟨a, ⟨n, spent⟩, spent⟩, fun ⟨a, _, spent⟩ => ⟨a, spent⟩⟩
  have finite : {n | ∃ a, p.spends n a}.Finite := by
    rw [times]
    refine (p.spent_finite ends).biUnion fun a _ => Set.Subsingleton.finite ?_
    exact fun m hm n hn => p.once m n a hm hn
  obtain ⟨N, bound⟩ := finite.bddAbove
  refine ⟨N + 1, fun n late a spent => ?_⟩
  have := bound ⟨a, spent⟩
  omega

end Process

/-- A measure that goes down from some time on does not do so for ever. -/
theorem not_falling {β : Type} {r : β → β → Prop} (wf : WellFounded r) (x : Nat → β) (N : Nat) :
    ¬ ∀ n ≥ N, r (x (n + 1)) (x n) := by
  intro falls
  refine (wellFounded_iff_isEmpty_descending_chain.mp wf).false ⟨fun n => x (N + n), fun n => ?_⟩
  exact falls (N + n) (Nat.le_add_right N n)

end Offspring
