import Mathlib.Logic.Relation

/-!
# What roots lead to

Reachability along a relation, for programs that mark what is in use: a marked set is what the roots lead to as soon
as it is closed. Where only some of the steps are followed, a path goes on along these or leaves them.
-/

namespace Reaching
open Relation

variable {α : Type} {roots : α → Prop} {step inner hidden : α → α → Prop} {x y z : α}

/-- Some root leads to it. -/
def Led (roots : α → Prop) (step : α → α → Prop) (z : α) : Prop := ∃ r, roots r ∧ ReflTransGen step r z

theorem led_root (h : roots x) : Led roots step x := ⟨x, h, .refl⟩

theorem Led.next (h : Led roots step x) (one : step x y) : Led roots step y := by
  obtain ⟨r, root, path⟩ := h
  exact ⟨r, root, path.tail one⟩

theorem Led.follow (h : Led roots step x) (path : ReflTransGen step x y) : Led roots step y := by
  obtain ⟨r, root, before⟩ := h
  exact ⟨r, root, before.trans path⟩

/-- **A closed set that has the roots has all they lead to.** -/
theorem Led.mem_of_closed (h : Led roots step x) {marked : α → Prop} (has_roots : ∀ r, roots r → marked r)
    (closed : ∀ x y, marked x → step x y → marked y) : marked x := by
  obtain ⟨r, root, path⟩ := h
  induction path with
  | refl => exact has_roots r root
  | tail _ one ih => exact closed _ _ ih one

/-- **A path goes on along the inner steps, or it leaves them over a hidden one.** -/
theorem path_leaves (split : ∀ x y, step x y → inner x y ∨ hidden x y) (path : ReflTransGen step x z) :
    ReflTransGen inner x z ∨ ∃ u v, ReflTransGen inner x u ∧ hidden u v ∧ ReflTransGen step v z := by
  induction path with
  | refl => exact .inl .refl
  | tail before one ih =>
    rcases ih with inside | ⟨u, v, inside, leaves, rest⟩
    · rcases split _ _ one with goes_on | leaves
      · exact .inl (inside.tail goes_on)
      · exact .inr ⟨_, _, inside, leaves, .refl⟩
    · exact .inr ⟨u, v, inside, leaves, rest.tail one⟩

end Reaching
