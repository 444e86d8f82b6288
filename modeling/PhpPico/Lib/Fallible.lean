import Mathlib.Data.List.Forall2
import Mathlib.Tactic.Common

/-!
# Computations that may fail

What a successful `bind`, `mapM` or `foldlM` in `Option` and `Except` says about its steps.
-/

namespace Fallible
open List

variable {ε α β σ : Type}

theorem bind_eq_ok {x : Except ε α} {f : α → Except ε β} {b : β} :
    (x >>= f) = .ok b ↔ ∃ a, x = .ok a ∧ f a = .ok b := by
  cases x with
  | error e => simp [bind, Except.bind]
  | ok a => simp [bind, Except.bind]

@[simp] theorem ok_bind (a : α) (f : α → Except ε β) : (Except.ok a >>= f) = f a := rfl

variable {l : List α} {r : List β} {f : σ → α → Option σ} {s t : σ} {a : α}

theorem mapM_eq_some {f : α → Option β} : l.mapM f = some r ↔ Forall₂ (fun a b => f a = some b) l r := by
  induction l generalizing r with
  | nil => cases r <;> simp [pure]
  | cons a l ih =>
    rw [mapM_cons]
    constructor
    · intro h
      obtain ⟨b, hb, h⟩ := Option.bind_eq_some_iff.mp h
      obtain ⟨bs, hbs, h⟩ := Option.bind_eq_some_iff.mp h
      cases Option.some.inj h
      exact .cons hb (ih.mp hbs)
    · intro h
      cases h with
      | cons hb hbs => rw [hb, ih.mpr hbs]; rfl

theorem mapM_eq_ok {f : α → Except ε β} : l.mapM f = .ok r ↔ Forall₂ (fun a b => f a = .ok b) l r := by
  induction l generalizing r with
  | nil => cases r <;> simp [pure, Except.pure]
  | cons a l ih =>
    rw [mapM_cons]
    constructor
    · intro h
      obtain ⟨b, hb, h⟩ := bind_eq_ok.mp h
      obtain ⟨bs, hbs, h⟩ := bind_eq_ok.mp h
      cases Except.ok.inj h
      exact .cons hb (ih.mp hbs)
    · intro h
      cases h with
      | cons hb hbs => rw [hb, ok_bind, ih.mpr hbs]; rfl

/-- Mapping over indices succeeds with `r` when every element's step gives the element of `r`. -/
theorem range_mapM_ok {f : Nat → Except ε β} {n : Nat} (length : r.length = n)
    (step : ∀ i b, r[i]? = some b → f i = .ok b) : (List.range n).mapM f = .ok r := by
  rw [mapM_eq_ok, forall₂_iff_get]
  refine ⟨by simp [length], fun i _ hi => ?_⟩
  simp only [get_eq_getElem, getElem_range]
  exact step i _ (getElem?_eq_getElem hi)

/-- Mapping over the elements with their indices is mapping over the indices. -/
theorem zipIdx_mapM {f : Nat → Except ε β} {g : α × Nat → Except ε β} {k : Nat}
    (step : ∀ i a, l[i]? = some a → f (k + i) = g (a, k + i)) :
    (List.range' k l.length).mapM f = (l.zipIdx k).mapM g := by
  induction l generalizing k with
  | nil => rfl
  | cons a l ih =>
    have head := step 0 a rfl
    have tail : ∀ i b, l[i]? = some b → f (k + 1 + i) = g (b, k + 1 + i) := by
      intro i b h
      have := step (i + 1) b (by simpa using h)
      rwa [show k + (i + 1) = k + 1 + i by omega] at this
    rw [length_cons, range'_succ, zipIdx_cons, mapM_cons, mapM_cons, ih tail]
    simp only [Nat.add_zero] at head
    rw [head]

/-- What holds of the elements with their indices holds of the elements. -/
theorem forall₂_zipIdx {P : α × Nat → β → Prop} {R : α → β → Prop} {k : Nat} (h : Forall₂ P (l.zipIdx k) r)
    (imp : ∀ a i b, P (a, i) b → R a b) : Forall₂ R l r := by
  induction l generalizing k r with
  | nil => cases h; exact .nil
  | cons a l ih =>
    rw [zipIdx_cons] at h
    cases h with
    | cons head tail => exact .cons (imp _ _ _ head) (ih tail)

theorem foldlM_some_cons : (a :: l).foldlM f s = some t ↔ ∃ s', f s a = some s' ∧ l.foldlM f s' = some t := by
  rw [foldlM_cons]
  exact Option.bind_eq_some_iff

/-- An invariant of the steps holds at the end of the fold. -/
theorem foldlM_invariant {P : σ → Prop} (step : ∀ s a s', P s → f s a = some s' → P s') (start : P s)
    (run : l.foldlM f s = some t) : P t := by
  induction l generalizing s with
  | nil => cases Option.some.inj run; exact start
  | cons a l ih =>
    obtain ⟨s', h, run⟩ := foldlM_some_cons.mp run
    exact ih (step s a s' start h) run

/-- A fold that succeeds steps at every element. -/
theorem foldlM_some_mem (run : l.foldlM f s = some t) (mem : a ∈ l) : ∃ before after, f before a = some after := by
  induction l generalizing s with
  | nil => cases mem
  | cons b l ih =>
    obtain ⟨s', h, run⟩ := foldlM_some_cons.mp run
    rcases mem_cons.mp mem with rfl | mem
    · exact ⟨s, s', h⟩
    · exact ih run mem

theorem foldlM_ok_cons {f : σ → α → Except ε σ} :
    (a :: l).foldlM f s = .ok t ↔ ∃ s', f s a = .ok s' ∧ l.foldlM f s' = .ok t := by
  rw [foldlM_cons]
  exact bind_eq_ok

end Fallible
