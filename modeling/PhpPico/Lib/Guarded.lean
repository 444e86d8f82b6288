import Mathlib.Order.Basic
import Mathlib.Tactic.Common

/-!
# Guarded routines

A routine acts on a state; `none` is a write outside the memory it may write. Safe routines always end. A limit is a
guard that notes a failure; limited routines are safe, and do the same with wider limits unless they note one.
-/

namespace Guarded

/-- A routine on states `σ`. -/
abbrev Routine (σ α : Type) := StateT σ Option α

variable {σ α β : Type} {P P' : σ → Prop} {Q Q' : α → σ → Prop} {R : β → σ → Prop}
  {m m' : Routine σ α} {f : α → Routine σ β}

/-! ## Safety -/

/-- From all states of `P` the routine ends, and its result is as `Q` says. -/
def Safe (P : σ → Prop) (m : Routine σ α) (Q : α → σ → Prop) : Prop :=
  ∀ s, P s → ∃ a s', m.run s = some (a, s') ∧ Q a s'

namespace Safe

theorem pure {a : α} (h : ∀ s, P s → Q a s) : Safe P (pure a) Q :=
  fun s hs => ⟨a, s, rfl, h s hs⟩

theorem bind (hm : Safe P m Q) (hf : ∀ a, Safe (Q a) (f a) R) : Safe P (m >>= f) R := by
  intro s hs
  obtain ⟨a, s₁, ran, h₁⟩ := hm s hs
  obtain ⟨b, s₂, ran', h₂⟩ := hf a s₁ h₁
  refine ⟨b, s₂, ?_, h₂⟩
  rw [StateT.run_bind, ran]
  exact ran'

theorem weaken (hm : Safe P m Q) (pre : ∀ s, P' s → P s) (post : ∀ a s, Q a s → Q' a s) : Safe P' m Q' := by
  intro s hs
  obtain ⟨a, s', ran, h⟩ := hm s (pre s hs)
  exact ⟨a, s', ran, post a s' h⟩

/-- The state is read first. -/
theorem get_bind {g : σ → Routine σ β} (h : ∀ s, P s → Safe (· = s) (g s) R) : Safe P (get >>= g) R := by
  intro s hs
  obtain ⟨b, s', ran, hb⟩ := h s hs s rfl
  exact ⟨b, s', ran, hb⟩

theorem modify {g : σ → σ} {Q : PUnit → σ → Prop} (h : ∀ s, P s → Q ⟨⟩ (g s)) : Safe P (modify g) Q :=
  fun s hs => ⟨⟨⟩, g s, rfl, h s hs⟩

theorem ite {c : Prop} [Decidable c] (ht : c → Safe P m Q) (he : ¬ c → Safe P m' Q) :
    Safe P (if c then m else m') Q := by
  split
  · next h => exact ht h
  · next h => exact he h

end Safe

/-! ## Limits -/

variable {L : Type} {wider : L → L → Prop} {failed : σ → Prop} {l : L} {r r' : L → Routine σ α}
  {g : L → α → Routine σ β}

/-- With the limits `l` the routine is safe; failures stay, and without one it does the same with all wider
limits. -/
def Limited (wider : L → L → Prop) (failed : σ → Prop) (l : L) (P : σ → Prop) (r : L → Routine σ α)
    (Q : α → σ → Prop) : Prop :=
  ∀ s, P s → ∃ a s', (r l).run s = some (a, s') ∧ Q a s' ∧ (failed s → failed s') ∧
    (failed s' ∨ ∀ l', wider l l' → (r l').run s = some (a, s'))

namespace Limited

theorem safe (h : Limited wider failed l P r Q) : Safe P (r l) Q := by
  intro s hs
  obtain ⟨a, s', ran, post, -⟩ := h s hs
  exact ⟨a, s', ran, post⟩

theorem pure {a : α} (h : ∀ s, P s → Q a s) : Limited wider failed l P (fun _ => pure a) Q :=
  fun s hs => ⟨a, s, rfl, h s hs, id, .inr fun _ _ => rfl⟩

theorem bind (hr : Limited wider failed l P r Q) (hg : ∀ a, Limited wider failed l (Q a) (g · a) R) :
    Limited wider failed l P (fun l => r l >>= g l) R := by
  intro s hs
  obtain ⟨a, s₁, ran₁, h₁, sticky₁, same₁⟩ := hr s hs
  obtain ⟨b, s₂, ran₂, h₂, sticky₂, same₂⟩ := hg a s₁ h₁
  refine ⟨b, s₂, ?_, h₂, fun h => sticky₂ (sticky₁ h), ?_⟩
  · rw [StateT.run_bind, ran₁]
    exact ran₂
  rcases same₁ with failed₁ | same₁
  · exact .inl (sticky₂ failed₁)
  rcases same₂ with failed₂ | same₂
  · exact .inl failed₂
  · refine .inr fun l' wide => ?_
    rw [StateT.run_bind, same₁ l' wide]
    exact same₂ l' wide

theorem weaken (hr : Limited wider failed l P r Q) (pre : ∀ s, P' s → P s) (post : ∀ a s, Q a s → Q' a s) :
    Limited wider failed l P' r Q' := by
  intro s hs
  obtain ⟨a, s', ran, h, rest⟩ := hr s (pre s hs)
  exact ⟨a, s', ran, post a s' h, rest⟩

theorem of_fact {fact : Prop} (h : fact → Limited wider failed l P r Q) :
    Limited wider failed l (fun s => P s ∧ fact) r Q :=
  fun s hs => h hs.2 s hs.1

/-- The state is read first. -/
theorem get_bind {g : L → σ → Routine σ β} (h : ∀ s, P s → Limited wider failed l (· = s) (g · s) R) :
    Limited wider failed l P (fun l => get >>= g l) R := by
  intro s hs
  obtain ⟨b, s', ran, rest⟩ := h s hs s rfl
  exact ⟨b, s', ran, rest⟩

theorem modify {g : σ → σ} {Q : PUnit → σ → Prop} (h : ∀ s, P s → Q ⟨⟩ (g s)) (sticky : ∀ s, failed s → failed (g s)) :
    Limited wider failed l P (fun _ => modify g) Q :=
  fun s hs => ⟨⟨⟩, g s, rfl, h s hs, sticky s, .inr fun _ _ => rfl⟩

theorem ite {c : Prop} [Decidable c] (ht : c → Limited wider failed l P r Q)
    (he : ¬ c → Limited wider failed l P r' Q) : Limited wider failed l P (fun l => if c then r l else r' l) Q := by
  split
  · next h => exact ht h
  · next h => exact he h

theorem limit {c : L → Prop} [∀ l, Decidable (c l)] {fail : Routine σ α} (strict : ∀ l', wider l l' → c l' → c l)
    (fails : Safe P fail fun a s => Q a s ∧ failed s) (h : ¬ c l → Limited wider failed l P r Q) :
    Limited wider failed l P (fun l => if c l then fail else r l) Q := by
  intro s hs
  by_cases reached : c l
  · obtain ⟨a, s', ran, post, fails⟩ := fails s hs
    refine ⟨a, s', ?_, post, fun _ => fails, .inl fails⟩
    show (if c l then fail else r l).run s = _
    rw [if_pos reached, ran]
  · obtain ⟨a, s', ran, post, sticky, same⟩ := h reached s hs
    refine ⟨a, s', ?_, post, sticky, same.imp_right fun same l' wide => ?_⟩
    · show (if c l then fail else r l).run s = _
      rw [if_neg reached, ran]
    · show (if c l' then fail else r l').run s = _
      rw [if_neg fun reached' => reached (strict l' wide reached'), same l' wide]

theorem forM {xs : List β} {g : L → β → Routine σ PUnit}
    (h : ∀ b ∈ xs, Limited wider failed l P (g · b) fun _ s => P s) :
    Limited wider failed l P (fun l => xs.forM (g l)) fun _ s => P s := by
  induction xs with
  | nil => exact pure fun s hs => hs
  | cons b xs ih =>
    have rest : ∀ b' ∈ xs, Limited wider failed l P (g · b') fun _ s => P s :=
      fun b' listed => h b' (List.mem_cons_of_mem b listed)
    exact bind (h b (.head _)) fun _ => ih rest

end Limited
end Guarded
