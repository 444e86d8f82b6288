import Mathlib.Data.List.Infix
import Mathlib.Tactic.Common

/-!
# Scanners

A scanner takes a part from the front of a text. A greedy one takes as much as it can: of a prefix of a text all, or
what it takes of the whole text. So what a sequence of them takes of a prefix is a prefix.
-/

namespace Scanning
open List

variable {α : Type}

/-- A scanner; what it takes and what it leaves make up the text. -/
structure Scanner (α : Type) where
  taken : List α → List α
  rest : List α → List α
  splits : ∀ text, taken text ++ rest text = text

namespace Scanner

@[simp] theorem taken_nil (s : Scanner α) : s.taken [] = [] := (append_eq_nil_iff.mp (s.splits [])).1

@[simp] theorem rest_nil (s : Scanner α) : s.rest [] = [] := (append_eq_nil_iff.mp (s.splits [])).2

theorem taken_of_rest_nil (s : Scanner α) {text : List α} (all : s.rest text = []) : s.taken text = text := by
  have whole := s.splits text
  rwa [all, append_nil] at whole

theorem rest_of_taken_nil (s : Scanner α) {text : List α} (nothing : s.taken text = []) : s.rest text = text := by
  have whole := s.splits text
  rwa [nothing, nil_append] at whole

theorem prefix_of_rest (s : Scanner α) {text y : List α} (front : y <+: s.rest text) : s.taken text ++ y <+: text := by
  obtain ⟨z, whole⟩ := front
  exact ⟨z, by rw [append_assoc, whole, s.splits]⟩

theorem rest_of_taken (s : Scanner α) {front y : List α} (same : s.taken (front ++ y) = front) :
    s.rest (front ++ y) = y := by
  have whole := s.splits (front ++ y)
  rw [same] at whole
  exact append_cancel_left whole

/-- Of a prefix a scanner takes a prefix of what it takes of the text, and it takes the same again of
what it has taken. -/
structure Stable (s : Scanner α) : Prop where
  mono : ∀ {q text}, q <+: text → s.taken q <+: s.taken text
  again : ∀ {text y}, y <+: s.rest text → s.taken (s.taken text ++ y) = s.taken text

/-- A scanner takes as much as it can. -/
structure Greedy (s : Scanner α) : Prop where
  mono : ∀ {q text}, q <+: text → s.taken q <+: s.taken text
  goes_on : ∀ {q text}, q <+: text → s.rest q = [] ∨ s.taken q = s.taken text ∧ s.rest q <+: s.rest text

theorem Greedy.stable {s : Scanner α} (h : s.Greedy) : s.Stable where
  mono := h.mono
  again := by
    intro text y front
    have within := s.prefix_of_rest front
    rcases h.goes_on within with all | ⟨same, -⟩
    · have whole := s.taken_of_rest_nil all
      have bound := (h.mono within).length_le
      rw [whole, length_append] at bound
      have empty : y = [] := length_eq_zero_iff.mp (by omega)
      rw [whole, empty, append_nil]
    · exact same

theorem Stable.rest_again {s : Scanner α} (h : s.Stable) {text y : List α} (front : y <+: s.rest text) :
    s.rest (s.taken text ++ y) = y :=
  s.rest_of_taken (h.again front)

/-! ## One scanner after another -/

/-- One scanner, and another one on what is left. -/
def andThen (s s' : Scanner α) : Scanner α where
  taken text := s.taken text ++ s'.taken (s.rest text)
  rest text := s'.rest (s.rest text)
  splits text := by rw [append_assoc, s'.splits, s.splits]

theorem Greedy.mono_andThen {s s' : Scanner α} (h : s.Greedy)
    (mono : ∀ {q text}, q <+: text → s'.taken q <+: s'.taken text) {q text : List α} (front : q <+: text) : (s.andThen s').taken q <+: (s.andThen s').taken text := by
  rcases h.goes_on front with all | ⟨same, rests⟩
  · have exhausted : (s.andThen s').taken q = s.taken q := by
      change s.taken q ++ s'.taken (s.rest q) = _
      rw [all, taken_nil, append_nil]
    rw [exhausted]
    exact (h.mono front).trans (prefix_append _ _)
  · change s.taken q ++ s'.taken (s.rest q) <+: s.taken text ++ s'.taken (s.rest text)
    rw [same, prefix_append_right_inj]
    exact mono rests

theorem Greedy.andThen {s s' : Scanner α} (h : s.Greedy) (h' : s'.Greedy) : (s.andThen s').Greedy where
  mono := h.mono_andThen h'.mono
  goes_on := by
    intro q text front
    rcases h.goes_on front with all | ⟨same, rests⟩
    · left
      change s'.rest (s.rest q) = []
      rw [all, rest_nil]
    · rcases h'.goes_on rests with all | ⟨same', rests'⟩
      · exact .inl all
      · right
        refine ⟨?_, rests'⟩
        change s.taken q ++ s'.taken (s.rest q) = s.taken text ++ s'.taken (s.rest text)
        rw [same, same']

theorem Stable.again_andThen {s s' : Scanner α} (h : s.Stable) (h' : s'.Stable) {text y : List α}
    (front : y <+: (s.andThen s').rest text) :
    (s.andThen s').taken ((s.andThen s').taken text ++ y) = (s.andThen s').taken text := by
  have behind : s'.taken (s.rest text) ++ y <+: s.rest text := s'.prefix_of_rest front
  have split : (s.andThen s').taken text ++ y = s.taken text ++ (s'.taken (s.rest text) ++ y) := append_assoc _ _ _
  rw [split]
  change s.taken _ ++ s'.taken (s.rest _) = s.taken text ++ s'.taken (s.rest text)
  rw [h.again behind, h.rest_again behind, h'.again front]

theorem Greedy.andThen_stable {s s' : Scanner α} (h : s.Greedy) (h' : s'.Stable) : (s.andThen s').Stable where
  mono := h.mono_andThen h'.mono
  again := h.stable.again_andThen h'

/-! ## Scanners for characters -/

/-- Take all characters of a kind. -/
def span (p : α → Bool) : Scanner α where
  taken := List.takeWhile p
  rest := List.dropWhile p
  splits := fun _ => takeWhile_append_dropWhile

theorem span_start (p : α → Bool) {q text : List α} (front : q <+: text) : q.takeWhile p <+: text.takeWhile p ∧
      (q.dropWhile p = [] ∨ q.takeWhile p = text.takeWhile p ∧ q.dropWhile p <+: text.dropWhile p) := by
  induction q generalizing text with
  | nil => exact ⟨List.nil_prefix, .inl rfl⟩
  | cons c q ih =>
    obtain ⟨z, rfl⟩ := front
    rw [cons_append]
    by_cases kind : p c = true
    · obtain ⟨mono, goes_on⟩ := ih (prefix_append q z)
      rw [takeWhile_cons_of_pos kind, takeWhile_cons_of_pos kind, dropWhile_cons_of_pos kind,
        dropWhile_cons_of_pos kind, prefix_cons_inj, cons_inj_right]
      exact ⟨mono, goes_on⟩
    · rw [takeWhile_cons_of_neg kind, takeWhile_cons_of_neg kind, dropWhile_cons_of_neg kind,
        dropWhile_cons_of_neg kind]
      exact ⟨List.nil_prefix, .inr ⟨rfl, prefix_append (c :: q) z⟩⟩

theorem span_greedy (p : α → Bool) : (span p).Greedy where
  mono := fun front => (span_start p front).1
  goes_on := fun front => (span_start p front).2

/-- Take one character of a kind, and then what another scanner takes. -/
def after (p : α → Bool) (s : Scanner α) : Scanner α where
  taken
    | [] => []
    | c :: text => if p c then c :: s.taken text else []
  rest
    | [] => []
    | c :: text => if p c then s.rest text else c :: text
  splits text := by
    cases text with
    | nil => rfl
    | cons c text =>
      by_cases kind : p c = true
      · simp only [if_pos kind, cons_append, s.splits]
      · simp only [if_neg kind, nil_append]

theorem taken_after_cons (p : α → Bool) (s : Scanner α) (c : α) (text : List α) :
    (after p s).taken (c :: text) = if p c then c :: s.taken text else [] := rfl

theorem rest_after_cons (p : α → Bool) (s : Scanner α) (c : α) (text : List α) :
    (after p s).rest (c :: text) = if p c then s.rest text else c :: text := rfl

theorem Greedy.after {s : Scanner α} (h : s.Greedy) (p : α → Bool) : (after p s).Greedy where
  mono := by
    rintro q text ⟨z, rfl⟩
    cases q with
    | nil => exact nil_prefix
    | cons c q =>
      rw [cons_append, taken_after_cons, taken_after_cons]
      by_cases kind : p c = true
      · rw [if_pos kind, if_pos kind, prefix_cons_inj]
        exact h.mono (prefix_append q z)
      · rw [if_neg kind]
        exact nil_prefix
  goes_on := by
    rintro q text ⟨z, rfl⟩
    cases q with
    | nil => exact .inl rfl
    | cons c q =>
      rw [cons_append, taken_after_cons, taken_after_cons, rest_after_cons, rest_after_cons]
      by_cases kind : p c = true
      · rw [if_pos kind, if_pos kind, if_pos kind, if_pos kind, cons_inj_right]
        exact h.goes_on (prefix_append q z)
      · rw [if_neg kind, if_neg kind, if_neg kind, if_neg kind]
        exact .inr ⟨rfl, prefix_append (c :: q) z⟩

/-- Take nothing. -/
def nothing : Scanner α where
  taken := fun _ => []
  rest := fun text => text
  splits := fun _ => rfl

theorem nothing_greedy : (nothing : Scanner α).Greedy where
  mono := fun _ => nil_prefix
  goes_on := fun front => .inr ⟨rfl, front⟩

/-! ## Taking all or nothing -/

/-- Take what a scanner takes if it is well formed, and nothing otherwise. -/
def provided (ok : List α → Bool) (s : Scanner α) : Scanner α where
  taken text := if ok (s.taken text) then s.taken text else []
  rest text := if ok (s.taken text) then s.rest text else text
  splits text := by
    by_cases formed : ok (s.taken text) = true
    · rw [if_pos formed, if_pos formed, s.splits]
    · rw [if_neg formed, if_neg formed, nil_append]

section Provided
variable {s : Scanner α} {ok : List α → Bool} (h : s.Greedy)
  (grows : ∀ {q text : List α}, q <+: text → ok q = true → ok text = true)
include h grows

theorem provided_mono {q text : List α} (front : q <+: text) :
    (provided ok s).taken q <+: (provided ok s).taken text := by
  unfold provided
  dsimp only
  by_cases formed : ok (s.taken q) = true
  · rw [if_pos formed, if_pos (grows (h.mono front) formed)]
    exact h.mono front
  · rw [if_neg formed]
    exact nil_prefix

theorem provided_stable : (provided ok s).Stable where
  mono := provided_mono h grows
  again := by
    intro text y front
    unfold provided at front ⊢
    dsimp only at front ⊢
    by_cases formed : ok (s.taken text) = true
    · rw [if_pos formed] at front ⊢
      rw [h.stable.again front, if_pos formed]
    · rw [if_neg formed] at front ⊢
      have unformed : ¬ ok (s.taken y) = true := fun c => formed (grows (h.mono front) c)
      rw [nil_append, if_neg unformed]

/-- A scanner behind one that takes all or nothing, when it takes nothing where the other one begins. -/
theorem provided_andThen {s' : Scanner α} (h' : s'.Greedy) (empty : ok [] = false)
    (apart : ∀ text, s.taken text ≠ [] → s'.taken text = []) : ((provided ok s).andThen s').Stable where
  mono := by
    intro q text front
    change (provided ok s).taken q ++ s'.taken ((provided ok s).rest q) <+:
      (provided ok s).taken text ++ s'.taken ((provided ok s).rest text)
    by_cases formed : ok (s.taken q) = true
    · have formed' := grows (h.mono front) formed
      simp only [provided, if_pos formed, if_pos formed']
      exact (h.mono_andThen h'.mono) front
    · simp only [provided, if_neg formed, nil_append]
      by_cases begins : s.taken q = []
      · have same : q = [] ∨ s.taken text = [] := by
          rcases h.goes_on front with all | ⟨same, -⟩
          · exact .inl (by rw [← s.taken_of_rest_nil all, begins])
          · exact .inr (by rw [← same, begins])
        rcases same with rfl | nothing_taken
        · rw [taken_nil]
          exact nil_prefix
        · rw [nothing_taken, empty]
          simp only [Bool.false_eq_true, if_false, nil_append]
          exact h'.mono front
      · rw [apart q begins]
        exact nil_prefix
  again := (provided_stable h grows).again_andThen h'.stable

end Provided

end Scanner

end Scanning
