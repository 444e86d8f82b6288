import PhpPico.Lib.OrderedMap
import Mathlib.Tactic.Common

/-!
# Folds that call back

A left fold over the entries of a map, whose step may call a callback that answers or fails. Which calls are made is
part of what a fold does: a map, a filter and a reduction are folds of this kind.
-/

namespace CallbackFold
open List OrderedMap

/-- A call: what the callback gets, and what it answers. -/
structure Call (V E : Type) where
  arguments : List V
  outcome : Except E V

/-- What is done with an entry: go on at once, or with the answer of the callback. -/
inductive Turn (A V : Type) where
  | pass (next : A)
  | call (arguments : List V) (answered : V → A)

section Folds
variable {A K V E : Type}

/-- **A left fold with a callback**: the entries in order, the calls in order, and what comes of it. The first call that
fails is the last one. -/
inductive Folds (step : A → K → V → Turn A V) : A → List (K × V) → List (Call V E) → Except E A → Prop where
  | nil (a : A) : Folds step a [] [] (.ok a)
  | pass {a next : A} {k : K} {v : V} {rest : List (K × V)} {calls : List (Call V E)} {outcome : Except E A}
      (round : step a k v = .pass next) (later : Folds step next rest calls outcome) :
      Folds step a ((k, v) :: rest) calls outcome
  | call {a : A} {k : K} {v : V} {rest : List (K × V)} {arguments : List V} {answered : V → A}
      {calls : List (Call V E)} {outcome : Except E A} (answer : V) (round : step a k v = .call arguments answered)
      (later : Folds step (answered answer) rest calls outcome) :
      Folds step a ((k, v) :: rest) (⟨arguments, .ok answer⟩ :: calls) outcome
  | failed {a : A} {k : K} {v : V} {rest : List (K × V)} {arguments : List V} {answered : V → A} (e : E)
      (round : step a k v = .call arguments answered) :
      Folds step a ((k, v) :: rest) [⟨arguments, .error e⟩] (.error e)

end Folds

/-! ## Maps, filters and reductions -/

section Iterators
variable {K V E : Type} [DecidableEq K]

/-- A map calls with each value, and keeps the answer under the key. -/
def mapStep (output : List (K × V)) (k : K) (v : V) : Turn (List (K × V)) V :=
  .call [v] fun answer => set output k answer

/-- A filter keeps the entries for which the answer is true, or the values that are true where nothing is asked. -/
def filterStep (asked : Option (K → V → List V)) (truthy : V → Bool) (output : List (K × V)) (k : K) (v : V) :
    Turn (List (K × V)) V :=
  match asked with
  | none => .pass (if truthy v then set output k v else output)
  | some arguments => .call (arguments k v) fun answer => if truthy answer then set output k v else output

/-- A reduction calls with the last answer and each value. -/
def reduceStep (carry : V) (_ : K) (v : V) : Turn V V := .call [carry, v] id

variable {output entries : List (K × V)} {calls : List (Call V E)} {out : List (K × V)}

theorem nodup_snoc {k : K} {v : V} (distinct : (keys (output ++ (k, v) :: entries)).Nodup) (w : V) :
    k ∉ keys output ∧ (keys (set output k w ++ entries)).Nodup ∧ (keys (output ++ entries)).Nodup := by
  rw [OrderedMap.keys_append, OrderedMap.keys_cons] at distinct
  obtain ⟨first, second, apart⟩ := nodup_append.mp distinct
  obtain ⟨new, rest⟩ := nodup_cons.mp second
  have absent : k ∉ keys output := fun mem => apart k mem k (.head _) rfl
  refine ⟨absent, ?_, ?_⟩
  · rw [set_of_not_mem w absent, append_assoc, OrderedMap.keys_append]
    exact distinct
  · rw [OrderedMap.keys_append]
    exact nodup_append.mpr ⟨first, rest, fun x mem y mem' => apart x mem y (.tail _ mem')⟩

/-- **A filter has the entries whose answers are true**, and calls once for each entry. -/
theorem Folds.filter_ok {arguments : K → V → List V} {truthy : V → Bool} (distinct : (keys (output ++ entries)).Nodup)
    (folds : Folds (filterStep (some arguments) truthy) output entries calls (.ok out)) :
    ∃ answers, answers.length = entries.length ∧
      calls = entries.zipWith (fun e answer => ⟨arguments e.1 e.2, .ok answer⟩) answers ∧
      out = output ++ ((entries.zip answers).filter fun p => truthy p.2).map Prod.fst := by
  generalize is_ok : (.ok out : Except E (List (K × V))) = outcome at folds
  induction folds with
  | nil a =>
    cases is_ok
    exact ⟨[], rfl, rfl, (append_nil _).symm⟩
  | pass round => cases round
  | @call a k v rest arguments answered calls outcome answer round later ih =>
    cases round
    obtain ⟨absent, distinct', distinct''⟩ := nodup_snoc distinct v
    dsimp only at ih
    cases keep : truthy answer with
    | true =>
      rw [keep, if_pos rfl] at ih
      obtain ⟨answers, lengths, rfl, rfl⟩ := ih distinct' is_ok
      refine ⟨answer :: answers, congrArg Nat.succ lengths, rfl, ?_⟩
      have kept : ((((k, v), answer) :: rest.zip answers).filter fun p => truthy p.2) =
          ((k, v), answer) :: (rest.zip answers).filter fun p => truthy p.2 := filter_cons_of_pos keep
      rw [set_of_not_mem v absent, append_assoc, zip_cons_cons, kept]
      rfl
    | false =>
      rw [keep, if_neg Bool.false_ne_true] at ih
      obtain ⟨answers, lengths, rfl, rfl⟩ := ih distinct'' is_ok
      refine ⟨answer :: answers, congrArg Nat.succ lengths, rfl, ?_⟩
      have left_out : ((((k, v), answer) :: rest.zip answers).filter fun p => truthy p.2) =
          (rest.zip answers).filter fun p => truthy p.2 := filter_cons_of_neg (ne_true_of_eq_false keep)
      rw [zip_cons_cons, left_out]
  | failed => cases is_ok

end Iterators

end CallbackFold
