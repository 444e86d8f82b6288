import Mathlib.Data.List.ReduceOption
import Mathlib.Data.List.Perm.Basic
import Mathlib.Tactic.Common

/-!
# Tables with linear probing

An entry is looked for from the home of its key on, cell by cell and from the last cell to the first, until it or an
empty cell is met. Entries are never taken out, so no cell between its home and an entry is empty.
-/

namespace ProbeTable
open List

variable {α κ : Type} {key : α → κ} {home : κ → Nat}

/-- The entry in a cell. -/
def cell (cells : List (Option α)) (i : Nat) : Option α := (cells[i]?).join

variable {cells : List (Option α)} {e f : α} {k : κ} {i j : Nat}

theorem cell_eq_some : cell cells i = some e ↔ cells[i]? = some (some e) := by
  unfold cell
  exact Option.join_eq_some_iff

theorem cell_mem (h : cell cells i = some e) : e ∈ cells.reduceOption :=
  reduceOption_mem_iff.mpr (mem_of_getElem? (cell_eq_some.mp h))

theorem exists_cell (h : e ∈ cells.reduceOption) : ∃ i < cells.length, cell cells i = some e := by
  obtain ⟨i, lt, at_i⟩ := getElem_of_mem (reduceOption_mem_iff.mp h)
  exact ⟨i, lt, cell_eq_some.mpr (by rw [getElem?_eq_getElem lt, at_i])⟩

theorem cell_set_self (lt : i < cells.length) : cell (cells.set i (some e)) i = some e := by
  rw [cell_eq_some, getElem?_set_self lt]

theorem cell_set_ne (ne : i ≠ j) : cell (cells.set i (some e)) j = cell cells j := by
  rw [cell, cell, getElem?_set_ne ne]

theorem reduceOption_set (lt : i < cells.length) (empty : cell cells i = none) :
    (cells.set i (some e)).reduceOption.Perm (e :: cells.reduceOption) := by
  induction cells generalizing i with
  | nil => cases lt
  | cons c rest ih =>
    cases i with
    | zero =>
      have none_c : c = none := by simpa [cell] using empty
      rw [none_c, set_cons_zero, reduceOption_cons_of_some, reduceOption_cons_of_none]
    | succ i =>
      have below : (rest.set i (some e)).reduceOption.Perm (e :: rest.reduceOption) := by
        apply ih
        · exact Nat.lt_of_succ_lt_succ lt
        · simpa [cell] using empty
      rw [set_cons_succ]
      cases c with
      | none => simpa only [reduceOption_cons_of_none] using below
      | some d =>
        simp only [reduceOption_cons_of_some]
        exact (below.cons d).trans (Perm.swap e d _)

theorem index_unique (distinct : (cells.reduceOption.map key).Nodup) (at_i : cell cells i = some e)
    (at_j : cell cells j = some f) (same : key e = key f) : i = j := by
  induction cells generalizing i j with
  | nil => simp [cell] at at_i
  | cons c rest ih =>
    have distinct' : (rest.reduceOption.map key).Nodup := by
      cases c with
      | none => simpa only [reduceOption_cons_of_none] using distinct
      | some d =>
        rw [reduceOption_cons_of_some, map_cons] at distinct
        exact distinct.of_cons
    have apart : ∀ {x y : α} {n : Nat}, c = some x → cell rest n = some y → key x ≠ key y := by
      intro x y n hx hy eq
      rw [hx, reduceOption_cons_of_some, map_cons, nodup_cons] at distinct
      exact distinct.1 (List.mem_map.mpr ⟨y, cell_mem hy, eq.symm⟩)
    cases i with
    | zero =>
      cases j with
      | zero => rfl
      | succ j =>
        have head : c = some e := by simpa [cell] using at_i
        exact absurd same (apart head (by simpa [cell] using at_j))
    | succ i =>
      cases j with
      | zero =>
        have head : c = some f := by simpa [cell] using at_j
        exact absurd same.symm (apart head (by simpa [cell] using at_i))
      | succ j =>
        have eq := ih distinct' (by simpa [cell] using at_i) (by simpa [cell] using at_j)
        rw [eq]

/-- Every entry is reached from the home of its key, and no two entries have one key. -/
structure Placed (key : α → κ) (home : κ → Nat) (cells : List (Option α)) : Prop where
  reach : ∀ i e, cell cells i = some e → ∃ d, i = (home (key e) + d) % cells.length ∧
    ∀ j < d, (cell cells ((home (key e) + j) % cells.length)).isSome
  distinct : (cells.reduceOption.map key).Nodup

theorem placed_replicate (n : Nat) : Placed key home (replicate n none) := by
  constructor
  · intro i e h
    have := cell_mem h
    rw [reduceOption_replicate_none] at this
    cases this
  · rw [reduceOption_replicate_none]
    exact nodup_nil

/-! ## The walk -/

variable [DecidableEq κ]

/-- The walk from a cell to an entry with a key or to an empty cell, over a number of cells at
most. -/
def probe (key : α → κ) (cells : List (Option α)) (k : κ) : Nat → Nat → Option Nat
  | 0, _ => none
  | rounds + 1, i =>
    match cell cells i with
    | none => some i
    | some e => if key e = k then some i else probe key cells k rounds ((i + 1) % cells.length)

/-- The walk stops after `d` steps. -/
structure Stops (key : α → κ) (cells : List (Option α)) (k : κ) (start d : Nat) : Prop where
  before : ∀ j < d, ∃ e, cell cells ((start + j) % cells.length) = some e ∧ key e ≠ k
  there : ∀ e, cell cells ((start + d) % cells.length) = some e → key e = k

theorem probe_of_empty {rounds start : Nat} (empty : ∃ d < rounds, cell cells ((start + d) % cells.length) = none) :
    ∃ d, probe key cells k rounds (start % cells.length) = some ((start + d) % cells.length) ∧
      Stops key cells k start d := by
  induction rounds generalizing start with
  | zero =>
    obtain ⟨d, lt, -⟩ := empty
    cases lt
  | succ rounds ih =>
    obtain ⟨d, lt, empty⟩ := empty
    rw [probe]
    cases at_start : cell cells (start % cells.length) with
    | none =>
      refine ⟨0, rfl, fun j lt => (by cases lt), fun e he => ?_⟩
      rw [Nat.add_zero, at_start] at he
      cases he
    | some e =>
      by_cases own : key e = k
      · refine ⟨0, if_pos own, fun j lt => (by cases lt), fun f hf => ?_⟩
        rw [Nat.add_zero, at_start] at hf
        cases hf
        exact own
      · have moved : d ≠ 0 := by
          rintro rfl
          rw [Nat.add_zero, at_start] at empty
          cases empty
        have shift : ∀ n, start + 1 + n = start + (n + 1) := fun n => by omega
        have empty' : ∃ d < rounds, cell cells ((start + 1 + d) % cells.length) = none := by
          refine ⟨d - 1, by omega, ?_⟩
          rw [shift, Nat.sub_add_cancel (by omega)]
          exact empty
        obtain ⟨d', run, before, there⟩ := ih empty'
        rw [shift] at run there
        simp only [if_neg own, Nat.mod_add_mod]
        refine ⟨d' + 1, run, fun j lt => ?_, there⟩
        cases j with
        | zero => exact ⟨e, at_start, own⟩
        | succ j =>
          rw [← shift]
          exact before j (by omega)

/-- **The walk ends** in a table with an empty cell. -/
theorem probe_stops (key : α → κ) (k : κ) (room : none ∈ cells) (start : Nat) :
    ∃ d, probe key cells k cells.length (start % cells.length) = some ((start + d) % cells.length) ∧
      Stops key cells k start d := by
  obtain ⟨i, lt, at_i⟩ := getElem_of_mem room
  apply probe_of_empty
  have rest := Nat.mod_lt start (by omega : 0 < cells.length)
  have parts := Nat.mod_add_div start cells.length
  refine ⟨(i + cells.length - start % cells.length) % cells.length, Nat.mod_lt _ (by omega), ?_⟩
  have arrives : (start + (i + cells.length - start % cells.length) % cells.length) % cells.length = i := by
    rw [Nat.add_mod_mod]
    have sum : start + (i + cells.length - start % cells.length) =
        i + cells.length + cells.length * (start / cells.length) := by omega
    rw [sum, Nat.add_mul_mod_self_left, Nat.add_mod_right, Nat.mod_eq_of_lt lt]
  rw [arrives, cell, getElem?_eq_getElem lt, at_i]
  rfl

/-! ## What a walk finds -/

/-- **A walk finds the entry with the key**, if there is one. -/
theorem Placed.finds (h : Placed key home cells) (room : none ∈ cells) (at_i : cell cells i = some e) :
    probe key cells (key e) cells.length (home (key e) % cells.length) = some i := by
  obtain ⟨d, run, before, there⟩ := probe_stops key (key e) room (home (key e))
  obtain ⟨d', rfl, occupied⟩ := h.reach i e at_i
  rw [run]
  rcases Nat.lt_or_ge d' d with lt | le
  · obtain ⟨f, at_f, other⟩ := before d' lt
    rw [at_i] at at_f
    cases at_f
    exact absurd rfl other
  · have found : ∃ f, cell cells ((home (key e) + d) % cells.length) = some f := by
      rcases Nat.lt_or_eq_of_le le with lt | eq
      · exact Option.isSome_iff_exists.mp (occupied d lt)
      · rw [eq]
        exact ⟨e, at_i⟩
    obtain ⟨f, at_f⟩ := found
    rw [index_unique h.distinct at_f at_i (there f at_f)]

/-- Where a walk ends: at the entry with the key, or at an empty cell of a table without one. -/
theorem Placed.probe_cases (h : Placed key home cells) (room : none ∈ cells) (k : κ) :
    ∃ i, i < cells.length ∧ probe key cells k cells.length (home k % cells.length) = some i ∧
      ((∃ e, cell cells i = some e ∧ key e = k) ∨ cell cells i = none ∧ (∀ e ∈ cells.reduceOption, key e ≠ k) ∧
          ∀ e, key e = k → Placed key home (cells.set i (some e))) := by
  obtain ⟨d, run, before, there⟩ := probe_stops key k room (home k)
  have pos : 0 < cells.length := length_pos_of_mem room
  have lt := Nat.mod_lt (home k + d) pos
  refine ⟨(home k + d) % cells.length, lt, run, ?_⟩
  cases at_end : cell cells ((home k + d) % cells.length) with
  | some e => exact .inl ⟨e, rfl, there e at_end⟩
  | none =>
    have absent : ∀ e ∈ cells.reduceOption, key e ≠ k := by
      rintro e he rfl
      obtain ⟨i, -, at_i⟩ := exists_cell he
      have found := h.finds room at_i
      rw [run] at found
      cases found
      rw [at_end] at at_i
      cases at_i
    refine .inr ⟨rfl, absent, fun e own => ?_⟩
    subst own
    constructor
    · intro i f at_i
      rw [List.length_set]
      -- cells that were occupied stay so
      have stays : ∀ j, (cell cells j).isSome →
          (cell (cells.set ((home (key e) + d) % cells.length) (some e)) j).isSome := by
        intro j some_j
        by_cases same : (home (key e) + d) % cells.length = j
        · rw [← same, cell_set_self lt]
          rfl
        · rw [cell_set_ne same]
          exact some_j
      by_cases new : (home (key e) + d) % cells.length = i
      · rw [← new, cell_set_self lt] at at_i
        cases at_i
        refine ⟨d, new.symm, fun j lt => stays _ ?_⟩
        obtain ⟨g, at_g, -⟩ := before j lt
        rw [at_g]
        rfl
      · rw [cell_set_ne new] at at_i
        obtain ⟨d', eq, occupied⟩ := h.reach i f at_i
        exact ⟨d', eq, fun j lt => stays _ (occupied j lt)⟩
    · refine (((reduceOption_set lt at_end).map key).nodup_iff).mpr (nodup_cons.mpr ⟨?_, h.distinct⟩)
      intro listed
      obtain ⟨f, hf, same⟩ := List.mem_map.mp listed
      exact absent f hf same

end ProbeTable
