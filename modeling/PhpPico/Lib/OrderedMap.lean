import Mathlib.Data.List.ReduceOption
import Mathlib.Data.List.Nodup
import Mathlib.Tactic.Common

/-!
# Insertion-ordered maps

A map that remembers the order of its keys is a list of entries with distinct keys. In an array of cells that may be
empty, it is what is left when the empty cells are passed over.
-/

namespace OrderedMap
open List

variable {K V : Type}

/-- The keys, oldest first. -/
def keys (m : List (K × V)) : List K := m.map Prod.fst

@[simp] theorem keys_nil : keys ([] : List (K × V)) = [] := rfl

@[simp] theorem keys_cons (e : K × V) (m : List (K × V)) : keys (e :: m) = e.1 :: keys m := rfl

@[simp] theorem keys_append (m m' : List (K × V)) : keys (m ++ m') = keys m ++ keys m' :=
  map_append

variable [DecidableEq K]

/-- Give `k` the value `v`: a present key keeps its place, a new one goes to the end. -/
def set (m : List (K × V)) (k : K) (v : V) : List (K × V) :=
  if k ∈ keys m then m.map fun e => if e.1 = k then (k, v) else e else m ++ [(k, v)]

/-- Take `k` out. -/
def erase (m : List (K × V)) (k : K) : List (K × V) := m.filter fun e => e.1 ≠ k

theorem set_of_not_mem {m : List (K × V)} {k : K} (v : V) (absent : k ∉ keys m) :
    set m k v = m ++ [(k, v)] := if_neg absent

theorem erase_of_not_mem {m : List (K × V)} {k : K} (absent : k ∉ keys m) : erase m k = m := by
  refine filter_eq_self.mpr fun e he => decide_eq_true fun h => absent ?_
  exact h ▸ List.mem_map_of_mem he

theorem replace_of_not_mem {m : List (K × V)} {k : K} (v : V) (absent : k ∉ keys m) :
    (m.map fun e => if e.1 = k then (k, v) else e) = m := by
  refine (map_congr_left fun e he => if_neg fun h => absent ?_).trans (List.map_id' m)
  exact h ▸ List.mem_map_of_mem he

theorem lookup_of_not_mem {m : List (K × V)} {k : K} (absent : k ∉ keys m) : m.lookup k = none := by
  refine lookup_eq_none_iff.mpr fun e he => ?_
  have : e.1 ≠ k := fun h => absent (h ▸ List.mem_map_of_mem he)
  simpa using fun h => this h.symm

section Present
variable {pre post : List (K × V)} {k : K} {v w : V}

omit [DecidableEq K] in
theorem nodup_around (distinct : (keys (pre ++ (k, v) :: post)).Nodup) : k ∉ keys pre ∧ k ∉ keys post := by
  rw [keys_append, keys_cons] at distinct
  have apart := disjoint_of_nodup_append distinct
  have rest := nodup_cons.mp (nodup_append.mp distinct).2.1
  exact ⟨fun h => apart h (.head _), rest.1⟩

/-- Updating a key keeps its place. -/
theorem set_present (distinct : (keys (pre ++ (k, v) :: post)).Nodup) :
    set (pre ++ (k, v) :: post) k w = pre ++ (k, w) :: post := by
  obtain ⟨before, behind⟩ := nodup_around distinct
  have present : k ∈ keys (pre ++ (k, v) :: post) := by simp
  rw [set, if_pos present, map_append, map_cons, replace_of_not_mem w before, replace_of_not_mem w behind, if_pos rfl]

theorem erase_present (distinct : (keys (pre ++ (k, v) :: post)).Nodup) :
    erase (pre ++ (k, v) :: post) k = pre ++ post := by
  obtain ⟨before, behind⟩ := nodup_around distinct
  have kept : erase pre k = pre := erase_of_not_mem before
  have kept' : erase post k = post := erase_of_not_mem behind
  rw [erase] at kept kept' ⊢
  rw [filter_append, filter_cons_of_neg (by simp), kept, kept']

theorem lookup_present (distinct : (keys (pre ++ (k, v) :: post)).Nodup) :
    (pre ++ (k, v) :: post).lookup k = some v := by
  obtain ⟨before, -⟩ := nodup_around distinct
  rw [lookup_append, lookup_of_not_mem before, lookup_cons_self, Option.none_or]

end Present

theorem keys_set (m : List (K × V)) (k : K) (v : V) :
    keys (set m k v) = if k ∈ keys m then keys m else keys m ++ [k] := by
  by_cases present : k ∈ keys m
  · rw [set, if_pos present, if_pos present, keys, keys, List.map_map]
    refine map_congr_left fun e _ => ?_
    by_cases h : e.1 = k
    · simp [h]
    · simp [h]
  · rw [set, if_neg present, if_neg present, keys_append, keys_cons, keys_nil]

theorem nodup_set {m : List (K × V)} (k : K) (v : V) (distinct : (keys m).Nodup) : (keys (set m k v)).Nodup := by
  rw [keys_set]
  split
  · exact distinct
  · next absent => exact nodup_append.mpr ⟨distinct, nodup_singleton k, by
      intro a ha b hb h
      rw [mem_singleton.mp hb] at h
      exact absent (h ▸ ha)⟩

theorem not_mem_keys_erase (m : List (K × V)) (k : K) : k ∉ keys (erase m k) := by
  intro listed
  obtain ⟨e, kept, same⟩ := List.mem_map.mp listed
  have other := of_decide_eq_true (mem_filter.mp kept).2
  exact other same

theorem nodup_erase {m : List (K × V)} (k : K) (distinct : (keys m).Nodup) : (keys (erase m k)).Nodup :=
  Nodup.sublist (List.Sublist.map _ filter_sublist) distinct

/-! ## Maps kept in cells -/

/-- The entries of the cells that hold one. -/
abbrev live (cells : List (Option (K × V))) : List (K × V) := cells.reduceOption

section Cells
variable {cells : List (Option (K × V))} {i : Nat} {k : K} {v : V}

omit [DecidableEq K] in
theorem live_split (at_i : cells[i]? = some (some (k, v))) : ∃ pre post, live cells = pre ++ (k, v) :: post ∧
      ∀ c : Option (K × V), live (cells.set i c) = pre ++ c.toList ++ post := by
  obtain ⟨h, e⟩ := List.getElem?_eq_some_iff.mp at_i
  refine ⟨live (cells.take i), live (cells.drop (i + 1)), ?_, fun c => ?_⟩
  · have whole : cells = cells.take i ++ some (k, v) :: cells.drop (i + 1) := by
      rw [← e, getElem_cons_drop, take_append_drop]
    conv_lhs => rw [live, whole]
    rw [reduceOption_append, reduceOption_cons_of_some]
  · rw [live, set_eq_take_cons_drop c h, ← singleton_append, reduceOption_append,
      reduceOption_append, reduceOption_singleton, append_assoc]

theorem live_update (distinct : (keys (live cells)).Nodup) (at_i : cells[i]? = some (some (k, v)))
    (w : V) : live (cells.set i (some (k, w))) = set (live cells) k w := by
  obtain ⟨pre, post, whole, changed⟩ := live_split at_i
  rw [whole] at distinct ⊢
  rw [changed, set_present distinct]
  simp

theorem live_clear (distinct : (keys (live cells)).Nodup) (at_i : cells[i]? = some (some (k, v))) :
    live (cells.set i none) = erase (live cells) k := by
  obtain ⟨pre, post, whole, changed⟩ := live_split at_i
  rw [whole] at distinct ⊢
  rw [changed, erase_present distinct]
  simp

theorem live_lookup (distinct : (keys (live cells)).Nodup) (at_i : cells[i]? = some (some (k, v))) :
    (live cells).lookup k = some v := by
  obtain ⟨pre, post, whole, -⟩ := live_split at_i
  rw [whole] at distinct ⊢
  exact lookup_present distinct

omit [DecidableEq K] in
theorem length_clear (at_i : cells[i]? = some (some (k, v))) :
    (live (cells.set i none)).length + 1 = (live cells).length := by
  obtain ⟨pre, post, whole, changed⟩ := live_split at_i
  rw [whole, changed]
  simp
  omega

omit [DecidableEq K] in
theorem mem_live : (k, v) ∈ live cells ↔ ∃ i : Nat, cells[i]? = some (some (k, v)) := by
  rw [reduceOption_mem_iff, mem_iff_getElem?]

omit [DecidableEq K] in
theorem mem_keys_live : k ∈ keys (live cells) ↔ ∃ (i : Nat) (w : V), cells[i]? = some (some (k, w)) := by
  constructor
  · intro h
    obtain ⟨⟨k', w⟩, he, rfl⟩ := List.mem_map.mp h
    obtain ⟨i, hi⟩ := mem_live.mp he
    exact ⟨i, w, hi⟩
  · rintro ⟨i, w, hi⟩
    exact List.mem_map.mpr ⟨(k, w), mem_live.mpr ⟨i, hi⟩, rfl⟩

end Cells

end OrderedMap
