import Mathlib.Data.List.Count
import Mathlib.Data.List.Perm.Basic
import Mathlib.Algebra.Order.BigOperators.Group.List
import Mathlib.Algebra.Order.Group.Nat
import Mathlib.Algebra.Order.Ring.Int
import Mathlib.Tactic.Common

/-!
# Reference counts and the candidate buffer

Arrays, objects, closures, strings and resources are values of a heap with a reference count of 16 bits, stuck once it
is 65535. A value whose count falls to 0 is destroyed and releases what is in its slots; a container whose count falls
to another number becomes a candidate for the cycle collector. Destructors are left out.
-/

namespace PhpPico
open List

/-- The type of a value of the heap; a `leaf` is a string or a resource. -/
inductive HeapType where
  | array | object | closure | leaf
  deriving DecidableEq

/-- A slot: null, a scalar, or a reference to a value of the heap. -/
inductive Slot where
  | null
  | scalar (bits : Nat)
  | ref (a : Nat)
  deriving DecidableEq

def Slot.target : Slot → Option Nat
  | .ref a => some a
  | _ => none

/-- `pheader` and the slots behind it: the keys and values of the entries of an array, the
properties of an object, the captures of a closure. -/
structure HeapValue where
  type : HeapType
  refcnt : Nat
  buffered : Bool
  collecting : Bool
  destroying : Bool
  slots : List Slot
  deriving DecidableEq

/-- The values the slots refer to. -/
def HeapValue.children (v : HeapValue) : List Nat := v.slots.filterMap Slot.target

/-- `is_container_type`. -/
def HeapValue.isContainer (v : HeapValue) : Bool :=
  v.type = .array || v.type = .object || v.type = .closure

/-- `pv_retain`. -/
def HeapValue.retained (v : HeapValue) : HeapValue :=
  if v.refcnt ≠ 65535 then { v with refcnt := v.refcnt + 1 } else v

/-- The values, `none` once they are freed, the candidate buffer and whether it asked for a
collection. -/
structure Gc where
  heap : List (Option HeapValue)
  candidates : List Nat
  requested : Bool
  deriving DecidableEq

namespace Gc

def value (s : Gc) (a : Nat) : Option HeapValue := (s.heap[a]?).join

def put (s : Gc) (a : Nat) (v : HeapValue) : Gc := { s with heap := s.heap.set a (some v) }

/-- `pphp_free`. -/
def free (s : Gc) (a : Nat) : Gc := { s with heap := s.heap.set a none }

/-- Take an element out of a list, the last one filling the gap. -/
def swapRemove (l : List Nat) (a : Nat) : List Nat :=
  match l.idxOf? a with
  | none => l
  | some i => (l.set i (l.getLastD 0)).dropLast

/-- `pphp_gc_unbuffer`. -/
def unbuffer (s : Gc) (a : Nat) : Gc :=
  match s.value a with
  | none => s
  | some v =>
    if v.buffered then
      { s.put a { v with buffered := false } with candidates := swapRemove s.candidates a }
    else s

/-- `pphp_gc_buffer`. -/
def buffer (s : Gc) (a : Nat) : Gc :=
  match s.value a with
  | none => s
  | some v =>
    if v.isContainer = false ∨ v.refcnt = 0 ∨ v.refcnt = 65535 ∨ v.buffered ∨ v.collecting ∨ v.destroying then s
    else if s.candidates.length < 256 then
      { s.put a { v with buffered := true } with
        candidates := s.candidates ++ [a]
        requested := s.requested || s.candidates.length + 1 == 256 }
    else { s with requested := true }

/-- `pv_release`, with `pa_destroy`, `pobject_destroy` and `pclosure_destroy`; nothing when a freed value is read. The
rounds bound how deep values are destroyed. -/
def release : Nat → Gc → Nat → Option Gc
  | 0, _, _ => none
  | rounds + 1, s, a =>
    match s.value a with
    | none => none
    | some v =>
      if v.refcnt = 65535 ∨ v.refcnt = 0 then some s
      else if v.refcnt - 1 ≠ 0 then some ((s.put a { v with refcnt := v.refcnt - 1 }).buffer a)
      else do
        let s ← v.children.foldlM (release rounds) ((s.put a { v with refcnt := 0 }).unbuffer a)
        return s.free a

/-! ## Counting references -/

/-- The count of a value; a freed one has none. -/
def rc (s : Gc) (a : Nat) : Nat := (s.value a).elim 0 HeapValue.refcnt

/-- How often a slot of the value refers to another one; a value that is being destroyed has given
up its slots. -/
def refersTo (o : Option HeapValue) (x : Nat) : Nat :=
  o.elim 0 fun v => if v.refcnt = 0 then 0 else v.children.count x

/-- How many slots refer to a value. -/
def refs (s : Gc) (x : Nat) : Nat := (s.heap.map fun o => refersTo o x).sum

/-- 1 for a value that is not being destroyed. -/
def aliveOf (o : Option HeapValue) : Nat := o.elim 0 fun v => if v.refcnt = 0 then 0 else 1

/-- How many values are not being destroyed. -/
def alive (s : Gc) : Nat := (s.heap.map aliveOf).sum

/-- **The counts are right**: one that is not stuck counts the references from outside the heap,
those from slots and those that are about to be released. -/
def Counted (s : Gc) (roots : Nat → Nat) (pending : List Nat) : Prop :=
  ∀ a, s.rc a = 65535 ∨ s.rc a = roots a + s.refs a + pending.count a

/-- The buffer lists each buffered value once. -/
structure BufferOk (s : Gc) : Prop where
  nodup : s.candidates.Nodup
  few : s.candidates.length ≤ 256
  listed : ∀ a, a ∈ s.candidates ↔ ∃ v, s.value a = some v ∧ v.buffered = true
  real : ∀ a v, s.value a = some v → v.buffered = true → v.refcnt ≠ 0 ∧ v.isContainer = true

section Cells
variable {s : Gc} {a x : Nat} {v v' : HeapValue}

theorem value_eq_some : s.value a = some v ↔ s.heap[a]? = some (some v) := Option.join_eq_some_iff

theorem lt_of_value (h : s.value a = some v) : a < s.heap.length :=
  (List.getElem?_eq_some_iff.mp (value_eq_some.mp h)).1

@[simp] theorem value_put_self (lt : a < s.heap.length) : (s.put a v).value a = some v := by
  rw [value_eq_some, put, getElem?_set_self lt]

@[simp] theorem value_put_ne (ne : a ≠ x) : (s.put a v).value x = s.value x := by
  rw [value, put, getElem?_set_ne ne, ← value]

@[simp] theorem value_free_self : (s.free a).value a = none := by
  unfold value free
  rw [getElem?_set_self']
  cases s.heap[a]? <;> rfl

@[simp] theorem value_free_ne (ne : a ≠ x) : (s.free a).value x = s.value x := by
  rw [value, free, getElem?_set_ne ne, ← value]

theorem value_congr {s' : Gc} (heap : s'.heap = s.heap) (x : Nat) : s'.value x = s.value x := by
  rw [value, value, heap]

theorem rc_of_value (h : s.value a = some v) : s.rc a = v.refcnt := by rw [rc, h]; rfl

theorem rc_of_none (h : s.value a = none) : s.rc a = 0 := by rw [rc, h]; rfl

theorem exists_value (h : s.rc a ≠ 0) : ∃ v, s.value a = some v ∧ v.refcnt = s.rc a := by
  cases at_a : s.value a with
  | none => exact absurd (rc_of_none at_a) h
  | some v => exact ⟨v, rfl, (rc_of_value at_a).symm⟩

theorem sum_map_set {α : Type} {l : List α} {i : Nat} {old new : α} (f : α → Nat) (h : l[i]? = some old) :
    ((l.set i new).map f).sum + f old = (l.map f).sum + f new := by
  induction l generalizing i with
  | nil => cases h
  | cons c rest ih =>
    cases i with
    | zero =>
      cases h
      simp only [set_cons_zero, map_cons, sum_cons]
      omega
    | succ i =>
      have := ih (i := i) (by simpa using h)
      simp only [set_cons_succ, map_cons, sum_cons]
      omega

theorem refs_put (h : s.value a = some v) (x : Nat) :
    (s.put a v').refs x + refersTo (some v) x = s.refs x + refersTo (some v') x :=
  sum_map_set (fun o => refersTo o x) (value_eq_some.mp h)

theorem refs_free (h : s.value a = some v) (x : Nat) : (s.free a).refs x + refersTo (some v) x = s.refs x :=
  sum_map_set (fun o => refersTo o x) (value_eq_some.mp h)

theorem alive_put (h : s.value a = some v) (v' : HeapValue) :
    (s.put a v').alive + aliveOf (some v) = s.alive + aliveOf (some v') :=
  sum_map_set aliveOf (value_eq_some.mp h)

theorem alive_free (h : s.value a = some v) : (s.free a).alive + aliveOf (some v) = s.alive :=
  sum_map_set aliveOf (value_eq_some.mp h)

theorem refersTo_le_refs (h : s.value a = some v) (x : Nat) : refersTo (some v) x ≤ s.refs x := by
  have := refs_free h x
  omega

theorem alive_le (s : Gc) : s.alive ≤ s.heap.length := by
  unfold alive
  induction s.heap with
  | nil => exact le_refl 0
  | cons o rest ih =>
    have one : aliveOf o ≤ 1 := by
      cases o with
      | none => exact Nat.zero_le 1
      | some v =>
        simp only [aliveOf, Option.elim_some]
        split <;> omega
    simp only [map_cons, sum_cons, length_cons]
    omega

end Cells

/-! ## The candidate buffer -/

section Buffer
variable {s : Gc} {a x : Nat} {v v' : HeapValue}

theorem swapRemove_perm {l : List Nat} (h : a ∈ l) : (a :: swapRemove l a).Perm l := by
  obtain ⟨i, found⟩ : ∃ i, l.idxOf? a = some i := by
    cases found : l.idxOf? a with
    | some i => exact ⟨i, rfl⟩
    | none => exact absurd h (idxOf?_eq_none_iff.mp found)
  obtain ⟨lt, at_i, -⟩ := idxOf?_eq_some_iff.mp found
  obtain ⟨m, z, rfl⟩ := eq_nil_or_concat' l |>.resolve_left (ne_nil_of_mem h)
  rw [swapRemove, found]
  simp only [getLastD_concat]
  rw [length_append, length_singleton] at lt
  by_cases last : i = m.length
  · subst last
    have own : z = a := by simpa using at_i
    rw [set_append_right _ _ (le_refl _), Nat.sub_self, set_cons_zero, dropLast_concat, own]
    exact (perm_append_singleton a m).symm
  · have inside : i < m.length := by omega
    rw [getElem_append_left inside] at at_i
    rw [set_append_left _ _ inside, dropLast_concat]
    have filled := set_perm_cons_eraseIdx inside z
    have taken := getElem_cons_eraseIdx_perm inside
    rw [at_i] at taken
    calc (a :: m.set i z).Perm (a :: z :: m.eraseIdx i) := filled.cons a
      _ |>.Perm (z :: a :: m.eraseIdx i) := Perm.swap z a _
      _ |>.Perm (z :: m) := taken.cons z
      _ |>.Perm (m ++ [z]) := (perm_append_singleton z m).symm

theorem BufferOk.put (h : s.BufferOk) (at_a : s.value a = some v) (flag : v'.buffered = v.buffered)
    (type : v'.type = v.type) (real : v.buffered = true → v'.refcnt ≠ 0) : (s.put a v').BufferOk := by
  have lt := lt_of_value at_a
  refine ⟨h.nodup, h.few, fun x => ?_, fun x w at_x on => ?_⟩
  · by_cases same : a = x
    · subst same
      rw [value_put_self lt]
      refine (h.listed a).trans ?_
      simp only [at_a, Option.some.injEq, exists_eq_left', flag]
    · rw [value_put_ne same]
      exact h.listed x
  · by_cases same : a = x
    · subst same
      rw [value_put_self lt] at at_x
      cases at_x
      rw [flag] at on
      refine ⟨real on, ?_⟩
      have container := (h.real a v at_a on).2
      unfold HeapValue.isContainer at container ⊢
      rw [type]
      exact container
    · rw [value_put_ne same] at at_x
      exact h.real x w at_x on

theorem BufferOk.removed {s' : Gc} (h : s.BufferOk) (at_a : s.value a = some v) (on : v.buffered = true)
    (flag : v'.buffered = false) (heap : s'.heap = (s.put a v').heap)
    (candidates : s'.candidates = swapRemove s.candidates a) : s'.BufferOk := by
  have lt := lt_of_value at_a
  have value := value_congr heap
  have perm := swapRemove_perm ((h.listed a).mpr ⟨v, at_a, on⟩)
  rw [← candidates] at perm
  have nodup := perm.nodup_iff.mpr h.nodup
  refine ⟨nodup.of_cons, ?_, fun x => ?_, fun x w at_x on' => ?_⟩
  · have length := perm.length_eq
    have few := h.few
    rw [length_cons] at length
    omega
  · rw [value]
    by_cases same : a = x
    · subst same
      rw [value_put_self lt]
      refine ⟨fun listed => absurd listed (nodup_cons.mp nodup).1, ?_⟩
      rintro ⟨w, e, on'⟩
      cases e
      rw [flag] at on'
      cases on'
    · rw [value_put_ne same, ← h.listed x, ← perm.mem_iff, mem_cons]
      exact (or_iff_right fun e => same e.symm).symm
  · rw [value] at at_x
    by_cases same : a = x
    · subst same
      rw [value_put_self lt] at at_x
      cases at_x
      rw [flag] at on'
      cases on'
    · rw [value_put_ne same] at at_x
      exact h.real x w at_x on'

/-- A value that begins to be destroyed is no candidate any more. -/
theorem BufferOk.dying (h : s.BufferOk) (at_a : s.value a = some v) :
    ((s.put a { v with refcnt := 0 }).unbuffer a).BufferOk ∧
      ((s.put a { v with refcnt := 0 }).unbuffer a).heap =
        (s.put a { v with refcnt := 0, buffered := false }).heap := by
  have lt := lt_of_value at_a
  rw [unbuffer, value_put_self lt]
  simp only
  by_cases on : v.buffered = true
  · have heap : ((s.put a { v with refcnt := 0 }).put a { v with refcnt := 0, buffered := false }).heap =
        (s.put a { v with refcnt := 0, buffered := false }).heap := by
      simp only [Gc.put, set_set]
    rw [if_pos on]
    exact ⟨h.removed at_a on rfl heap rfl, heap⟩
  · have off : v.buffered = false := Bool.eq_false_iff.mpr on
    have same : ({ v with refcnt := 0 } : HeapValue) = { v with refcnt := 0, buffered := false } := by
      rw [← off]
    rw [if_neg on, ← same]
    exact ⟨h.put at_a rfl rfl fun c => absurd c on, rfl⟩

/-- What `pphp_gc_buffer` does: it may set the flag of the value. -/
theorem BufferOk.buffer (h : s.BufferOk) (at_a : s.value a = some v) :
    (s.buffer a).BufferOk ∧
      ((s.buffer a).heap = s.heap ∨ (s.buffer a).heap = (s.put a { v with buffered := true }).heap) := by
  have lt := lt_of_value at_a
  rw [Gc.buffer, at_a]
  simp only
  split
  · exact ⟨h, .inl rfl⟩
  · next wanted =>
    simp only [not_or, Bool.not_eq_true, Bool.not_eq_false] at wanted
    obtain ⟨container, not_zero, -, off, -⟩ := wanted
    have new : a ∉ s.candidates := by
      intro listed
      obtain ⟨w, at_a', on⟩ := (h.listed a).mp listed
      rw [at_a] at at_a'
      cases at_a'
      rw [off] at on
      cases on
    split
    · next room =>
      have value : ∀ x, ({ s.put a { v with buffered := true } with
          candidates := s.candidates ++ [a]
          requested := s.requested || s.candidates.length + 1 == 256 } : Gc).value x =
            (s.put a { v with buffered := true }).value x := fun x => rfl
      refine ⟨⟨?_, ?_, fun x => ?_, fun x w at_x on => ?_⟩, .inr rfl⟩
      · refine nodup_append.mpr ⟨h.nodup, pairwise_singleton _ a, ?_⟩
        intro x hx y hy e
        rw [mem_singleton.mp hy] at e
        rw [e] at hx
        exact new hx
      · simp only [length_append, length_singleton]
        omega
      · rw [value, mem_append, mem_singleton]
        by_cases same : a = x
        · subst same
          rw [value_put_self lt]
          exact iff_of_true (.inr rfl) ⟨_, rfl, rfl⟩
        · rw [value_put_ne same, ← h.listed x]
          exact or_iff_left fun e => same e.symm
      · rw [value] at at_x
        by_cases same : a = x
        · subst same
          rw [value_put_self lt] at at_x
          cases at_x
          exact ⟨not_zero, container⟩
        · rw [value_put_ne same] at at_x
          exact h.real x w at_x on
    · exact ⟨⟨h.nodup, h.few, h.listed, h.real⟩, .inl rfl⟩

theorem BufferOk.free (h : s.BufferOk) (at_a : s.value a = some v) (off : v.buffered = false) :
    (s.free a).BufferOk := by
  refine ⟨h.nodup, h.few, fun x => ?_, fun x w at_x on => ?_⟩
  · by_cases same : a = x
    · subst same
      rw [value_free_self]
      refine (h.listed a).trans ?_
      simp only [at_a, Option.some.injEq, exists_eq_left', off, Bool.false_eq_true, reduceCtorEq, false_and,
        exists_false]
    · rw [value_free_ne same]
      exact h.listed x
  · by_cases same : a = x
    · subst same
      rw [value_free_self] at at_x
      cases at_x
    · rw [value_free_ne same] at at_x
      exact h.real x w at_x on

end Buffer

end Gc
end PhpPico
