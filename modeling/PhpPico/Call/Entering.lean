import PhpPico.Call.Bind
import Mathlib.Data.List.Count
import Mathlib.Tactic.Ring
import Mathlib.Tactic.Linarith

/-!
# What entering a callee leaves

Each step of a call, slot by slot and reference by reference: the slots of the callee hold what they should, and every
reference that was on the stack is still counted once.
-/

namespace PhpPico.Call
open List

namespace Machine

/-- The references of a slot to an address. -/
def owns (v : Slot) (a : Nat) : Int := if v = .heap a then 1 else 0

/-- The references of some slots to an address. -/
def references (cells : List Slot) (a : Nat) : Int := (cells.count (.heap a) : Nat)

@[simp] theorem references_nil (a : Nat) : references [] a = 0 := rfl

@[simp] theorem references_append (l r : List Slot) (a : Nat) :
    references (l ++ r) a = references l a + references r a := by
  simp [references]

@[simp] theorem references_cons (v : Slot) (l : List Slot) (a : Nat) :
    references (v :: l) a = owns v a + references l a := by
  by_cases same : v = .heap a
  · simp [references, owns, same, add_comm]
  · simp [references, owns, same]

@[simp] theorem owns_heap (a b : Nat) : owns (.heap b) a = if a = b then 1 else 0 := by
  by_cases same : a = b
  · simp [owns, same]
  · rw [owns, if_neg, if_neg same]
    exact fun equal => same (Slot.heap.inj equal).symm

theorem references_undefined (n a : Nat) : references (replicate n .undefined) a = 0 := by
  have none : Slot.heap a ∉ replicate n Slot.undefined := by simp
  rw [references, count_eq_zero.mpr none, Nat.cast_zero]

/-! ## Counting -/

section Count
variable (m : Machine) (v : Slot) (change : Int)

@[simp] theorem count_stack : (m.count v change).stack = m.stack := by cases v <;> rfl

@[simp] theorem count_stackCount : (m.count v change).stackCount = m.stackCount := by cases v <;> rfl

@[simp] theorem count_frames : (m.count v change).frames = m.frames := by cases v <;> rfl

@[simp] theorem count_arrays : (m.count v change).arrays = m.arrays := by cases v <;> rfl

theorem count_refcnt (a : Nat) : (m.count v change).refcnt a = m.refcnt a + owns v a * change := by
  cases v with
  | heap address =>
    rw [owns_heap]
    by_cases same : a = address <;> simp [count, same]
  | undefined | scalar => simp [count, owns]

@[simp] theorem retain_stack : (m.retain v).stack = m.stack := count_stack m v 1

@[simp] theorem retain_stackCount : (m.retain v).stackCount = m.stackCount := count_stackCount m v 1

@[simp] theorem retain_frames : (m.retain v).frames = m.frames := count_frames m v 1

@[simp] theorem retain_arrays : (m.retain v).arrays = m.arrays := count_arrays m v 1

@[simp] theorem retain_refcnt (a : Nat) : (m.retain v).refcnt a = m.refcnt a + owns v a := by
  simp [retain, count_refcnt]

@[simp] theorem release_stack : (m.release v).stack = m.stack := count_stack m v (-1)

@[simp] theorem release_stackCount : (m.release v).stackCount = m.stackCount := count_stackCount m v (-1)

@[simp] theorem release_frames : (m.release v).frames = m.frames := count_frames m v (-1)

@[simp] theorem release_arrays : (m.release v).arrays = m.arrays := count_arrays m v (-1)

@[simp] theorem release_refcnt (a : Nat) : (m.release v).refcnt a = m.refcnt a - owns v a := by
  simp [release, count_refcnt, sub_eq_add_neg]

end Count

@[simp] theorem releaseAll_stack (m : Machine) (vs : List Slot) : (m.releaseAll vs).stack = m.stack := by
  induction vs generalizing m with
  | nil => rfl
  | cons v rest ih => simp [releaseAll, ih]

@[simp] theorem releaseAll_stackCount (m : Machine) (vs : List Slot) : (m.releaseAll vs).stackCount = m.stackCount := by
  induction vs generalizing m with
  | nil => rfl
  | cons v rest ih => simp [releaseAll, ih]

@[simp] theorem releaseAll_frames (m : Machine) (vs : List Slot) : (m.releaseAll vs).frames = m.frames := by
  induction vs generalizing m with
  | nil => rfl
  | cons v rest ih => simp [releaseAll, ih]

@[simp] theorem releaseAll_arrays (m : Machine) (vs : List Slot) : (m.releaseAll vs).arrays = m.arrays := by
  induction vs generalizing m with
  | nil => rfl
  | cons v rest ih => simp [releaseAll, ih]

@[simp] theorem releaseAll_refcnt (m : Machine) (vs : List Slot) (a : Nat) :
    (m.releaseAll vs).refcnt a = m.refcnt a - references vs a := by
  induction vs generalizing m with
  | nil => simp [releaseAll]
  | cons v rest ih =>
    simp only [releaseAll, ih, release_refcnt, references_cons]
    ring

/-! ## Cells -/

@[simp] theorem cells_length (m : Machine) (begin count : Nat) : (m.cells begin count).length = count := by simp [cells]

theorem cells_getElem? (m : Machine) (begin count i : Nat) :
    (m.cells begin count)[i]? = if i < count then some (m.stack (begin + i)) else none := by
  by_cases bound : i < count <;> simp [cells, bound]

theorem cells_append (m : Machine) (begin left right : Nat) :
    m.cells begin (left + right) = m.cells begin left ++ m.cells (begin + left) right := by
  simp [cells, range_add, Function.comp_def, add_assoc]

theorem cells_congr {m n : Machine} {begin other count : Nat}
    (same : ∀ i < count, m.stack (begin + i) = n.stack (other + i)) : m.cells begin count = n.cells other count :=
  map_congr_left fun i mem => same i (mem_range.mp mem)

theorem cells_undefined {m : Machine} {begin count : Nat} (none : ∀ i < count, m.stack (begin + i) = .undefined) :
    m.cells begin count = replicate count .undefined := by
  refine ext_getElem? fun i => ?_
  rw [cells_getElem?, getElem?_replicate]
  split
  · rw [none i ‹_›]
  · rfl

theorem cells_eq {m : Machine} {begin : Nat} {l : List Slot}
    (holds : ∀ i v, l[i]? = some v → m.stack (begin + i) = v) : m.cells begin l.length = l := by
  refine ext_getElem? fun i => ?_
  rw [cells_getElem?]
  split
  · rename_i bound
    rw [holds i l[i] (getElem?_eq_getElem bound), getElem?_eq_getElem bound]
  · rw [getElem?_eq_none (by omega)]

theorem cells_set (m : Machine) (begin count position : Nat) (v : Slot) (inside : begin ≤ position) :
    (m.set position v).cells begin count = (m.cells begin count).set (position - begin) v := by
  refine ext_getElem? fun i => ?_
  rw [cells_getElem?, getElem?_set, cells_getElem?, cells_length]
  by_cases here : position - begin = i
  · have at_i : begin + i = position := by omega
    by_cases bound : i < count <;> simp [set, here, bound, at_i]
  · have elsewhere : begin + i ≠ position := by omega
    simp [set, here, elsewhere]

end Machine

open Machine

/-! ## The list of a variadic parameter -/

theorem pushRest_kept (memory : Memory) (address i : Nat) (extra : List Slot) (m : Machine) :
    (pushRest memory address i extra m).1.stack = m.stack ∧
      (pushRest memory address i extra m).1.stackCount = m.stackCount ∧
      (pushRest memory address i extra m).1.frames = m.frames := by
  induction extra generalizing i m with
  | nil => exact ⟨rfl, rfl, rfl⟩
  | cons v rest ih =>
    unfold pushRest
    split
    · simpa [push] using ih (i + 1) (m.push address v)
    · simp [freeArray]

/-- Where every element finds room, the array holds them all and each reference is counted. -/
theorem pushRest_stored {memory : Memory} {address i : Nat} {extra : List Slot} {m : Machine}
    (stored : (pushRest memory address i extra m).2 = true) :
    (pushRest memory address i extra m).1.arrays address = m.arrays address ++ extra ∧
      ∀ a, (pushRest memory address i extra m).1.refcnt a = m.refcnt a + references extra a := by
  induction extra generalizing i m with
  | nil => simp [pushRest]
  | cons v rest ih =>
    unfold pushRest at stored ⊢
    split at stored
    · rename_i room
      rw [if_pos room]
      obtain ⟨elements, counts⟩ := ih stored
      refine ⟨by rw [elements]; simp [push], fun a => ?_⟩
      rw [counts a, references_cons]
      simp only [push, retain_refcnt]
      ring
    · cases stored

/-- Where one does not, an element had no room, and the array gives up what it had. -/
theorem pushRest_failed {memory : Memory} {address i : Nat} {extra : List Slot} {m : Machine}
    (failed : (pushRest memory address i extra m).2 = false) : (∃ j < extra.length, memory.push (i + j) = false) ∧
      ∀ a, (pushRest memory address i extra m).1.refcnt a =
        m.refcnt a - owns (.heap address) a - references (m.arrays address) a := by
  induction extra generalizing i m with
  | nil => cases failed
  | cons v rest ih =>
    unfold pushRest at failed ⊢
    split at failed
    · rename_i room
      rw [if_pos room]
      obtain ⟨⟨j, bound, none⟩, counts⟩ := ih failed
      refine ⟨⟨j + 1, by simpa using bound, by rwa [add_right_comm] at none⟩, fun a => ?_⟩
      rw [counts a]
      simp only [push, retain_refcnt, if_true, references_append, references_cons, references_nil]
      ring
    · rename_i full
      rw [if_neg full]
      refine ⟨⟨0, by simp, by simpa using full⟩, fun a => ?_⟩
      simp [freeArray]

/-! ## The slots -/

section Lay
variable (m : Machine) (c : Callable) (targetBase argumentBase argumentCount localOffset : Nat) (rest : Option Nat)

/-- What `layArguments` writes into each slot. -/
theorem layArguments_stack (i : Nat) :
    (layArguments m c targetBase argumentBase argumentCount localOffset rest).stack i =
      let first := targetBase + localOffset
      if first + c.nParams ≤ i ∧ i < first + c.nParams + (c.locals.length - (localOffset + c.nParams)) then .undefined
      else if rest.isSome ∧ i = first + c.fixedCount then .heap (rest.getD 0)
      else if first + min argumentCount c.fixedCount ≤ i ∧ i < first + c.fixedCount then .undefined
      else if first ≤ i ∧ i < first + min argumentCount c.fixedCount then m.stack (argumentBase + (i - first))
      else m.stack i := by
  have supplied :
      (if argumentCount < c.fixedCount then argumentCount else c.fixedCount) = min argumentCount c.fixedCount := by
    split <;> omega
  have filled :
      targetBase + localOffset + min argumentCount c.fixedCount + (c.fixedCount - min argumentCount c.fixedCount) =
        targetBase + localOffset + c.fixedCount := by omega
  simp only [layArguments, supplied, clear, move]
  cases rest with
  | none => simp [filled]
  | some address => simp [filled, Machine.set]

theorem layArguments_refcnt (a : Nat) :
    (layArguments m c targetBase argumentBase argumentCount localOffset rest).refcnt a =
      m.refcnt a - references (m.cells (argumentBase + c.fixedCount) (argumentCount - c.fixedCount)) a := by
  cases rest <;> simp [layArguments, clear, move, Machine.set]

@[simp] theorem layArguments_frames :
    (layArguments m c targetBase argumentBase argumentCount localOffset rest).frames = m.frames := by
  cases rest <;> simp [layArguments, clear, move, Machine.set]

@[simp] theorem layArguments_arrays :
    (layArguments m c targetBase argumentBase argumentCount localOffset rest).arrays = m.arrays := by
  cases rest <;> simp [layArguments, clear, move, Machine.set]

end Lay

/-! ## Captured values -/

theorem putCaptures_kept (position : Nat) (captured : List Slot) (m : Machine) :
    (putCaptures position captured m).stackCount = m.stackCount ∧
      (putCaptures position captured m).frames = m.frames ∧ (putCaptures position captured m).arrays = m.arrays := by
  induction captured generalizing position m with
  | nil => exact ⟨rfl, rfl, rfl⟩
  | cons v rest ih => simpa [putCaptures, Machine.set] using ih (position + 1) ((m.set position v).retain v)

theorem putCaptures_refcnt (position : Nat) (captured : List Slot) (m : Machine) (a : Nat) :
    (putCaptures position captured m).refcnt a = m.refcnt a + references captured a := by
  induction captured generalizing position m with
  | nil => simp [putCaptures]
  | cons v rest ih =>
    simp only [putCaptures, ih, retain_refcnt, references_cons]
    simp only [Machine.set]
    ring

/-- The captured values stand one behind the other, and every other slot is kept. -/
theorem putCaptures_stack (position : Nat) (captured : List Slot) (m : Machine) (i : Nat) :
    (putCaptures position captured m).stack i =
      if position ≤ i then captured.getD (i - position) (m.stack i) else m.stack i := by
  induction captured generalizing position m with
  | nil => simp [putCaptures]
  | cons v rest ih =>
    rw [putCaptures, ih]
    by_cases here : i = position
    · simp [here, Machine.set]
    · by_cases behind : position + 1 ≤ i
      · have next : i - position = i - (position + 1) + 1 := by omega
        rw [if_pos behind, if_pos (by omega), next]
        simp [Machine.set, here]
      · rw [if_neg behind, if_neg (by omega)]
        simp [Machine.set, here]

/-! ## Binding -/

/-- The arguments of a variadic parameter. -/
def extraArguments (m : Machine) (c : Callable) (argumentBase argumentCount : Nat) : List Slot :=
  m.cells (argumentBase + c.fixedCount) (argumentCount - c.fixedCount)

/-- Two machines with the same stack, frames and counts. -/
structure Unchanged (before m : Machine) : Prop where
  stack : m.stack = before.stack
  stackCount : m.stackCount = before.stackCount
  frames : m.frames = before.frames
  refcnt : ∀ a, m.refcnt a = before.refcnt a

theorem Unchanged.refl (m : Machine) : Unchanged m m := ⟨rfl, rfl, rfl, fun _ => rfl⟩

/-- What is scarce where a call finds no room. -/
inductive Scarce (memory : Memory) (c : Callable) (targetBase argumentCount : Nat) : Prop where
  | slots (full : stackSlots ≤ targetBase + c.locals.length)
  | list (variadic : c.variadic = true) (none : memory.rest = none)
  | element (variadic : c.variadic = true) (i : Nat) (bound : i < argumentCount) (none : memory.push i = false)

section Bind
variable {memory : Memory} {before m : Machine} {c : Callable} {targetBase argumentBase argumentCount localOffset : Nat}

/-- **Arguments that are not bound are left alone**, for want of slots or memory. -/
theorem bindArguments_raised {text : List UInt8}
    (raised : bindArguments memory before c targetBase argumentBase argumentCount localOffset = .raised text m)
    (room : localOffset + c.nParams ≤ c.locals.length) (params : c.variadic = true → c.nParams ≠ 0) :
    Unchanged before m ∧ Scarce memory c targetBase argumentCount := by
  unfold bindArguments at raised
  split at raised
  · rename_i invalid
    exact absurd invalid.2 (params invalid.1)
  split at raised
  · rename_i full
    cases raised
    exact ⟨.refl _, .slots (full.resolve_right (by omega))⟩
  split at raised
  · rename_i variadic
    split at raised
    · rename_i none
      cases raised
      exact ⟨.refl _, .list variadic none⟩
    · rename_i address some
      dsimp only at raised
      split at raised
      · rename_i after failed
        cases raised
        obtain ⟨stack, stackCount, frames⟩ := pushRest_kept memory address 0
          (before.cells (argumentBase + c.fixedCount) (argumentCount - c.fixedCount)) (before.newArray address)
        obtain ⟨⟨i, bound, none⟩, counts⟩ := pushRest_failed (congrArg Prod.snd failed)
        rw [failed] at stack stackCount frames counts
        refine ⟨⟨?_, ?_, ?_, fun a => ?_⟩, .element variadic i ?_ (by simpa using none)⟩
        · simpa [newArray] using stack
        · simpa [newArray] using stackCount
        · simpa [newArray] using frames
        · rw [counts a]
          simp [newArray]
        · rw [cells_length] at bound
          omega
      · cases raised
  · cases raised

/-- Bound arguments are laid out with the list of a variadic parameter made. -/
theorem bindArguments_entered
    (entered : bindArguments memory before c targetBase argumentBase argumentCount localOffset = .entered m) :
    ∃ rest collected, m = layArguments collected c targetBase argumentBase argumentCount localOffset rest ∧
      rest.isSome = c.variadic ∧ collected.stack = before.stack ∧ collected.stackCount = before.stackCount ∧
      collected.frames = before.frames ∧ (∀ address, rest = some address → memory.rest = some address ∧
        collected.arrays address = extraArguments before c argumentBase argumentCount) ∧
      ∀ a, collected.refcnt a = before.refcnt a + references (rest.toList.map .heap) a +
        references (if c.variadic then extraArguments before c argumentBase argumentCount else []) a := by
  unfold bindArguments at entered
  split at entered
  · cases entered
  split at entered
  · cases entered
  split at entered
  · rename_i variadic
    split at entered
    · cases entered
    · rename_i address some
      dsimp only at entered
      split at entered
      · cases entered
      · rename_i after stored
        cases entered
        obtain ⟨stack, stackCount, frames⟩ := pushRest_kept memory address 0
          (extraArguments before c argumentBase argumentCount) (before.newArray address)
        obtain ⟨elements, counts⟩ := pushRest_stored (congrArg Prod.snd stored)
        rw [extraArguments, stored] at stack stackCount frames
        rw [stored] at elements counts
        refine ⟨_, after, rfl, variadic.symm, ?_, ?_, ?_, ?_, fun a => ?_⟩
        · simpa [newArray] using stack
        · simpa [newArray] using stackCount
        · simpa [newArray] using frames
        · intro other same
          cases same
          exact ⟨some, by simpa [newArray, extraArguments] using elements⟩
        · rw [counts a, if_pos variadic]
          simp [newArray, extraArguments]
  · rename_i fixed
    cases entered
    refine ⟨none, before, rfl, ?_, rfl, rfl, rfl, ?_, fun a => by simp [fixed]⟩
    · simpa using fixed
    · intro address same
      cases same

end Bind

/-! ## Entering -/

/-- What the members of the family have in common: what stands below the arguments is either kept or given up, the
arguments are on top of the stack, and the callee has its slots. -/
structure Entry.Fits (e : Entry) (before : Machine) (c : Callable) : Prop where
  heads : before.cells e.targetBase (e.argumentBase - e.targetBase) =
    before.cells e.targetBase e.localOffset ++ e.callable.toList
  top : e.argumentBase + e.argumentCount = before.stackCount
  offset : e.targetBase + e.localOffset ≤ e.argumentBase
  room : e.localOffset + c.nParams + e.captured.length ≤ c.locals.length
  captured : e.captured = [] ∨ e.localOffset = 0
  params : c.variadic = true → c.nParams ≠ 0

/-- A callee that is entered: its slots, the frame, and the references. -/
structure Entered (memory : Memory) (before : Machine) (c : Callable) (e : Entry) (m : Machine) : Prop where
  below : ∀ i < e.targetBase + e.localOffset, m.stack i = before.stack i
  supplied : ∀ k < e.argumentCount, k < c.fixedCount →
    m.stack (e.targetBase + e.localOffset + k) = before.stack (e.argumentBase + k)
  missing : ∀ k, e.argumentCount ≤ k → k < c.fixedCount → m.stack (e.targetBase + e.localOffset + k) = .undefined
  rest : c.variadic = true → ∃ address, memory.rest = some address ∧
    m.stack (e.targetBase + e.localOffset + c.fixedCount) = .heap address ∧
    m.arrays address = extraArguments before c e.argumentBase e.argumentCount
  captured : ∀ j v, e.captured[j]? = some v → m.stack (e.targetBase + c.nParams + j) = v
  others : ∀ i, e.targetBase + e.localOffset + c.nParams + e.captured.length ≤ i →
    i < e.targetBase + c.locals.length → m.stack i = .undefined
  stackCount : m.stackCount = e.targetBase + c.locals.length
  frames : m.frames = ⟨c, e.targetBase, e.argumentCount, e.returnOverride⟩ :: before.frames
  owned : ∀ a, m.refcnt a + references (before.cells e.targetBase (before.stackCount - e.targetBase)) a =
      before.refcnt a + references (m.cells e.targetBase c.locals.length) a +
        references (if c.variadic then extraArguments before c e.argumentBase e.argumentCount else []) a +
        references e.returnOverride.toList a

theorem fixedCount_le (c : Callable) : c.fixedCount ≤ c.nParams := by
  unfold Callable.fixedCount
  split <;> omega

theorem fixedCount_of_variadic {c : Callable} (variadic : c.variadic = true) (params : c.nParams ≠ 0) :
    c.fixedCount + 1 = c.nParams := by
  rw [Callable.fixedCount, if_pos variadic]
  omega

theorem fixedCount_of_not {c : Callable} (fixed : c.variadic = false) : c.fixedCount = c.nParams := by
  rw [Callable.fixedCount, if_neg (by simp [fixed])]

section Slots
variable {collected : Machine} {c : Callable} {e : Entry} {rest : Option Nat}

/-- The stack of an entered callee: the captured values over what `layArguments` wrote. -/
def enteredStack (collected : Machine) (c : Callable) (e : Entry) (rest : Option Nat) : Nat → Slot :=
  (putCaptures (e.targetBase + c.nParams) e.captured
    (layArguments collected c e.targetBase e.argumentBase e.argumentCount e.localOffset rest)).stack

theorem enteredStack_parameter (captured : e.captured = [] ∨ e.localOffset = 0) {i : Nat}
    (inside : i < e.targetBase + e.localOffset + c.nParams) : enteredStack collected c e rest i =
      (layArguments collected c e.targetBase e.argumentBase e.argumentCount e.localOffset rest).stack i := by
  rw [enteredStack, putCaptures_stack]
  cases captured with
  | inl none => simp [none]
  | inr offset => rw [if_neg (by omega)]

theorem enteredStack_below (captured : e.captured = [] ∨ e.localOffset = 0) {i : Nat}
    (below : i < e.targetBase + e.localOffset) : enteredStack collected c e rest i = collected.stack i := by
  rw [enteredStack_parameter captured (by omega), layArguments_stack]
  rw [if_neg (by omega), if_neg (by omega), if_neg (by omega), if_neg (by omega)]

theorem enteredStack_supplied (captured : e.captured = [] ∨ e.localOffset = 0) {k : Nat} (given : k < e.argumentCount)
    (bound : k < c.fixedCount) :
    enteredStack collected c e rest (e.targetBase + e.localOffset + k) = collected.stack (e.argumentBase + k) := by
  have fixed := fixedCount_le c
  rw [enteredStack_parameter captured (by omega), layArguments_stack]
  rw [if_neg (by omega), if_neg (by omega), if_neg (by omega), if_pos (by omega)]
  congr 1
  omega

theorem enteredStack_missing (captured : e.captured = [] ∨ e.localOffset = 0) {k : Nat} (absent : e.argumentCount ≤ k)
    (bound : k < c.fixedCount) : enteredStack collected c e rest (e.targetBase + e.localOffset + k) = .undefined := by
  have fixed := fixedCount_le c
  rw [enteredStack_parameter captured (by omega), layArguments_stack]
  rw [if_neg (by omega), if_neg (by omega), if_pos (by omega)]

theorem enteredStack_rest (captured : e.captured = [] ∨ e.localOffset = 0) {address : Nat}
    (params : c.fixedCount + 1 = c.nParams) :
    enteredStack collected c e (some address) (e.targetBase + e.localOffset + c.fixedCount) = .heap address := by
  rw [enteredStack_parameter captured (by omega), layArguments_stack]
  rw [if_neg (by omega), if_pos (by simp)]
  rfl

theorem enteredStack_captured {j : Nat} {v : Slot} (get : e.captured[j]? = some v) :
    enteredStack collected c e rest (e.targetBase + c.nParams + j) = v := by
  rw [enteredStack, putCaptures_stack, if_pos (by omega), Nat.add_sub_cancel_left, getD_eq_getElem?_getD, get]
  rfl

theorem enteredStack_others {i : Nat} (room : e.localOffset + c.nParams + e.captured.length ≤ c.locals.length)
    (behind : e.targetBase + e.localOffset + c.nParams + e.captured.length ≤ i)
    (bound : i < e.targetBase + c.locals.length) : enteredStack collected c e rest i = .undefined := by
  have laid :
      (layArguments collected c e.targetBase e.argumentBase e.argumentCount e.localOffset rest).stack i =
        .undefined := by
    rw [layArguments_stack]
    rw [if_pos (by omega)]
  rw [enteredStack, putCaptures_stack]
  split
  · rw [getD_eq_getElem?_getD, getElem?_eq_none (by omega), Option.getD_none, laid]
  · exact laid

end Slots

/-- The references of the slots of an entered callee: below the parameters, the arguments that are no extra ones, the
list, and the captured values. -/
theorem enteredStack_references {before m collected : Machine} {c : Callable} {e : Entry} {rest : Option Nat}
    (fits : e.Fits before c) (stack : m.stack = enteredStack collected c e rest)
    (kept : collected.stack = before.stack) (variadic : rest.isSome = c.variadic) (a : Nat) :
    references (m.cells e.targetBase c.locals.length) a = references (before.cells e.targetBase e.localOffset) a +
        references (before.cells e.argumentBase (min e.argumentCount c.fixedCount)) a +
        references (rest.toList.map .heap) a + references e.captured a := by
  have fixed := fixedCount_le c
  have room := fits.room
  have split : c.locals.length = e.localOffset + (min e.argumentCount c.fixedCount +
      ((c.fixedCount - min e.argumentCount c.fixedCount) + ((c.nParams - c.fixedCount) +
        (e.captured.length + (c.locals.length - (e.localOffset + c.nParams + e.captured.length)))))) := by omega
  have below : m.cells e.targetBase e.localOffset = before.cells e.targetBase e.localOffset :=
    cells_congr fun i bound => by rw [stack, enteredStack_below fits.captured (by omega), kept]
  have supplied :
      m.cells (e.targetBase + e.localOffset) (min e.argumentCount c.fixedCount) =
        before.cells e.argumentBase (min e.argumentCount c.fixedCount) :=
    cells_congr fun i bound => by rw [stack, enteredStack_supplied fits.captured (by omega) (by omega), kept]
  have missing :
      m.cells (e.targetBase + e.localOffset + min e.argumentCount c.fixedCount)
        (c.fixedCount - min e.argumentCount c.fixedCount) = replicate _ .undefined :=
    cells_undefined fun i bound => by
      rw [stack, add_assoc, enteredStack_missing fits.captured (by omega) (by omega)]
  have list : m.cells (e.targetBase + e.localOffset + c.fixedCount) (c.nParams - c.fixedCount) =
      rest.toList.map .heap := by
    cases rest with
    | none =>
      have same := fixedCount_of_not variadic.symm
      simp [same, cells]
    | some address =>
      have params := fixedCount_of_variadic variadic.symm (fits.params variadic.symm)
      have one : c.nParams - c.fixedCount = 1 := by omega
      simp [one, cells, stack, enteredStack_rest fits.captured params]
  have captured : m.cells (e.targetBase + e.localOffset + c.nParams) e.captured.length = e.captured := by
    cases fits.captured with
    | inl none => simp [none, cells]
    | inr offset =>
      rw [offset, add_zero]
      exact cells_eq fun j v get => by rw [stack, enteredStack_captured get]
  have others :
      m.cells (e.targetBase + e.localOffset + c.nParams + e.captured.length)
        (c.locals.length - (e.localOffset + c.nParams + e.captured.length)) = replicate _ .undefined :=
    cells_undefined fun i bound => by rw [stack, enteredStack_others room (by omega) (by omega)]
  have upToFixed : e.targetBase + e.localOffset + min e.argumentCount c.fixedCount +
      (c.fixedCount - min e.argumentCount c.fixedCount) = e.targetBase + e.localOffset + c.fixedCount := by omega
  have upToParams : e.targetBase + e.localOffset + c.fixedCount + (c.nParams - c.fixedCount) =
      e.targetBase + e.localOffset + c.nParams := by omega
  rw [split]
  simp only [cells_append, references_append, below, supplied, missing, upToFixed, list, upToParams, captured, others,
    references_undefined]
  ring

theorem Entry.Fits.references {before : Machine} {c : Callable} {e : Entry} (fits : e.Fits before c) (a : Nat) :
    references (before.cells e.targetBase (before.stackCount - e.targetBase)) a =
      references (before.cells e.targetBase e.localOffset) a + references e.callable.toList a +
        references (before.cells e.argumentBase (min e.argumentCount c.fixedCount)) a +
        references (extraArguments before c e.argumentBase e.argumentCount) a := by
  have top := fits.top
  have offset := fits.offset
  have parts : before.stackCount - e.targetBase = (e.argumentBase - e.targetBase) + (min e.argumentCount c.fixedCount +
      (e.argumentCount - c.fixedCount)) := by omega
  have base : e.targetBase + (e.argumentBase - e.targetBase) = e.argumentBase := by omega
  have extra :
      before.cells (e.argumentBase + min e.argumentCount c.fixedCount) (e.argumentCount - c.fixedCount) =
        extraArguments before c e.argumentBase e.argumentCount := by
    by_cases more : c.fixedCount ≤ e.argumentCount
    · rw [min_eq_right more, extraArguments]
    · have none : e.argumentCount - c.fixedCount = 0 := by omega
      simp [extraArguments, none, cells]
  rw [parts, cells_append, cells_append, fits.heads, base, extra]
  simp only [references_append]
  ring

section Frame
variable (m : Machine) (c : Callable) (e : Entry)

theorem pushFrame_stack : (pushFrame m c e).stack = (putCaptures (e.targetBase + c.nParams) e.captured m).stack := by
  unfold pushFrame
  cases e.returnOverride <;> cases e.callable <;> simp

theorem pushFrame_arrays : (pushFrame m c e).arrays = m.arrays := by
  have kept := (putCaptures_kept (e.targetBase + c.nParams) e.captured m).2.2
  unfold pushFrame
  cases e.returnOverride <;> cases e.callable <;> simpa using kept

theorem pushFrame_refcnt (a : Nat) :
    (pushFrame m c e).refcnt a = m.refcnt a + references e.captured a - references e.callable.toList a +
      references e.returnOverride.toList a := by
  unfold pushFrame
  cases e.returnOverride <;> cases e.callable <;> simp [putCaptures_refcnt]

end Frame

/-- **A call either leaves everything as it was, for want of arguments or room, or enters its callee.** -/
theorem enter_spec (memory : Memory) {before : Machine} {c : Callable} {e : Entry} (fits : e.Fits before c)
    (full : Bool) (tooFew overflow : List UInt8) :
    match enter memory before c e full tooFew overflow with
    | .raised _ m => Unchanged before m ∧
        (e.argumentCount < c.nRequired ∨ full = true ∨ Scarce memory c e.targetBase e.argumentCount)
    | .entered m => c.nRequired ≤ e.argumentCount ∧ Entered memory before c e m := by
  have room := fits.room
  unfold enter
  by_cases few : e.argumentCount < c.nRequired
  · rw [if_pos few]
    exact ⟨.refl _, .inl few⟩
  by_cases noRoom : full = true
  · rw [if_neg few, if_pos noRoom]
    exact ⟨.refl _, .inr (.inl noRoom)⟩
  rw [if_neg few, if_neg noRoom]
  cases bound : bindArguments memory before c e.targetBase e.argumentBase e.argumentCount e.localOffset with
  | raised text m =>
    obtain ⟨same, scarce⟩ := bindArguments_raised bound (by omega) fits.params
    exact ⟨same, .inr (.inr scarce)⟩
  | entered laid =>
    obtain ⟨rest, collected, rfl, variadic, kept, stackCount, frames, elements, counts⟩ := bindArguments_entered bound
    refine ⟨by omega, ?_⟩
    have stack := pushFrame_stack
      (layArguments collected c e.targetBase e.argumentBase e.argumentCount e.localOffset rest) c e
    generalize made : pushFrame
      (layArguments collected c e.targetBase e.argumentBase e.argumentCount e.localOffset rest) c e = m at stack
    replace stack : m.stack = enteredStack collected c e rest := stack
    refine ⟨fun i bound => ?_, fun k given bound => ?_, fun k absent bound => ?_, fun list => ?_, fun j v get => ?_,
      fun i behind bound => ?_, ?_, ?_, fun a => ?_⟩
    · rw [stack, enteredStack_below fits.captured bound, kept]
    · rw [stack, enteredStack_supplied fits.captured given bound, kept]
    · rw [stack, enteredStack_missing fits.captured absent bound]
    · obtain ⟨address, rfl⟩ := Option.isSome_iff_exists.mp (variadic.trans list)
      refine ⟨address, (elements address rfl).1, ?_, ?_⟩
      · rw [stack, enteredStack_rest fits.captured (fixedCount_of_variadic list (fits.params list))]
      · rw [← made, pushFrame_arrays, layArguments_arrays, (elements address rfl).2]
    · rw [stack, enteredStack_captured get]
    · rw [stack, enteredStack_others room behind bound]
    · rw [← made]
      rfl
    · rw [← made, pushFrame, layArguments_frames, frames]
    · have counted := counts a
      rw [fits.references a, enteredStack_references fits stack kept variadic a, ← made, pushFrame_refcnt,
        layArguments_refcnt, counted, cells_congr (n := before) (fun i _ => by rw [kept]), ← extraArguments]
      ring

end PhpPico.Call
