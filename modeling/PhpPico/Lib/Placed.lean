import Mathlib.Logic.Function.Basic
import Mathlib.Tactic.Common

/-!
# Code whose variables have places

Code of instructions that jump forward only. An instruction reads some variables and may write one; a run says at
which place of a memory each variable is. Runs at different places go the same way when both memories hold the same in
the variables read, and touch no place but those of variables written.
-/

namespace Placed

variable {I L C V P Q σ ε : Type}

/-- What an instruction leaves: what goes into the variable it writes, the operands, the world, and how many
instructions are jumped over. -/
structure Effect (C V σ : Type) where
  stored : Option C
  operands : List V
  world : σ
  skip : Nat

/-- Instructions `I` over variables `L`: a variable is a cell of memory, from which a value is fetched. -/
structure Language (I L C V σ ε : Type) where
  reads : I → List L
  writes : I → Option L
  fetch : C → V
  act : I → List V → List V → σ → Except ε (Effect C V σ)

namespace Language
variable (lang : Language I L C V σ ε)

/-- The variables that code reads. -/
def readBy (code : List I) : List L := code.flatMap lang.reads

/-- The variables that code writes. -/
def writtenBy (code : List I) : List L := code.filterMap lang.writes

/-- The memory behind an instruction. -/
def store [DecidableEq P] (place : L → P) (i : I) (stored : Option C) (cells : P → C) : P → C :=
  match lang.writes i, stored with
  | some l, some c => Function.update cells (place l) c
  | _, _ => cells

/-- The values that an instruction reads. -/
def inputs (place : L → P) (i : I) (cells : P → C) : List V :=
  (lang.reads i).map fun l => lang.fetch (cells (place l))

/-- Runs code from behind the instructions that are jumped over: the operands and the world in the end, or an
error, and the memory. -/
def run [DecidableEq P] (place : L → P) : Nat → List I → (P → C) → List V → σ → Except ε (List V × σ) × (P → C)
  | _, [], cells, operands, world => (.ok (operands, world), cells)
  | skip + 1, _ :: rest, cells, operands, world => run place skip rest cells operands world
  | 0, i :: rest, cells, operands, world =>
    match lang.act i (lang.inputs place i cells) operands world with
    | .error e => (.error e, cells)
    | .ok effect =>
      run place effect.skip rest (lang.store place i effect.stored cells) effect.operands effect.world

/-- Two memories with the same in some variables. -/
def Same (names : L → Prop) (place : L → P) (cells : P → C) (place' : L → Q) (cells' : Q → C) : Prop :=
  ∀ l, names l → lang.fetch (cells (place l)) = lang.fetch (cells' (place' l))

section Run
variable {lang} {names : L → Prop} {place : L → P} {place' : L → Q} {cells : P → C} {cells' : Q → C}

theorem Same.inputs (same : lang.Same names place cells place' cells') {i : I} (reads : ∀ l ∈ lang.reads i, names l) :
    lang.inputs place i cells = lang.inputs place' i cells' :=
  List.map_congr_left fun l mem => same l (reads l mem)

theorem mem_writtenBy_cons {i : I} {rest : List I} {w : L} (mem : w ∈ lang.writtenBy rest) :
    w ∈ lang.writtenBy (i :: rest) := by
  obtain ⟨j, later, written⟩ := List.mem_filterMap.mp mem
  exact List.mem_filterMap.mpr ⟨j, .tail _ later, written⟩

theorem mem_readBy_cons {i : I} {rest : List I} {l : L} (mem : l ∈ lang.readBy rest) : l ∈ lang.readBy (i :: rest) := by
  obtain ⟨j, later, read⟩ := List.mem_flatMap.mp mem
  exact List.mem_flatMap.mpr ⟨j, .tail _ later, read⟩

variable [DecidableEq P] [DecidableEq Q]

/-- Storing into one variable keeps memories the same, when no other variable shares its place. -/
theorem Same.store (same : lang.Same names place cells place' cells') {i : I} (stored : Option C)
    (apart : ∀ l w, names l → lang.writes i = some w → place l = place w → l = w)
    (apart' : ∀ l w, names l → lang.writes i = some w → place' l = place' w → l = w) :
    lang.Same names place (lang.store place i stored cells) place' (lang.store place' i stored cells') := by
  intro l mem
  unfold Language.store
  cases written : lang.writes i with
  | none => exact same l mem
  | some w =>
    cases stored with
    | none => exact same l mem
    | some c =>
      by_cases here : l = w
      · subst here
        simp
      · have there : place l ≠ place w := fun clash => here (apart l w mem written clash)
        have there' : place' l ≠ place' w := fun clash => here (apart' l w mem written clash)
        simp only [Function.update_of_ne there, Function.update_of_ne there']
        exact same l mem

/-- **Where the variables are makes no difference**, as long as none that is read shares its place with one that is
written. -/
theorem run_same {code : List I} (reads : ∀ l ∈ lang.readBy code, names l)
    (apart : ∀ l w, names l → w ∈ lang.writtenBy code → place l = place w → l = w)
    (apart' : ∀ l w, names l → w ∈ lang.writtenBy code → place' l = place' w → l = w)
    (same : lang.Same names place cells place' cells') (skip : Nat) (operands : List V) (world : σ) :
    (lang.run place skip code cells operands world).1 = (lang.run place' skip code cells' operands world).1 := by
  induction code generalizing skip cells cells' operands world with
  | nil => cases skip <;> rfl
  | cons i rest ih =>
    have following (cells : P → C) (cells' : Q → C) := @ih cells cells' (fun l mem => reads l (mem_readBy_cons mem))
      (fun l w mem write => apart l w mem (mem_writtenBy_cons write))
      (fun l w mem write => apart' l w mem (mem_writtenBy_cons write))
    cases skip with
    | succ skip => exact following cells cells' same skip operands world
    | zero =>
      have own (w : L) (write : lang.writes i = some w) : w ∈ lang.writtenBy (i :: rest) :=
        List.mem_filterMap.mpr ⟨i, .head _, write⟩
      have inputs := same.inputs fun l mem => reads l (List.mem_flatMap.mpr ⟨i, .head _, mem⟩)
      unfold run
      rw [inputs]
      cases lang.act i (lang.inputs place' i cells') operands world with
      | error e => rfl
      | ok effect =>
        exact following _ _
          (same.store effect.stored (fun l w mem write => apart l w mem (own w write))
            fun l w mem write => apart' l w mem (own w write))
          effect.skip effect.operands effect.world

/-- **A run changes no place but those of the variables it writes.** -/
theorem run_elsewhere {code : List I} {p : P} (elsewhere : ∀ w ∈ lang.writtenBy code, place w ≠ p) (skip : Nat)
    (operands : List V) (world : σ) : (lang.run place skip code cells operands world).2 p = cells p := by
  induction code generalizing skip cells operands world with
  | nil => cases skip <;> rfl
  | cons i rest ih =>
    have following (cells : P → C) := @ih cells (fun w mem => elsewhere w (mem_writtenBy_cons mem))
    cases skip with
    | succ skip => exact following cells skip operands world
    | zero =>
      unfold run
      cases lang.act i (lang.inputs place i cells) operands world with
      | error e => rfl
      | ok effect =>
        refine (following _ effect.skip effect.operands effect.world).trans ?_
        unfold store
        cases written : lang.writes i with
        | none => rfl
        | some w =>
          have away := elsewhere w (List.mem_filterMap.mpr ⟨i, .head _, written⟩)
          cases effect.stored with
          | none => rfl
          | some c => exact Function.update_of_ne away.symm _ _

end Run

end Language

end Placed
