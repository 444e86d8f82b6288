import PhpPico.Lib.Reaching
import Mathlib.Data.Fintype.Card

/-!
# Which classes are reachable

`reachability_build` marks the classes and the containers that the roots of a state lead to, in two queues that are
drained in turn until nothing is left in either. **What is marked is what the roots lead to** over parents,
interfaces, the values of classes, and what is in arrays, slots and closures.
-/

namespace PhpPico.UserClasses
open List

/-! ## States -/

section Graph
variable (n m : Nat)

/-- A value: the array, object or closure it is, if it is one. -/
abbrev PValue := Option (Fin n)

/-- The entries of a `parray`; an entry whose key is null is a hole. -/
abbrev Table := List (Option (PValue n × PValue n))

/-- `pproperty`: the class that declares it and the default. -/
structure PProperty where
  owner : Fin m
  defaultValue : PValue n

/-- `pclass`. -/
structure PClass where
  parent : Option (Fin m)
  interfaces : List (Fin m)
  properties : List (PProperty n m)
  staticProperties : Table n
  constants : Table n
  persistent : Bool

/-- An array, an object with the callback in its `gpio_data`, or a closure. -/
inductive Container where
  | array (entries : Table n)
  | object (classEntry : Fin m) (slots : List (PValue n)) (callback : PValue n)
  | closure (calledScope calledClass : Option (Fin m)) (captures : List (PValue n))

/-- `pframe`. -/
structure PFrame where
  calledScope : Option (Fin m)
  calledClass : Option (Fin m)
  returnOverride : Option (PValue n)

end Graph

/-- The classes that a class has above it. -/
def PClass.supers {n m : Nat} (c : PClass n m) : List (Fin m) := c.parent.toList ++ c.interfaces

/-- Each class stands behind those above it. -/
def Ordered {m : Nat} (supers : Fin m → List (Fin m)) (table : List (Fin m)) : Prop :=
  ∀ before c after, table = before ++ c :: after → ∀ p ∈ supers c, p ∈ before

/-- `pphp_state`, with all containers and classes there are. A class is registered behind those above it, and a
property is declared by the class that has it or by one above it. -/
structure State (n m : Nat) where
  heap : Fin n → Container n m
  entries : Fin m → PClass n m
  classes : List (Fin m)
  buildingClass : Option (Fin m)
  globals : Table n
  statics : Table n
  constants : Table n
  includedFiles : Table n
  stack : List (PValue n)
  frames : List (PFrame n m)
  oomException : PValue n
  nodup : classes.Nodup
  ordered : Ordered (fun c => (entries c).supers) classes
  owned : ∀ c, ∀ p ∈ (entries c).properties,
    Relation.ReflTransGen (fun c above => (entries c).parent = some above) c p.owner

/-! ## Marking -/

section Marking
variable {n m : Nat}

/-- `class_reachability`. The bytes of `reachable_classes` are set for the classes in the queue. -/
structure Reachability (n m : Nat) where
  classQueue : List (Fin m)
  classCursor : Nat
  containers : List (Fin n)
  capacity : Nat
  containerCursor : Nat
  failed : Bool
deriving DecidableEq

/-- `reachability_mark_class`. -/
def markClass (s : State n m) (r : Reachability n m) (c : Option (Fin m)) : Reachability n m :=
  match c with
  | none => r
  | some c =>
    if r.failed || !s.classes.contains c || r.classQueue.contains c then r
    else { r with classQueue := r.classQueue ++ [c] }

variable (memory : Nat → Bool)

/-- `reachability_mark_value`; `memory` says which sizes `pphp_realloc` grants. -/
def markValue (r : Reachability n m) (value : PValue n) : Reachability n m :=
  match value with
  | none => r
  | some a =>
    if r.failed || r.containers.contains a then r
    else if r.containers.length = r.capacity then
      let capacity := if r.capacity = 0 then 16 else r.capacity * 2
      if memory capacity then { r with containers := r.containers ++ [a], capacity := capacity }
      else { r with failed := true }
    else { r with containers := r.containers ++ [a] }

def markValues (r : Reachability n m) (values : List (PValue n)) : Reachability n m := values.foldl (markValue memory) r

/-- An entry of a table. -/
def markEntry (r : Reachability n m) (entry : Option (PValue n × PValue n)) : Reachability n m :=
  match entry with
  | none => r
  | some (key, value) => markValue memory (markValue memory r key) value

/-- `reachability_mark_table`. -/
def markTable (r : Reachability n m) (table : Table n) : Reachability n m := table.foldl (markEntry memory) r

variable (s : State n m)

/-- `reachability_expand_class`. -/
def expandClass (r : Reachability n m) (c : Fin m) : Reachability n m :=
  let entry := s.entries c
  let r := markClass s r entry.parent
  let r := (entry.interfaces.map some).foldl (markClass s) r
  let r := markValues memory r (entry.properties.map PProperty.defaultValue)
  let r := markTable memory r entry.staticProperties
  markTable memory r entry.constants

/-- `reachability_expand_container`. -/
def expandContainer (r : Reachability n m) (a : Fin n) : Reachability n m :=
  match s.heap a with
  | .array entries => markTable memory r entries
  | .object classEntry slots _ => markValues memory (markClass s r (some classEntry)) slots
  | .closure calledScope calledClass captures =>
    markValues memory (markClass s (markClass s r calledScope) calledClass) captures

/-- The frame's part of the roots. -/
def markFrame (r : Reachability n m) (frame : PFrame n m) : Reachability n m :=
  let r := markClass s (markClass s r frame.calledScope) frame.calledClass
  match frame.returnOverride with
  | some value => markValue memory r value
  | none => r

/-- What `reachability_build` marks first. -/
def markRoots : Reachability n m :=
  let r : Reachability n m := ⟨[], 0, [], 0, 0, false⟩
  let r := ((s.classes.filter fun c => (s.entries c).persistent).map some).foldl (markClass s) r
  let r := markTable memory r s.globals
  let r := markTable memory r s.statics
  let r := markTable memory r s.constants
  let r := markTable memory r s.includedFiles
  let r := markValues memory r s.stack
  let r := s.frames.foldl (markFrame memory s) r
  markValue memory r s.oomException

/-- The loop over the queue of classes. A round for each class there is is enough. -/
def drainClasses : Nat → Reachability n m → Reachability n m
  | 0, r => r
  | rounds + 1, r =>
    match r.classQueue[r.classCursor]? with
    | none => r
    | some c => drainClasses rounds (expandClass memory s { r with classCursor := r.classCursor + 1 } c)

/-- The loop over the queue of containers. -/
def drainContainers : Nat → Reachability n m → Reachability n m
  | 0, r => r
  | rounds + 1, r =>
    match r.containers[r.containerCursor]? with
    | none => r
    | some a => drainContainers rounds (expandContainer memory s { r with containerCursor := r.containerCursor + 1 } a)

/-- Nothing is left in the queues. -/
def Reachability.Drained (r : Reachability n m) : Prop :=
  r.classQueue.length ≤ r.classCursor ∧ r.containers.length ≤ r.containerCursor

instance (r : Reachability n m) : Decidable r.Drained := inferInstanceAs (Decidable (_ ∧ _))

/-- The outer loop. -/
def drain : Nat → Reachability n m → Reachability n m
  | 0, r => r
  | rounds + 1, r =>
    if r.failed = true ∨ r.Drained then r
    else drain rounds (drainContainers memory s (n + 1) (drainClasses memory s (m + 1) r))

/-- `reachability_build`; `granted` says whether the two arrays for the classes are allocated. -/
def reachabilityBuild (granted : Bool) : Option (Reachability n m) :=
  if s.classes ≠ [] ∧ granted = false then none
  else
    let r := drain memory s (n + m + 1) (markRoots memory s)
    if r.failed then none else some r

end Marking

/-! ## What leads to what -/

/-- A class or a container. -/
inductive Node (n m : Nat) where
  | ofClass (c : Fin m)
  | container (a : Fin n)
deriving DecidableEq

section Nodes
variable {n m : Nat}

def valueNodes (value : PValue n) : List (Node n m) := value.toList.map .container

def classNodes (c : Option (Fin m)) : List (Node n m) := c.toList.map .ofClass

def entryNodes : Option (PValue n × PValue n) → List (Node n m)
  | none => []
  | some (key, value) => valueNodes key ++ valueNodes value

def tableNodes (table : Table n) : List (Node n m) := table.flatMap entryNodes

def PFrame.nodes (frame : PFrame n m) : List (Node n m) :=
  classNodes frame.calledScope ++ classNodes frame.calledClass ++ frame.returnOverride.toList.flatMap valueNodes

def PClass.nodes (entry : PClass n m) : List (Node n m) :=
  entry.supers.map .ofClass ++ (entry.properties.map PProperty.defaultValue).flatMap valueNodes ++
    tableNodes entry.staticProperties ++ tableNodes entry.constants

def Container.nodes : Container n m → List (Node n m)
  | .array entries => tableNodes entries
  | .object classEntry slots _ => .ofClass classEntry :: slots.flatMap valueNodes
  | .closure calledScope calledClass captures =>
    classNodes calledScope ++ classNodes calledClass ++ captures.flatMap valueNodes

variable (s : State n m)

/-- What is marked for a class or a container. -/
def State.targets : Node n m → List (Node n m)
  | .ofClass c => (s.entries c).nodes
  | .container a => (s.heap a).nodes

/-- What is marked first. -/
def State.roots : List (Node n m) :=
  (s.classes.filter fun c => (s.entries c).persistent).map .ofClass ++ tableNodes s.globals ++ tableNodes s.statics ++
    tableNodes s.constants ++ tableNodes s.includedFiles ++ s.stack.flatMap valueNodes ++
    s.frames.flatMap PFrame.nodes ++ valueNodes s.oomException

/-- Classes are marked in the table only. -/
def State.Registered : Node n m → Prop
  | .ofClass c => c ∈ s.classes
  | .container _ => True

/-- A step that marking takes. -/
def State.Marks (x y : Node n m) : Prop := y ∈ s.targets x ∧ s.Registered y

/-- Where marking begins. -/
def State.MarkedRoot (x : Node n m) : Prop := x ∈ s.roots ∧ s.Registered x

def Reachability.Has (r : Reachability n m) : Node n m → Prop
  | .ofClass c => c ∈ r.classQueue
  | .container a => a ∈ r.containers

/-! ## Marking one after the other -/

variable (memory : Nat → Bool)

def mark (r : Reachability n m) : Node n m → Reachability n m
  | .ofClass c => markClass s r (some c)
  | .container a => markValue memory r (some a)

variable (r : Reachability n m)

theorem markClass_eq (c : Option (Fin m)) : markClass s r c = (classNodes c).foldl (mark s memory) r := by
  cases c with
  | none => rfl
  | some c => rfl

theorem markValue_eq (value : PValue n) : markValue memory r value = (valueNodes value).foldl (mark s memory) r := by
  cases value with
  | none => rfl
  | some a => rfl

theorem markValues_eq (values : List (PValue n)) :
    markValues memory r values = (values.flatMap valueNodes).foldl (mark s memory) r := by
  unfold markValues
  induction values generalizing r with
  | nil => rfl
  | cons value rest ih => rw [foldl_cons, flatMap_cons, foldl_append, ← markValue_eq, ih]

theorem markTable_eq (table : Table n) : markTable memory r table = (tableNodes table).foldl (mark s memory) r := by
  unfold markTable tableNodes
  induction table generalizing r with
  | nil => rfl
  | cons entry rest ih =>
    rw [foldl_cons, flatMap_cons, foldl_append, ih]
    congr 1
    cases entry with
    | none => rfl
    | some entry =>
      change markValue memory (markValue memory r entry.1) entry.2 =
        (valueNodes entry.1 ++ valueNodes entry.2).foldl _ r
      rw [foldl_append, ← markValue_eq, ← markValue_eq]

theorem markClasses_eq (classes : List (Fin m)) :
    (classes.map some).foldl (markClass s) r = (classes.map Node.ofClass).foldl (mark s memory) r := by
  rw [foldl_map, foldl_map]
  rfl

theorem expandClass_eq (c : Fin m) : expandClass memory s r c = (s.targets (.ofClass c)).foldl (mark s memory) r := by
  have targets : s.targets (.ofClass c) = (s.entries c).nodes := rfl
  rw [targets]
  unfold expandClass PClass.nodes PClass.supers
  simp only [markTable_eq s, markValues_eq s, markClasses_eq s memory, markClass_eq s memory, foldl_append, map_append]
  rfl

theorem expandContainer_eq (a : Fin n) :
    expandContainer memory s r a = (s.targets (.container a)).foldl (mark s memory) r := by
  have targets : s.targets (.container a) = (s.heap a).nodes := rfl
  rw [targets]
  unfold expandContainer
  cases s.heap a with
  | array entries => exact markTable_eq s memory r entries
  | object classEntry slots callback => exact markValues_eq s memory _ slots
  | closure calledScope calledClass captures =>
    simp only [markValues_eq s, markClass_eq s memory, Container.nodes, foldl_append]

theorem markFrame_eq (frame : PFrame n m) : markFrame memory s r frame = frame.nodes.foldl (mark s memory) r := by
  unfold markFrame PFrame.nodes
  cases frame.returnOverride with
  | none => simp only [markClass_eq s memory, foldl_append, Option.toList_none, flatMap_nil, foldl_nil]
  | some value =>
    simp only [markClass_eq s memory, markValue_eq s, foldl_append, Option.toList_some, flatMap_cons,
      flatMap_nil, append_nil]

theorem markRoots_eq : markRoots memory s = s.roots.foldl (mark s memory) ⟨[], 0, [], 0, 0, false⟩ := by
  have frames (r : Reachability n m) (frames : List (PFrame n m)) :
      frames.foldl (markFrame memory s) r = (frames.flatMap PFrame.nodes).foldl (mark s memory) r := by
    induction frames generalizing r with
    | nil => rfl
    | cons frame rest ih => rw [foldl_cons, flatMap_cons, foldl_append, ← markFrame_eq, ih]
  unfold markRoots State.roots
  simp only [markTable_eq s, markValues_eq s, markValue_eq s, markClasses_eq s memory, frames, foldl_append]

end Nodes

end PhpPico.UserClasses
