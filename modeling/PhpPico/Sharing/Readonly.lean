import PhpPico.Sharing.Steps

/-!
# Readonly properties

The slot of a readonly property is written by `OP_PROP_SET` only, once, in the scope of its class. Its array stays as
it is where no builtin that writes its argument in place is given it.
-/

namespace PhpPico.Sharing
open List Option CopyOnWrite Members OrderedMap
open Access (Property)

def PObject.value (obj : PObject) (p : Property) : PValue := obj.slots.getD p.slot pvNull

def PObject.isWritten (obj : PObject) (p : Property) : Bool := obj.written.getD p.slot false

section Readonly
variable (prog : Program)

/-- A readonly property that is initialised. -/
structure Settled (obj : PObject) (p : Property) : Prop where
  declared : p ∈ prog.properties obj.classEntry
  readonly : p.isReadonly = true
  written : obj.isWritten p = true

/-- A builtin that writes in place is given no array that a readonly property reads, and natives write fields that are
not readonly. -/
def KeepsReadonly : Op → State → Prop
  | .mutatePush i _, s | .mutateReplace i _, s => ∀ a, baseAt s i = some (.array a) → ∀ o obj p,
    s.object o = some obj → Settled prog obj p → ¬ Reaches Content.entries s.heap (obj.value p) a
  | .setField o name _, s => ∀ obj p, s.object o = some obj → State.findProperty prog obj name = some p →
    p.isReadonly = false
  | _, _ => True

/-- What was initialised is as it was: in the same slot, and the same is read there. -/
structure Frozen (s s' : State) (obj obj' : PObject) (p : Property) : Prop where
  settled : Settled prog obj' p
  value : obj'.value p = obj.value p
  reads : ∀ n, look Content.entries n s'.heap (obj'.value p) = look Content.entries n s.heap (obj.value p)

/-- Nothing initialised has changed in the objects that are still there. -/
def WriteOnce (s s' : State) : Prop := ∀ o obj obj', s.object o = some obj → s'.object o = some obj' →
  obj'.classEntry = obj.classEntry ∧ ∀ p, Settled prog obj p → Frozen prog s s' obj obj' p

/-- Readonly properties get their value in the class that declares them; in a new object nothing is initialised, or
what is in its source. -/
structure InitialisedInside (s s' : State) : Prop where
  existing : ∀ o obj obj' p, s.object o = some obj → s'.object o = some obj' → p ∈ prog.properties obj.classEntry →
    p.isReadonly = true → obj'.value p ≠ obj.value p ∨ obj'.isWritten p ≠ obj.isWritten p →
      s.frame.calledScope = some p.owner ∧ obj.isWritten p = false
  new : ∀ o obj', s.object o = none → s'.object o = some obj' →
    (∀ p, obj'.isWritten p = false) ∨ ∃ source, s.object source = some obj'

/-- What an instruction assigns to. -/
def target (s : State) : Op → Option (Nat × List UInt8)
  | .propSet _ name =>
    match s.frame.operands with
    | .value _ :: .value (.data (.object o)) :: _ => some (o, name)
    | _ => none
  | .propSetDynamic _ =>
    match s.frame.operands with
    | .value _ :: .value (.data (.string name)) :: .value (.data (.object o)) :: _ => some (o, name)
    | _ => none
  | _ => none

/-- An assignment to a readonly property that is initialised, or from outside its class. -/
structure Forbidden (s : State) (op : Op) (o : Nat) (name : List UInt8) (obj : PObject) (p : Property) : Prop where
  target : target s op = some (o, name)
  found : s.object o = some obj
  property : State.findProperty prog obj name = some p
  readonly : p.isReadonly = true
  refused : s.frame.calledScope ≠ some p.owner ∨ obj.isWritten p = true

/-! ## What happens to objects -/

/-- The ways the objects can change. -/
inductive Changed (s : State) (op : Op) : List (Option PObject) → Prop
  | same : Changed s op s.objects
  | added {obj : PObject} (origin : (∀ p, obj.isWritten p = false) ∨ ∃ source, s.object source = some obj) :
      Changed s op (s.objects ++ [some obj])
  | assigned {o : Nat} {obj : PObject} {p : Property} {v : PValue} (found : s.object o = some obj)
      (declared : p ∈ prog.properties obj.classEntry)
      (allowed : p.isReadonly = true → s.frame.calledScope = some p.owner ∧ obj.isWritten p = false) :
      Changed s op (s.objects.set o
        (some { obj with slots := obj.slots.set p.slot v, written := obj.written.set p.slot true }))
  | filled {o : Nat} {obj : PObject} {p : Property} {name : List UInt8} {d : Data} (is_field : op = .setField o name d)
      (found : s.object o = some obj) (property : State.findProperty prog obj name = some p) :
      Changed s op (s.objects.set o (some { obj with slots := obj.slots.set p.slot (.data d) }))
  | destroyed (o : Nat) : Changed s op (s.objects.set o none)

variable {prog}
variable {s s' : State} {op : Op} {obj : PObject} {o : Nat} {p : Property} {v : PValue} {name : List UInt8}

theorem Changed.of_objects (objects : s'.objects = s.objects) : Changed prog s op s'.objects := by
  rw [objects]
  exact .same

theorem findProperty_mem (found : State.findProperty prog obj name = some p) : p ∈ prog.properties obj.classEntry :=
  mem_of_find?_eq_some found

section Kept
variable {slot i a : Nat} {c : Content}

theorem storeLocal_objects (next : s.storeLocal slot = some s') : s'.objects = s.objects := by
  obtain ⟨⟨v, s₁⟩, popped, next⟩ := bind_eq_some_iff.mp next
  obtain ⟨untouched, -⟩ := untouched_pop popped
  rw [← untouched.objects]
  dsimp only at next
  split at next
  · cases next
  · cases next
    rfl
  · obtain ⟨old, -, next⟩ := bind_eq_some_iff.mp next
    cases next
    rfl

theorem bindLocal_objects (next : s.bindLocal slot i = some s') : s'.objects = s.objects := by
  unfold State.bindLocal at next
  split at next <;> cases next <;> rfl

theorem keep_objects (next : s.keep = some s') : s'.objects = s.objects := by
  obtain ⟨⟨v, s₁⟩, popped, next⟩ := bind_eq_some_iff.mp next
  obtain ⟨untouched, -⟩ := untouched_pop popped
  cases next
  exact untouched.objects

theorem replaceStored_objects (next : s.replaceStored i = some s') : s'.objects = s.objects := by
  obtain ⟨⟨v, s₁⟩, popped, next⟩ := bind_eq_some_iff.mp next
  obtain ⟨untouched, -⟩ := untouched_pop popped
  obtain ⟨old, -, next⟩ := bind_eq_some_iff.mp next
  cases next
  exact untouched.objects

theorem drop_objects (next : s.drop = some s') : s'.objects = s.objects := by
  unfold State.drop at next
  split at next <;> cases next <;> rfl

theorem dup_objects (next : s.dup = some s') : s'.objects = s.objects := by
  unfold State.dup at next
  split at next <;> cases next
  rfl

theorem arrPush_objects (next : s.arrPush prog = some s') : s'.objects = s.objects := by
  unfold State.arrPush at next
  split at next <;> cases next
  rfl

theorem arrSet_objects (next : s.arrSet prog = some s') : s'.objects = s.objects := by
  unfold State.arrSet at next
  split at next
  · split at next <;> cases next <;> rfl
  · cases next

theorem arrExtend_objects (next : s.arrExtend prog = some s') : s'.objects = s.objects := by
  unfold State.arrExtend at next
  split at next
  · obtain ⟨cell, -, next⟩ := bind_eq_some_iff.mp next
    cases next
    rfl
  · cases next
    rfl
  · cases next

theorem built_objects (next : s.built = some s') : s'.objects = s.objects := by
  unfold State.built at next
  split at next <;> cases next
  rfl

theorem indexGet_objects (next : s.indexGet prog = some s') : s'.objects = s.objects := by
  obtain ⟨⟨key, s₁⟩, popped, next⟩ := bind_eq_some_iff.mp next
  obtain ⟨⟨base, s₂⟩, popped_base, next⟩ := bind_eq_some_iff.mp next
  obtain ⟨untouched₁, -⟩ := untouched_pop popped
  obtain ⟨untouched₂, -⟩ := untouched_pop popped_base
  rw [← (untouched₁.trans untouched₂).objects]
  cases base with
  | data d =>
    cases next
    rfl
  | array a =>
    obtain ⟨cell, -, next⟩ := bind_eq_some_iff.mp next
    cases next
    rfl

theorem arrSeparate_objects {separates : Bool} (sound : s.Sound []) (next : s.arrSeparate separates = some s') :
    s'.objects = s.objects := by
  obtain ⟨⟨v, s₁⟩, popped, next⟩ := bind_eq_some_iff.mp next
  obtain ⟨untouched, -⟩ := untouched_pop popped
  cases v with
  | data d =>
    cases next
    exact untouched.objects
  | array a =>
    obtain ⟨⟨writable, s₂⟩, separated, next⟩ := bind_eq_some_iff.mp next
    cases writable with
    | none =>
      cases arrayForWrite_none separated
      cases next
      exact untouched.objects
    | some b =>
      obtain ⟨-, untouched', -⟩ := arrayForWrite_spec (sound.pop popped) separated
      cases next
      exact (untouched.trans untouched').objects

theorem mutatePush_objects (next : s.mutatePush prog i v = some s') : s'.objects = s.objects := by
  unfold State.mutatePush at next
  split at next
  · obtain ⟨cell, -, next⟩ := bind_eq_some_iff.mp next
    cases next
    rfl
  · cases next

theorem mutateReplace_objects (next : s.mutateReplace i c = some s') : s'.objects = s.objects := by
  unfold State.mutateReplace at next
  split at next
  · obtain ⟨cell, -, next⟩ := bind_eq_some_iff.mp next
    cases next
    rfl
  · cases next

theorem getProperty_objects {quiet : Bool} (next : s.getProperty prog quiet o name = some s') :
    s'.objects = s.objects := by
  obtain ⟨obj, -, next⟩ := bind_eq_some_iff.mp next
  split at next
  · cases next
    split
    · rfl
    · split <;> rfl
  · split at next
    · cases next
      split <;> rfl
    · split at next <;> cases next <;> rfl

theorem noObject_objects (quiet : Bool) (s : State) : (s.noObject quiet).objects = s.objects := by
  unfold State.noObject
  split <;> rfl

theorem propGet_objects {quiet : Bool} (next : s.propGet prog quiet name = some s') : s'.objects = s.objects := by
  obtain ⟨⟨v, s₁⟩, popped, next⟩ := bind_eq_some_iff.mp next
  obtain ⟨untouched, -⟩ := untouched_pop popped
  rw [← untouched.objects]
  dsimp only at next
  split at next
  · exact getProperty_objects next
  · cases next
    exact noObject_objects _ _

theorem propGetDynamic_objects {quiet : Bool} (next : s.propGetDynamic prog quiet = some s') :
    s'.objects = s.objects := by
  obtain ⟨⟨name, s₁⟩, popped, next⟩ := bind_eq_some_iff.mp next
  obtain ⟨⟨v, s₂⟩, popped', next⟩ := bind_eq_some_iff.mp next
  obtain ⟨untouched, -⟩ := untouched_pop popped
  obtain ⟨untouched', -⟩ := untouched_pop popped'
  rw [← (untouched.trans untouched').objects]
  dsimp only at next
  split at next
  · exact getProperty_objects next
  · cases next
    exact noObject_objects _ _

theorem popArguments_objects {n : Nat} {vs : List PValue} (popped : State.popArguments n s = some (vs, s')) :
    s'.objects = s.objects := by
  induction n generalizing s vs with
  | zero =>
    cases popped
    rfl
  | succ n ih =>
    obtain ⟨⟨v, s₁⟩, first, popped⟩ := bind_eq_some_iff.mp popped
    obtain ⟨⟨rest, s₂⟩, later, popped⟩ := bind_eq_some_iff.mp popped
    cases popped
    obtain ⟨untouched, -⟩ := untouched_pop first
    exact (ih later).trans untouched.objects

theorem enter_objects {scope : Option Nat} {arguments locals : Nat} (next : s.enter scope arguments locals = some s') :
    s'.objects = s.objects := by
  obtain ⟨⟨vs, s₁⟩, popped, next⟩ := bind_eq_some_iff.mp next
  have objects := popArguments_objects popped
  cases next
  exact objects

theorem abandon_objects (next : s.abandon = some s') : s'.objects = s.objects := by
  unfold State.abandon at next
  split at next <;> cases next
  rfl

theorem leave_objects (next : s.leave = some s') : s'.objects = s.objects := by
  obtain ⟨⟨v, s₁⟩, popped, next⟩ := bind_eq_some_iff.mp next
  obtain ⟨s₂, left, next⟩ := bind_eq_some_iff.mp next
  obtain ⟨untouched, -⟩ := untouched_pop popped
  cases next
  exact (abandon_objects left).trans untouched.objects

theorem releaseOne_objects (next : s.releaseOne = some s') : s'.objects = s.objects := by
  unfold State.releaseOne at next
  split at next <;> cases next <;> rfl

theorem collect_objects (next : s.collect a = some s') : s'.objects = s.objects := by
  obtain ⟨cell, -, next⟩ := bind_eq_some_iff.mp next
  cases next
  rfl

end Kept

/-! ## Steps that write objects -/

theorem getD_false {α : Type} (l : List α) (i : Nat) : (l.map fun _ => false).getD i false = false := by
  rw [getD_eq_getElem?_getD, getElem?_map]
  cases l[i]? <;> rfl

/-- **`OP_PROP_SET`** writes the slot of an object, or no object. -/
theorem setProperty_changed {s₀ : State} {accepts : Bool} (objects : s.objects = s₀.objects)
    (scope : s.frame.calledScope = s₀.frame.calledScope) (next : s.setProperty prog accepts o name v = some s') :
    Changed prog s₀ op s'.objects := by
  obtain ⟨-, rfl | rfl | ⟨obj, p, found, property, -, allowed, rfl⟩⟩ := setProperty_cases next
  · exact .of_objects objects
  · exact .of_objects objects
  · show Changed prog s₀ op (s.objects.set o _)
    rw [State.object, objects] at found
    rw [scope] at allowed
    rw [objects]
    exact .assigned found (findProperty_mem property) allowed

theorem propSet_changed {accepts : Bool} (next : s.propSet prog accepts name = some s') :
    Changed prog s op s'.objects := by
  obtain ⟨⟨v, s₁⟩, popped, next⟩ := bind_eq_some_iff.mp next
  obtain ⟨⟨base, s₂⟩, popped', next⟩ := bind_eq_some_iff.mp next
  obtain ⟨untouched, -⟩ := untouched_pop popped
  obtain ⟨untouched', -⟩ := untouched_pop popped'
  have both := untouched.trans untouched'
  dsimp only at next
  split at next
  · exact setProperty_changed both.objects both.scope next
  · cases next
    exact .of_objects both.objects

theorem propSetDynamic_changed {accepts : Bool} (next : s.propSetDynamic prog accepts = some s') :
    Changed prog s op s'.objects := by
  obtain ⟨⟨v, s₁⟩, popped, next⟩ := bind_eq_some_iff.mp next
  obtain ⟨⟨name, s₂⟩, popped', next⟩ := bind_eq_some_iff.mp next
  obtain ⟨⟨base, s₃⟩, popped'', next⟩ := bind_eq_some_iff.mp next
  obtain ⟨untouched, -⟩ := untouched_pop popped
  obtain ⟨untouched', -⟩ := untouched_pop popped'
  obtain ⟨untouched'', -⟩ := untouched_pop popped''
  have all := (untouched.trans untouched').trans untouched''
  dsimp only at next
  split at next
  · exact setProperty_changed all.objects all.scope next
  · cases next
    exact .of_objects all.objects

theorem cloneObject_changed (next : s.cloneObject = some s') : Changed prog s op s'.objects := by
  obtain ⟨⟨v, s₁⟩, popped, next⟩ := bind_eq_some_iff.mp next
  obtain ⟨untouched, -⟩ := untouched_pop popped
  dsimp only at next
  split at next
  · rename_i o
    obtain ⟨obj, found, next⟩ := bind_eq_some_iff.mp next
    cases next
    show Changed prog s op ((s₁.retainedAll obj.slots).objects ++ [some obj])
    rw [show (s₁.retainedAll obj.slots).objects = s.objects from untouched.objects]
    rw [State.object, untouched.objects] at found
    exact .added (.inr ⟨o, found⟩)
  · cases next
    exact .of_objects untouched.objects

theorem setField_changed {d : Data} (next : s.setField prog o name d = some s') :
    Changed prog s (.setField o name d) s'.objects := by
  obtain ⟨obj, found, next⟩ := bind_eq_some_iff.mp next
  cases at_name : State.findProperty prog obj name with
  | none =>
    simp only [at_name] at next
    cases next
    exact .same
  | some p =>
    simp only [at_name] at next
    cases next
    exact .filled rfl found at_name

/-- **A step changes the objects in one of these ways.** -/
theorem exec_changed (sound : s.Sound []) (next : exec prog op s = some s') : Changed prog s op s'.objects := by
  cases op with
  | loadLocal slot =>
    obtain ⟨v, -, -, -, untouched, -⟩ := loadLocal_spec sound next
    exact .of_objects untouched.objects
  | storeLocal => exact .of_objects (storeLocal_objects next)
  | bindLocal => exact .of_objects (bindLocal_objects next)
  | drop => exact .of_objects (drop_objects next)
  | dup => exact .of_objects (dup_objects next)
  | pushData | copy | newArray | fresh | caught =>
    cases next
    exact .same
  | keep => exact .of_objects (keep_objects next)
  | replaceStored => exact .of_objects (replaceStored_objects next)
  | arrPush => exact .of_objects (arrPush_objects next)
  | arrSet => exact .of_objects (arrSet_objects next)
  | arrExtend => exact .of_objects (arrExtend_objects next)
  | built => exact .of_objects (built_objects next)
  | indexGet => exact .of_objects (indexGet_objects next)
  | setIndex =>
    obtain ⟨-, untouched, -⟩ := setIndex_spec sound next
    exact .of_objects untouched.objects
  | unsetIndex =>
    obtain ⟨-, untouched, -⟩ := unsetIndex_spec sound next
    exact .of_objects untouched.objects
  | arrSeparate => exact .of_objects (arrSeparate_objects sound next)
  | mutatePush => exact .of_objects (mutatePush_objects next)
  | mutateReplace => exact .of_objects (mutateReplace_objects next)
  | propGet => exact .of_objects (propGet_objects next)
  | propGetDynamic => exact .of_objects (propGetDynamic_objects next)
  | propSet => exact propSet_changed next
  | propSetDynamic => exact propSetDynamic_changed next
  | newObject =>
    cases next
    exact .added (.inl fun p => getD_false _ p.slot)
  | cloneObject => exact cloneObject_changed next
  | setField => exact setField_changed next
  | enter => exact .of_objects (enter_objects next)
  | abandon => exact .of_objects (abandon_objects next)
  | leave => exact .of_objects (leave_objects next)
  | releaseOne => exact .of_objects (releaseOne_objects next)
  | destroy o =>
    obtain ⟨obj, -, next⟩ := bind_eq_some_iff.mp next
    cases next
    exact .destroyed o
  | collect => exact .of_objects (collect_objects next)

/-! ## One step -/

/-- A property of an object has been written, and nothing else of it. -/
structure Written (prog : Program) (s : State) (obj obj' : PObject) (p : Property) : Prop where
  declared : p ∈ prog.properties obj.classEntry
  classEntry : obj'.classEntry = obj.classEntry
  others : ∀ q : Property, q.slot ≠ p.slot → obj'.value q = obj.value q ∧ obj'.isWritten q = obj.isWritten q
  allowed : p.isReadonly = true → s.frame.calledScope = some p.owner ∧ obj.isWritten p = false

theorem getD_set {α : Type} {l : List α} {i j : Nat} {x d : α} (other : j ≠ i) : (l.set i x).getD j d = l.getD j d := by
  rw [getD_eq_getElem?_getD, getD_eq_getElem?_getD, getElem?_set_ne (Ne.symm other)]

theorem join_set {l : List (Option PObject)} {i j : Nat} {x : Option PObject} {obj : PObject}
    (found : ((l.set i x)[j]?).join = some obj) : j ≠ i ∧ (l[j]?).join = some obj ∨ j = i ∧ x = some obj := by
  by_cases same : j = i
  · subst same
    refine .inr ⟨rfl, ?_⟩
    rw [getElem?_set_self'] at found
    cases at_j : l[j]? with
    | none =>
      rw [at_j] at found
      cases found
    | some y =>
      rw [at_j] at found
      exact found
  · rw [getElem?_set_ne (Ne.symm same)] at found
    exact .inl ⟨same, found⟩

theorem join_append {l : List (Option PObject)} {j : Nat} {x obj : PObject}
    (found : ((l ++ [some x])[j]?).join = some obj) : (l[j]?).join = some obj ∨ j = l.length ∧ x = obj := by
  rcases lt_trichotomy j l.length with old | rfl | beyond
  · rw [getElem?_append_left old] at found
    exact .inl found
  · rw [getElem?_append_right (le_refl _), Nat.sub_self] at found
    cases found
    exact .inr ⟨rfl, rfl⟩
  · rw [getElem?_eq_none (by rw [length_append]; simp; omega)] at found
    cases found

theorem object_lt (found : s.object o = some obj) : o < s.objects.length :=
  (List.getElem?_eq_some_iff.mp (object_at found)).1

theorem Changed.object {obj' : PObject} (changed : Changed prog s op s'.objects) (keeps : KeepsReadonly prog op s)
    (found : s.object o = some obj) (found' : s'.object o = some obj') :
    obj' = obj ∨ ∃ p, Written prog s obj obj' p := by
  unfold State.object at found'
  generalize s'.objects = l at changed found'
  cases changed with
  | same => exact .inl (some.inj (found'.symm.trans found))
  | added =>
    rcases join_append found' with old | ⟨rfl, -⟩
    · exact .inl (some.inj (old.symm.trans found))
    · exact absurd (object_lt found) (lt_irrefl _)
  | assigned at_o declared allowed =>
    rcases join_set found' with ⟨-, old⟩ | ⟨rfl, same⟩
    · exact .inl (some.inj (old.symm.trans found))
    · cases found.symm.trans at_o
      cases same
      exact .inr ⟨_, declared, rfl, fun q other => ⟨getD_set other, getD_set other⟩, allowed⟩
  | filled is_field at_o property =>
    rcases join_set found' with ⟨-, old⟩ | ⟨rfl, same⟩
    · exact .inl (some.inj (old.symm.trans found))
    · cases found.symm.trans at_o
      cases same
      subst is_field
      have plain := keeps _ _ found property
      refine .inr ⟨_, findProperty_mem property, rfl, fun q other => ⟨getD_set other, rfl⟩, fun readonly => ?_⟩
      rw [plain] at readonly
      cases readonly
  | destroyed =>
    rcases join_set found' with ⟨-, old⟩ | ⟨-, gone⟩
    · exact .inl (some.inj (old.symm.trans found))
    · cases gone

/-- Objects that are gone do not come back. -/
theorem Changed.gone (changed : Changed prog s op s'.objects) :
    s.objects.length ≤ s'.objects.length ∧ ∀ o < s.objects.length, s.object o = none → s'.object o = none := by
  unfold State.object
  generalize s'.objects = l at changed ⊢
  have set (i : Nat) (x : PObject) (o : Nat) (at_i : s.object i = some x) (y : Option PObject)
      (absent : (s.objects[o]?).join = none) : ((s.objects.set i y)[o]?).join = none := by
    have other : o ≠ i := by
      rintro rfl
      rw [State.object, absent] at at_i
      cases at_i
    rw [getElem?_set_ne (Ne.symm other)]
    exact absent
  cases changed with
  | same => exact ⟨le_rfl, fun _ _ absent => absent⟩
  | added =>
    refine ⟨by rw [length_append]; omega, fun o inside absent => ?_⟩
    rw [getElem?_append_left inside]
    exact absent
  | assigned at_o => exact ⟨by rw [List.length_set], fun o _ absent => set _ _ o at_o _ absent⟩
  | filled _ at_o => exact ⟨by rw [List.length_set], fun o _ absent => set _ _ o at_o _ absent⟩
  | destroyed i =>
    refine ⟨by rw [List.length_set], fun o _ absent => ?_⟩
    cases found : ((s.objects.set i none)[o]?).join with
    | none => rfl
    | some obj =>
      rcases join_set found with ⟨-, old⟩ | ⟨-, gone⟩
      · rw [absent] at old
        cases old
      · cases gone

theorem slot_injective {c : Nat} {q : Property} (declared : p ∈ prog.properties c) (declared' : q ∈ prog.properties c)
    (same : p.slot = q.slot) : p = q := by
  obtain ⟨i, at_i⟩ := mem_iff_getElem?.mp declared
  obtain ⟨j, at_j⟩ := mem_iff_getElem?.mp declared'
  have first := prog.slots c i p at_i
  have second := prog.slots c j q at_j
  have indices : i = j := by omega
  subst indices
  exact some.inj (at_i.symm.trans at_j)

/-- The value of a property is not touched by writes of arrays. -/
theorem spared_value (keeps : KeepsReadonly prog op s) (found : s.object o = some obj) (settled : Settled prog obj p)
    (mem : obj.value p ∈ obj.slots) : Spared s (obj.value p) op := by
  have held (a : Nat) (is_array : obj.value p = .array a) : 0 < count a (s.objects.flatMap slotsOf) := by
    refine count_pos (mem_flatMap.mpr ⟨some obj, mem_of_getElem? (object_at found), ?_⟩)
    rw [← is_array]
    exact mem
  -- a variable, and the object
  have variable_and_object (slot : Nat) (base : PValue) (a : Nat) (read : s.readLocal slot = some base)
      (is_array : obj.value p = .array a) : count a [base] < count a s.places := by
    have object := held a is_array
    rw [count_places]
    unfold State.readLocal at read
    split at read
    · cases read
    · rename_i v at_slot
      cases read
      have le := count_flatMap_le (a := a) Variable.values at_slot
      have own : count a (Variable.values (.own base)) = count a [base] := rfl
      omega
    · have le := count_flatMap_le (a := a) (fun v => [v]) read
      rw [flatMap_singleton'] at le
      omega
  cases op with
  | setIndex => exact fun base a read is_array => variable_and_object _ base a read is_array
  | unsetIndex => exact fun base a read is_array => variable_and_object _ base a read is_array
  | mutatePush => exact fun a at_i => keeps a at_i o obj p found settled
  | mutateReplace => exact fun a at_i => keeps a at_i o obj p found settled
  | releaseOne =>
    intro v rest pending a is_array
    have object := held a is_array
    rw [count_places, pending, count_cons a v rest]
    omega
  | _ => trivial

/-- **A step** changes nothing that is initialised. -/
theorem step_writeOnce (sound : s.Sound []) (allowed : Allowed s op) (keeps : KeepsReadonly prog op s)
    (next : exec prog op s = some s') : WriteOnce prog s s' := by
  have effect := exec_effect sound allowed next
  intro o obj obj' found found'
  -- the same is read at what was in the slot
  have reads (p : Property) (settled : Settled prog obj p) (n : Nat) :
      look Content.entries n s'.heap (obj.value p) = look Content.entries n s.heap (obj.value p) := by
    cases at_slot : obj.slots[p.slot]? with
    | none =>
      rw [PObject.value, getD_eq_getElem?_getD, at_slot]
      show look Content.entries n s'.heap pvNull = _
      cases n <;> rfl
    | some v =>
      have value : obj.value p = v := by
        rw [PObject.value, getD_eq_getElem?_getD, at_slot]
        rfl
      have mem : obj.value p ∈ obj.slots := value ▸ mem_of_getElem? at_slot
      exact (effect.agree _ (slot_mem found mem) (spared_value keeps found settled mem)).look n
  rcases (exec_changed sound next).object keeps found found' with rfl | ⟨q, written⟩
  · exact ⟨rfl, fun p settled => ⟨settled, rfl, reads p settled⟩⟩
  · refine ⟨written.classEntry, fun p settled => ?_⟩
    have other : p.slot ≠ q.slot := by
      intro same
      obtain rfl := slot_injective settled.declared written.declared same
      have unwritten := (written.allowed settled.readonly).2
      rw [settled.written] at unwritten
      cases unwritten
    obtain ⟨value, is_written⟩ := written.others p other
    refine ⟨⟨?_, settled.readonly, is_written.trans settled.written⟩, value, fun n => ?_⟩
    · rw [written.classEntry]
      exact settled.declared
    · rw [value]
      exact reads p settled n

/-- **A step** initialises in the class that declares the property. -/
theorem step_inside (sound : s.Sound []) (keeps : KeepsReadonly prog op s) (next : exec prog op s = some s') :
    InitialisedInside prog s s' := by
  have changed := exec_changed sound next
  constructor
  · intro o obj obj' p found found' declared readonly differs
    rcases changed.object keeps found found' with rfl | ⟨q, written⟩
    · rcases differs with differs | differs <;> exact absurd rfl differs
    · have same : p.slot = q.slot := by
        by_contra other
        obtain ⟨value, is_written⟩ := written.others p other
        rcases differs with differs | differs
        · exact differs value
        · exact differs is_written
      obtain rfl := slot_injective declared written.declared same
      exact written.allowed readonly
  · intro o obj' absent found'
    unfold State.object at found' absent
    generalize s'.objects = l at changed found'
    have set (i : Nat) (x : PObject) (y : Option PObject) (at_i : s.object i = some x)
        (found' : ((s.objects.set i y)[o]?).join = some obj') : False := by
      rcases join_set found' with ⟨-, old⟩ | ⟨rfl, -⟩
      · rw [absent] at old
        cases old
      · rw [State.object, absent] at at_i
        cases at_i
    cases changed with
    | same =>
      rw [absent] at found'
      cases found'
    | added origin =>
      rcases join_append found' with old | ⟨-, rfl⟩
      · rw [absent] at old
        cases old
      · exact origin
    | assigned at_o => exact (set _ _ _ at_o found').elim
    | filled _ at_o => exact (set _ _ _ at_o found').elim
    | destroyed =>
      rcases join_set found' with ⟨-, old⟩ | ⟨-, gone⟩
      · rw [absent] at old
        cases old
      · cases gone

/-! ## Runs -/

theorem WriteOnce.refl (s : State) : WriteOnce prog s s := by
  intro o obj obj' found found'
  cases found.symm.trans found'
  exact ⟨rfl, fun p settled => ⟨settled, rfl, fun _ => rfl⟩⟩

/-- What does not change twice does not change. -/
theorem WriteOnce.trans {s'' : State} (first : WriteOnce prog s s')
    (stays : ∀ o obj, s.object o = some obj → s'.object o = none → s''.object o = none)
    (second : WriteOnce prog s' s'') : WriteOnce prog s s'' := by
  intro o obj obj'' found found''
  cases found' : s'.object o with
  | none =>
    rw [stays o obj found found'] at found''
    cases found''
  | some obj' =>
    obtain ⟨same, frozen⟩ := first o obj obj' found found'
    obtain ⟨same', frozen'⟩ := second o obj' obj'' found' found''
    refine ⟨same'.trans same, fun p settled => ?_⟩
    have before := frozen p settled
    have after := frozen' p before.settled
    exact ⟨after.settled, after.value.trans before.value, fun n => (after.reads n).trans (before.reads n)⟩

/-- **In a run** nothing that is initialised changes. -/
theorem run_writeOnce (run : Run prog (KeepsReadonly prog) s s') (sound : s.Sound []) :
    WriteOnce prog s s' ∧ s.objects.length ≤ s'.objects.length := by
  induction run with
  | refl => exact ⟨.refl _, le_rfl⟩
  | step before allowed meets next ih =>
    obtain ⟨once, grown⟩ := ih
    have sound' := before.sound sound
    obtain ⟨grown', gone⟩ := (exec_changed sound' next).gone
    refine ⟨once.trans (fun o obj found absent => ?_) (step_writeOnce sound' allowed meets next), grown.trans grown'⟩
    exact gone o (lt_of_lt_of_le (object_lt found) grown) absent

/-! ## Refusals -/

theorem setProperty_refused {accepts : Bool} (found : s.object o = some obj)
    (property : State.findProperty prog obj name = some p) (readonly : p.isReadonly = true)
    (refused : s.frame.calledScope ≠ some p.owner ∨ obj.isWritten p = true) :
    s.setProperty prog accepts o name v = some (s.released v).fail := by
  rw [State.setProperty, found, bind_eq_bind, bind_some, property]
  dsimp only
  split
  · rfl
  · rw [if_pos ⟨readonly, refused⟩]

theorem pop_value {rest : List Operand} (operands : s.frame.operands = .value v :: rest) :
    s.pop = some (v, s.operands rest) := by rw [State.pop, operands]

/-- **A forbidden assignment** is an error, and leaves the objects and arrays as they are. -/
theorem forbidden_refused (forbidden : Forbidden prog s op o name obj p) (next : exec prog op s = some s') :
    s'.error = true ∧ s'.objects = s.objects ∧ s'.heap = s.heap := by
  have aimed := forbidden.target
  cases op with
  | propSet accepts wanted =>
    dsimp only [target] at aimed
    split at aimed
    · rename_i v i rest operands
      cases aimed
      have code : exec prog (.propSet accepts name) s = (s.operands rest).setProperty prog accepts o name v := by
        show State.propSet prog accepts name s = _
        rw [State.propSet, pop_value operands]
        rfl
      have found : (s.operands rest).object o = some obj := forbidden.found
      rw [code, setProperty_refused found forbidden.property forbidden.readonly forbidden.refused] at next
      cases next
      exact ⟨rfl, rfl, rfl⟩
    · cases aimed
  | propSetDynamic accepts =>
    dsimp only [target] at aimed
    split at aimed
    · rename_i v bytes i rest operands
      cases aimed
      have code : exec prog (.propSetDynamic accepts) s = ((s.operands rest).setProperty prog accepts o name v) := by
        show State.propSetDynamic prog accepts s = _
        rw [State.propSetDynamic, pop_value operands]
        rfl
      have found : (s.operands rest).object o = some obj := forbidden.found
      rw [code, setProperty_refused found forbidden.property forbidden.readonly forbidden.refused] at next
      cases next
      exact ⟨rfl, rfl, rfl⟩
    · cases aimed
  | _ => cases aimed

/-! ## One class -/

/-- `public readonly array $list`, in class 0. -/
def listProperty : Property := ⟨⟨ascii "list", .isPublic, 0⟩, 0, true, true, false⟩

/-- `class A { public function __construct(public readonly array $list) { } }` -/
def readonlyProgram : Program where
  classes := [⟨ascii "A", false, false, false, false, none, [], [listProperty.toPProperty], [], []⟩]
  properties := fun c => if c = 0 then [listProperty] else []
  slots := by
    intro c i p at_i
    split at at_i
    · cases i with
      | zero =>
        cases at_i
        rfl
      | succ i => cases at_i
    · cases at_i
  cfg := ⟨true, true, true, true, true⟩
  keyOf := fun _ => none

def runOps (prog : Program) (ops : List Op) (s : State) : Option State := ops.foldlM (fun s op => exec prog op s) s

/-- Steps that are allowed in every state, and keep readonly properties in each. -/
def plain : Op → Bool
  | .copy _ | .fresh _ | .mutatePush _ _ | .mutateReplace _ _ | .setField _ _ _ | .collect _ => false
  | _ => true

theorem allowed_of_plain (h : plain op = true) : Allowed s op := by
  cases op <;> trivial

theorem keeps_of_plain (h : plain op = true) : KeepsReadonly prog op s := by
  cases op <;> trivial

theorem run_of_ops {condition : Op → State → Prop} (meets : ∀ op s, plain op = true → condition op s) (ops : List Op)
    {before : State} (run : Run prog condition before s) (all : ops.all plain = true)
    (ran : runOps prog ops s = some s') : Run prog condition before s' := by
  induction ops generalizing s with
  | nil =>
    cases ran
    exact run
  | cons op rest ih =>
    rw [all_cons, Bool.and_eq_true] at all
    obtain ⟨s₁, next, ran⟩ := bind_eq_some_iff.mp ran
    exact ih (.step run (allowed_of_plain all.1) (meets op s all.1) next) all.2 ran

/-- `$o = new A([2, 1]);` -/
def construction : List Op :=
  [.pushData .null, .keep, .newObject 0 [0], .storeLocal 0, .loadLocal 0, .enter (some 0) 1 1, .loadLocal 0, .newArray,
    .pushData (.int 2), .arrPush, .pushData (.int 1), .arrPush, .built, .propSet true (ascii "list"), .drop, .abandon]

/-- `$o->list` as an argument. -/
def argument : List Op := [.loadLocal 0, .propGet false (ascii "list")]

/-- `$o->list = 3;` -/
def assignment : List Op := [.loadLocal 0, .pushData (.int 3), .propSet true (ascii "list")]

def constructed : State := (runOps readonlyProgram construction (.start 1)).get (by decide +kernel)

def assigned : State := (runOps readonlyProgram assignment constructed).get (by decide +kernel)

/-- `[1, 2]`, to which `sort` turns `[2, 1]`. -/
def sorted : Content :=
  (Content.empty.push readonlyProgram.cfg (.data (.int 1))).push readonlyProgram.cfg (.data (.int 2))

def given : State := (runOps readonlyProgram (construction ++ argument) (.start 1)).get (by decide +kernel)

def afterSort : State := (exec readonlyProgram (.mutateReplace 0 sorted) given).get (by decide +kernel)

/-- The first entry of an array. -/
def leading : Tree Key Data → Option Data
  | .array ((_, .data d) :: _) => some d
  | _ => none

end Readonly
end PhpPico.Sharing
