import PhpPico.Sharing.Counting

/-!
# Steps

Each instruction keeps the counts, and changes what a value reads only where it writes an array that the value
reaches.
-/

namespace PhpPico.Sharing
open CopyOnWrite Members OrderedMap
open Option (bind_eq_some_iff)

/-- What keeps a value from being touched: it is not only in the variable whose array is written, the array a native
writes is not in it, and what is released is had elsewhere. -/
def Spared (s : State) (w : PValue) : Op → Prop
  | .setIndex _ _ slot _ _ | .unsetIndex _ _ slot _ =>
    ∀ base a, s.readLocal slot = some base → w = .array a → count a [base] < count a s.places
  | .mutatePush i _ | .mutateReplace i _ => ∀ a, baseAt s i = some (.array a) → ¬ Reaches Content.entries s.heap w a
  | .releaseOne => ∀ v rest, s.pending = v :: rest → ∀ a, w = .array a → count a [v] < count a s.places
  | _ => True

/-- What a step does. -/
structure Effect (s : State) (op : Op) (s' : State) : Prop where
  sound : s'.Sound []
  agree : ∀ w ∈ s.places, Spared s w op → Agree Content.entries s.heap s'.heap w

section Moves
variable {prog : Program} {s s' : State} {held held' : List PValue} {op : Op} {v : PValue}

theorem effect_of_moved (sound : s'.Sound []) (heap : s'.heap = s.heap) : Effect s op s' :=
  ⟨sound, fun w _ _ => by rw [heap]; exact .refl _ w⟩

theorem State.Sound.operands {l : List Operand} (sound : s.Sound held)
    (le : ∀ a, count a (l.flatMap Operand.values) + count a held' ≤
      count a (s.frame.operands.flatMap Operand.values) + count a held) : (s.operands l).Sound held' := by
  refine sound.moved rfl fun a => ?_
  have moved := count_operands s l a
  have := le a
  omega

theorem State.Sound.popped (sound : s.Sound held) (popped : s.pop = some (v, s')) :
    s'.Sound (v :: held) ∧ s'.heap = s.heap :=
  ⟨sound.pop popped, (untouched_pop popped).2.1⟩

variable {slot i : Nat} {c : Content} {separates : Bool}

theorem State.Sound.setLocal {x y : Variable} (sound : s.Sound held) (at_slot : s.frame.locals[slot]? = some x)
    (le : ∀ a, count a y.values + count a held' ≤ count a x.values + count a held) :
    State.Sound { s with frame := { s.frame with locals := s.frame.locals.set slot y } } held' := by
  refine sound.moved rfl fun a => ?_
  rw [count_places, count_places]
  have moved := count_flatMap_set (a := a) Variable.values at_slot y
  have := le a
  simp only
  omega

theorem State.Sound.setStored {old : PValue} (sound : s.Sound (v :: held)) (at_i : s.stored[i]? = some old) :
    State.Sound { s with stored := s.stored.set i v } (old :: held) := by
  refine sound.moved rfl fun a => ?_
  rw [count_places, count_places, count_cons a old held, count_cons a v held]
  have moved := count_list_set (a := a) at_i v
  simp only
  omega

theorem loadLocal_effect (sound : s.Sound []) (next : exec prog (.loadLocal slot) s = some s') :
    Effect s (.loadLocal slot) s' := by
  obtain ⟨v, -, -, sound', -, agree, -⟩ := loadLocal_spec sound next
  exact ⟨sound', fun w _ _ => agree w⟩

theorem storeLocal_effect (sound : s.Sound []) (next : exec prog (.storeLocal slot) s = some s') :
    Effect s (.storeLocal slot) s' := by
  obtain ⟨⟨v, s₁⟩, popped, next⟩ := bind_eq_some_iff.mp next
  obtain ⟨sound₁, heap⟩ := sound.popped popped
  cases at_slot : s₁.frame.locals[slot]? with
  | none =>
    simp only [at_slot] at next
    cases next
  | some x =>
    cases x with
    | own old =>
      simp only [at_slot] at next
      cases next
      refine effect_of_moved (State.Sound.released (sound₁.setLocal at_slot fun a => ?_)) heap
      rw [count_cons a old []]
      exact le_of_eq (by rw [Variable.values, Variable.values, count_nil]; omega)
    | stored i =>
      simp only [at_slot] at next
      obtain ⟨old, at_i, next⟩ := bind_eq_some_iff.mp next
      cases next
      exact effect_of_moved (sound₁.setStored at_i).released heap

theorem bindLocal_effect (sound : s.Sound []) (next : exec prog (.bindLocal slot i) s = some s') :
    Effect s (.bindLocal slot i) s' := by
  replace next : State.bindLocal slot i s = some s' := next
  unfold State.bindLocal at next
  split at next
  · rename_i old at_slot
    cases next
    exact effect_of_moved (State.Sound.released (sound.setLocal at_slot fun a => by simp [Variable.values])) rfl
  · rename_i j at_slot
    cases next
    exact effect_of_moved (sound.setLocal at_slot fun a => le_rfl) rfl
  · cases next

theorem drop_effect (sound : s.Sound []) (next : exec prog .drop s = some s') : Effect s .drop s' := by
  replace next : State.drop s = some s' := next
  unfold State.drop at next
  split at next
  · rename_i v rest operands
    cases next
    refine effect_of_moved (State.Sound.released (sound.operands fun a => ?_)) rfl
    rw [operands, List.flatMap_cons, count_append, Operand.values]
    omega
  · rename_i c rest operands
    cases next
    refine effect_of_moved (State.Sound.releasedAll (sound.operands fun a => ?_)) rfl
    rw [operands]
    simp only [List.flatMap_cons, count_append, Operand.values]
    omega
  · cases next

theorem dup_effect (sound : s.Sound []) (next : exec prog .dup s = some s') : Effect s .dup s' := by
  replace next : State.dup s = some s' := next
  unfold State.dup at next
  split at next
  · rename_i v rest operands
    cases next
    have mem : v ∈ s.places := by
      simp [State.places, Frame.values, operands, Operand.values]
    exact ⟨(sound.retained (sound.live_place mem)).push, fun w _ _ => agree_retained⟩
  · cases next

theorem pushData_effect {d : Data} (sound : s.Sound []) (next : exec prog (.pushData d) s = some s') :
    Effect s (.pushData d) s' := by
  cases next
  refine effect_of_moved (State.Sound.push (sound.moved rfl fun a => ?_)) rfl
  rw [count_cons_data]

theorem copy_effect (sound : s.Sound []) (allowed : s.Held v) (next : exec prog (.copy v) s = some s') :
    Effect s (.copy v) s' := by
  cases next
  exact ⟨(sound.retained (sound.live allowed)).push, fun w _ _ => agree_retained⟩

theorem keep_effect (sound : s.Sound []) (next : exec prog .keep s = some s') : Effect s .keep s' := by
  obtain ⟨⟨v, s₁⟩, popped, next⟩ := bind_eq_some_iff.mp next
  obtain ⟨sound₁, heap⟩ := sound.popped popped
  cases next
  refine effect_of_moved (sound₁.moved rfl fun a => ?_) heap
  rw [count_places, count_places]
  simp only [count_append, count_nil]
  omega

theorem replaceStored_effect (sound : s.Sound []) (next : exec prog (.replaceStored i) s = some s') :
    Effect s (.replaceStored i) s' := by
  obtain ⟨⟨v, s₁⟩, popped, next⟩ := bind_eq_some_iff.mp next
  obtain ⟨sound₁, heap⟩ := sound.popped popped
  obtain ⟨old, at_i, next⟩ := bind_eq_some_iff.mp next
  cases next
  exact effect_of_moved (sound₁.setStored at_i).released heap

/-! ## Literals -/

theorem newArray_effect (sound : s.Sound []) (next : exec prog .newArray s = some s') : Effect s .newArray s' := by
  cases next
  refine effect_of_moved (sound.operands fun a => ?_) rfl
  rw [List.flatMap_cons, count_append]
  exact le_of_eq (by rw [Operand.values]; simp [values, Content.empty, Content.entries, Dict.empty])

theorem State.Sound.arrPut {key : Option Key} {rest : List Operand} (sound : s.Sound held)
    (le : ∀ a, count a [v] + count a (values Content.entries c) + count a (rest.flatMap Operand.values) +
      count a held' ≤ count a (s.frame.operands.flatMap Operand.values) + count a held) :
    (s.arrPut prog key v rest c).Sound held' := by
  refine State.Sound.releasedAll (sound.operands fun a => ?_)
  have set : count a (values Content.entries (c.set prog.cfg (key.getD (.int c.dict.next)) v)) +
      count a (c.old (key.getD (.int c.dict.next))) = count a (values Content.entries c) + count a [v] := count_set
  have := le a
  rw [List.flatMap_cons, count_append, count_append, Operand.values]
  omega

theorem arrPush_effect (sound : s.Sound []) (next : exec prog .arrPush s = some s') : Effect s .arrPush s' := by
  replace next : State.arrPush prog s = some s' := next
  unfold State.arrPush at next
  split at next
  · rename_i v c rest operands
    cases next
    refine effect_of_moved (sound.arrPut fun a => ?_) rfl
    rw [operands]
    simp only [List.flatMap_cons, count_append, Operand.values]
    omega
  · cases next

theorem arrSet_effect (sound : s.Sound []) (next : exec prog .arrSet s = some s') : Effect s .arrSet s' := by
  replace next : State.arrSet prog s = some s' := next
  unfold State.arrSet at next
  split at next
  · rename_i v key c rest operands
    cases wanted : prog.keyOf key with
    | none =>
      rw [wanted] at next
      cases next
      refine effect_of_moved (State.Sound.releasedAll (sound.operands fun a => ?_)).fail rfl
      rw [operands]
      simp only [List.flatMap_cons, count_append, Operand.values, List.append_nil]
      rw [count_cons a v, count_cons a key]
      omega
    | some k =>
      rw [wanted] at next
      cases next
      refine effect_of_moved (State.Sound.released (sound.arrPut fun a => ?_)) rfl
      rw [operands]
      simp only [List.flatMap_cons, count_append, Operand.values]
      omega
  · cases next

theorem arrExtend_effect (sound : s.Sound []) (next : exec prog .arrExtend s = some s') : Effect s .arrExtend s' := by
  replace next : State.arrExtend prog s = some s' := next
  unfold State.arrExtend at next
  split at next
  · rename_i a c rest operands
    obtain ⟨cell, found, next⟩ := bind_eq_some_iff.mp next
    cases next
    have retained := sound.retainedAll fun v mem => sound.live_entry found mem
    refine ⟨State.Sound.released (State.Sound.releasedAll (retained.operands fun x => ?_)),
      fun w _ _ => agree_retainedAll⟩
    have extended : count x (values Content.entries (cell.content.entries.foldl (State.extend prog.cfg) (c, [])).1) +
        count x (cell.content.entries.foldl (State.extend prog.cfg) (c, [])).2 = count x (values Content.entries c) +
          count x [] + count x (values Content.entries cell.content) := count_extend
    have same : (s.retainedAll (values Content.entries cell.content)).frame.operands = s.frame.operands := rfl
    rw [same, operands]
    simp only [List.flatMap_cons, count_append, Operand.values, count_nil] at extended ⊢
    omega
  · rename_i d c rest operands
    cases next
    refine effect_of_moved (State.Sound.releasedAll (sound.operands fun a => ?_)).fail rfl
    rw [operands]
    simp only [List.flatMap_cons, count_append, Operand.values, List.append_nil, count_nil]
    omega
  · cases next

theorem built_effect (sound : s.Sound []) (next : exec prog .built s = some s') : Effect s .built s' := by
  replace next : State.built s = some s' := next
  unfold State.built at next
  split at next
  · rename_i c rest operands
    cases next
    have popped : (s.operands rest).Sound (values Content.entries c ++ []) := by
      refine sound.operands fun a => ?_
      rw [operands]
      simp only [List.flatMap_cons, count_append, Operand.values, count_nil]
      omega
    refine ⟨popped.created.push, fun w mem _ => ?_⟩
    exact sound.agree_alloc refcntMax_pos (sound.live_place mem)
  · cases next

/-! ## Arrays -/

theorem setIndex_effect {writes : Bool} {valueSlot : Nat} {keySlot : Option Nat} (sound : s.Sound [])
    (next : exec prog (.setIndex separates writes slot keySlot valueSlot) s = some s') :
    Effect s (.setIndex separates writes slot keySlot valueSlot) s' := by
  obtain ⟨sound', -, agree⟩ := setIndex_spec sound next
  exact ⟨sound', fun w mem spared => agree w (sound.live_place mem) spared⟩

theorem unsetIndex_effect {removes : Bool} {keySlot : Nat} (sound : s.Sound [])
    (next : exec prog (.unsetIndex separates removes slot keySlot) s = some s') :
    Effect s (.unsetIndex separates removes slot keySlot) s' := by
  obtain ⟨sound', -, agree⟩ := unsetIndex_spec sound next
  exact ⟨sound', fun w mem spared => agree w (sound.live_place mem) spared⟩

theorem arrSeparate_effect (sound : s.Sound [])
    (next : exec prog (.arrSeparate separates) s = some s') : Effect s (.arrSeparate separates) s' := by
  obtain ⟨⟨v, s₁⟩, popped, next⟩ := bind_eq_some_iff.mp next
  obtain ⟨sound₁, heap⟩ := sound.popped popped
  cases v with
  | data d =>
    cases next
    refine effect_of_moved (State.Sound.fail (sound₁.moved rfl fun a => ?_)) heap
    rw [count_cons_data]
  | array a =>
    obtain ⟨⟨writable, s₂⟩, separated, next⟩ := bind_eq_some_iff.mp next
    cases writable with
    | none =>
      cases arrayForWrite_none separated
      cases next
      exact effect_of_moved sound₁.released.fail heap
    | some b =>
      obtain ⟨sound₂, -, -, agree⟩ := arrayForWrite_spec sound₁ separated
      cases next
      rw [heap] at agree
      exact ⟨sound₂.push, fun w mem _ => (agree w (sound.live_place mem)).1⟩

theorem indexGet_effect (sound : s.Sound []) (next : exec prog .indexGet s = some s') : Effect s .indexGet s' := by
  obtain ⟨⟨key, s₁⟩, popped, next⟩ := bind_eq_some_iff.mp next
  obtain ⟨⟨base, s₂⟩, popped_base, next⟩ := bind_eq_some_iff.mp next
  obtain ⟨sound₁, heap₁⟩ := sound.popped popped
  obtain ⟨sound₂, heap₂⟩ := sound₁.popped popped_base
  have heap : s₂.heap = s.heap := heap₂.trans heap₁
  cases base with
  | data d =>
    cases next
    refine effect_of_moved (State.Sound.push (State.Sound.released (sound₂.moved rfl fun a => ?_))) heap
    rw [count_cons_data, count_cons a key [pvNull], pvNull, count_cons_data, count_nil]
    omega
  | array a =>
    obtain ⟨cell, found, next⟩ := bind_eq_some_iff.mp next
    cases next
    have live : Live s₂.heap (((prog.keyOf key).bind cell.content.dict.get).getD pvNull) := by
      cases got : (prog.keyOf key).bind cell.content.dict.get with
      | none => exact live_null _
      | some v =>
        obtain ⟨k, -, found_v⟩ := bind_eq_some_iff.mp got
        obtain ⟨before, after, split⟩ := lookup_split found_v
        refine sound₂.live_entry found (mem_values.mpr ⟨k, ?_⟩)
        show (k, v) ∈ cell.content.dict.entries
        rw [split]
        exact List.mem_append_right _ (.head _)
    refine ⟨State.Sound.released (State.Sound.released (((sound₂.retained live).push).perm (List.Perm.swap _ _ _))),
      fun w _ _ => ?_⟩
    rw [← heap]
    exact agree_retained

theorem fresh_effect (sound : s.Sound []) (allowed : ∀ v ∈ values Content.entries c, s.Held v)
    (next : exec prog (.fresh c) s = some s') : Effect s (.fresh c) s' := by
  cases next
  have retained := sound.retainedAll fun v mem => sound.live (allowed v mem)
  have created := retained.created
  rw [show (s.retainedAll (values Content.entries c)).heap.length = s.heap.length from length_retainAll _] at created
  refine ⟨created.push, fun w mem _ => agree_retainedAll.trans (retained.agree_alloc refcntMax_pos ?_)⟩
  exact (sound.live_place mem).of_contents (retainAll_contents _)

theorem operand_array {a : Nat} (at_i : s.frame.operands[i]? = some (.value (.array a))) :
    baseAt s i = some (.array a) := by rw [baseAt, at_i]

theorem mutatePush_effect (sound : s.Sound []) (allowed : s.Held v)
    (next : exec prog (.mutatePush i v) s = some s') : Effect s (.mutatePush i v) s' := by
  replace next : State.mutatePush prog i v s = some s' := next
  unfold State.mutatePush at next
  split at next
  · rename_i a at_i
    obtain ⟨cell, found, next⟩ := bind_eq_some_iff.mp next
    cases next
    have retained := sound.retained (sound.live allowed)
    obtain ⟨cell', found', content⟩ := found_of_contents (retain_contents v a) found
    have written : ((s.retained v).written a (cell.content.push prog.cfg v)).Sound
        (cell.content.old (.int cell.content.dict.next) ++ []) := by
      refine State.Sound.written [v] retained found' fun x => ?_
      rw [content]
      exact count_set.le
    refine ⟨written.releasedAll, fun w mem spared => agree_retained.trans (agree_overwrite fun reaches => ?_)⟩
    exact spared a (operand_array at_i) (agree_retained.reaches_back reaches)
  · cases next

theorem mutateReplace_effect (sound : s.Sound []) (allowed : ∀ v ∈ values Content.entries c, s.Held v)
    (next : exec prog (.mutateReplace i c) s = some s') : Effect s (.mutateReplace i c) s' := by
  replace next : State.mutateReplace i c s = some s' := next
  unfold State.mutateReplace at next
  split at next
  · rename_i a at_i
    obtain ⟨cell, found, next⟩ := bind_eq_some_iff.mp next
    cases next
    have retained := sound.retainedAll fun v mem => sound.live (allowed v mem)
    obtain ⟨cell', found', content⟩ := found_of_contents (retainAll_contents (values Content.entries c) a) found
    have written : ((s.retainedAll (values Content.entries c)).written a c).Sound
        (values Content.entries cell.content ++ []) := by
      refine State.Sound.written (values Content.entries c) retained found' fun x => ?_
      rw [content]
      omega
    refine ⟨written.releasedAll, fun w mem spared => agree_retainedAll.trans (agree_overwrite fun reaches => ?_)⟩
    exact spared a (operand_array at_i) (agree_retainedAll.reaches_back reaches)
  · cases next

end Moves
/-! ## Objects -/

section Objects
variable {prog : Program} {s s' : State} {held held' : List PValue} {v : PValue} {o : Nat} {obj : PObject}

theorem object_at (found : s.object o = some obj) : s.objects[o]? = some (some obj) := by
  unfold State.object at found
  cases at_o : s.objects[o]? with
  | none =>
    rw [at_o] at found
    cases found
  | some x =>
    rw [at_o] at found
    cases found
    rfl

theorem slot_mem (found : s.object o = some obj) (mem : v ∈ obj.slots) : v ∈ s.places := by
  have inside : v ∈ s.objects.flatMap slotsOf :=
    List.mem_flatMap.mpr ⟨some obj, List.mem_of_getElem? (object_at found), mem⟩
  simp [State.places, inside]

theorem State.Sound.live_slot (sound : s.Sound held) (found : s.object o = some obj) (slot : Nat) :
    Live s.heap (obj.slots.getD slot pvNull) := by
  rw [List.getD_eq_getElem?_getD]
  cases at_slot : obj.slots[slot]? with
  | none => exact live_null _
  | some v => exact sound.live_place (slot_mem found (List.mem_of_getElem? at_slot))

theorem count_set_slot (l : List PValue) (slot : Nat) (v : PValue) (a : Nat) :
    count a (l.set slot v) + count a [l.getD slot pvNull] ≤ count a l + count a [v] := by
  rw [List.getD_eq_getElem?_getD]
  cases at_slot : l[slot]? with
  | none =>
    rw [List.set_eq_of_length_le (List.getElem?_eq_none_iff.mp at_slot)]
    show _ + count a [pvNull] ≤ _
    rw [pvNull, count_cons_data, count_nil]
    omega
  | some x =>
    have moved := count_list_set (a := a) at_slot v
    show _ + count a [x] ≤ _
    omega

theorem State.Sound.slotSet {obj' : PObject} (sound : s.Sound held) (found : s.object o = some obj)
    (le : ∀ a, count a obj'.slots + count a held' ≤ count a obj.slots + count a held) :
    (s.slotSet o obj').Sound held' := by
  refine sound.moved rfl fun a => ?_
  rw [count_places, count_places]
  have moved := count_flatMap_set (a := a) slotsOf (object_at found) (some obj')
  have old : count a (slotsOf (some obj)) = count a obj.slots := rfl
  have new : count a (slotsOf (some obj')) = count a obj'.slots := rfl
  have := le a
  simp only [State.slotSet]
  omega

theorem State.Sound.push_null (sound : s.Sound []) : (s.push pvNull).Sound [] :=
  State.Sound.push (sound.moved rfl fun a => by rw [pvNull, count_cons_data])

variable {quiet accepts : Bool} {name : List UInt8}

theorem getProperty_spec (sound : s.Sound []) (next : s.getProperty prog quiet o name = some s') :
    s'.Sound [] ∧ Untouched s s' ∧ ∀ w, Agree Content.entries s.heap s'.heap w := by
  obtain ⟨obj, found, next⟩ := bind_eq_some_iff.mp next
  have null : (s.push pvNull).Sound [] ∧ Untouched s (s.push pvNull) ∧
      ∀ w, Agree Content.entries s.heap (s.push pvNull).heap w :=
    ⟨sound.push_null, ⟨rfl, rfl, rfl, rfl, rfl⟩, .refl _⟩
  have failed : s.fail.Sound [] ∧ Untouched s s.fail ∧ ∀ w, Agree Content.entries s.heap s.fail.heap w :=
    ⟨sound.fail, ⟨rfl, rfl, rfl, rfl, rfl⟩, .refl _⟩
  cases at_name : State.findProperty prog obj name with
  | none =>
    simp only [at_name] at next
    cases next
    cases quiet with
    | true => exact null
    | false =>
      simp only [Bool.false_eq_true, if_false]
      split
      · exact ⟨sound, .refl _, .refl _⟩
      · exact failed
  | some p =>
    simp only [at_name] at next
    split at next
    · cases next
      cases quiet with
      | true => exact null
      | false => exact failed
    · split at next
      · cases next
        exact failed
      · cases next
        exact ⟨(sound.retained (sound.live_slot found p.slot)).push, ⟨rfl, rfl, rfl, rfl, rfl⟩, fun w => agree_retained⟩

/-- The ways `OP_PROP_SET` can go: the object is as it was, or the slot of a property is written that is visible, and
not readonly or written for the first time in its class. -/
theorem setProperty_cases (next : s.setProperty prog accepts o name v = some s') :
    (∃ obj, s.object o = some obj) ∧ (s' = s.push v ∨ s' = (s.released v).fail ∨
    ∃ obj p, s.object o = some obj ∧ State.findProperty prog obj name = some p ∧
      memberVisible prog.classes p.visibility p.owner s.frame.calledScope = true ∧
      (p.isReadonly = true → s.frame.calledScope = some p.owner ∧ obj.written.getD p.slot false = false) ∧
      s' = (((s.retained v).slotSet o
        { obj with slots := obj.slots.set p.slot v, written := obj.written.set p.slot true }).released
          (obj.slots.getD p.slot pvNull)).push v) := by
  obtain ⟨obj, found, next⟩ := bind_eq_some_iff.mp next
  refine ⟨⟨obj, found⟩, ?_⟩
  cases at_name : State.findProperty prog obj name with
  | none =>
    simp only [at_name] at next
    split at next
    · cases next
      exact .inl rfl
    · cases next
      exact .inr (.inl rfl)
  | some p =>
    simp only [at_name] at next
    split at next
    · cases next
      exact .inr (.inl rfl)
    · rename_i visible
      split at next
      · cases next
        exact .inr (.inl rfl)
      · rename_i allowed
        split at next
        · cases next
          exact .inr (.inl rfl)
        · cases next
          refine .inr (.inr ⟨obj, p, found, at_name, by simpa using visible, fun readonly => ⟨?_, ?_⟩, rfl⟩)
          · exact by_contra fun other => allowed ⟨readonly, .inl other⟩
          · exact Bool.eq_false_iff.mpr fun written => allowed ⟨readonly, .inr written⟩

theorem setProperty_spec (sound : s.Sound [v]) (next : s.setProperty prog accepts o name v = some s') :
    s'.Sound [] ∧ ∀ w, Agree Content.entries s.heap s'.heap w := by
  obtain ⟨-, rfl | rfl | ⟨obj, p, found, -, -, -, rfl⟩⟩ := setProperty_cases next
  · exact ⟨sound.push, .refl _⟩
  · exact ⟨sound.released.fail, .refl _⟩
  · have retained : (s.retained v).Sound (v :: [v]) := sound.retained (sound.live_held (List.mem_singleton_self v))
    have found' : (s.retained v).object o = some obj := found
    refine ⟨State.Sound.push (State.Sound.released (retained.slotSet found' fun a => ?_)), fun w => agree_retained⟩
    have moved := count_set_slot obj.slots p.slot v a
    show count a (obj.slots.set p.slot v) + _ ≤ _
    rw [count_cons a _ [v], count_cons a v [v]]
    omega

theorem noObject_effect {s₁ : State} (sound : s₁.Sound []) (heap : s₁.heap = s.heap) {op : Op} :
    Effect s op (s₁.noObject quiet) := by
  cases quiet with
  | true => exact effect_of_moved sound.push_null heap
  | false => exact effect_of_moved sound.fail heap

theorem propGet_effect (sound : s.Sound [])
    (next : exec prog (.propGet quiet name) s = some s') : Effect s (.propGet quiet name) s' := by
  obtain ⟨⟨v, s₁⟩, popped, next⟩ := bind_eq_some_iff.mp next
  obtain ⟨sound₁, heap⟩ := sound.popped popped
  dsimp only at next
  split at next
  · obtain ⟨sound', -, agree⟩ := getProperty_spec (sound₁.moved rfl fun a => by rw [count_cons_data]) next
    exact ⟨sound', fun w _ _ => heap ▸ agree w⟩
  · cases next
    exact noObject_effect sound₁.released heap

theorem propGetDynamic_effect (sound : s.Sound [])
    (next : exec prog (.propGetDynamic quiet) s = some s') : Effect s (.propGetDynamic quiet) s' := by
  obtain ⟨⟨name, s₁⟩, popped, next⟩ := bind_eq_some_iff.mp next
  obtain ⟨⟨v, s₂⟩, popped', next⟩ := bind_eq_some_iff.mp next
  obtain ⟨sound₁, heap₁⟩ := sound.popped popped
  obtain ⟨sound₂, heap₂⟩ := sound₁.popped popped'
  have heap : s₂.heap = s.heap := heap₂.trans heap₁
  dsimp only at next
  split at next
  · obtain ⟨sound', -, agree⟩ := getProperty_spec
      (sound₂.moved rfl fun a => by rw [count_cons_data, count_cons_data]) next
    exact ⟨sound', fun w _ _ => heap ▸ agree w⟩
  · cases next
    exact noObject_effect sound₂.released.released heap

theorem propSet_effect (sound : s.Sound [])
    (next : exec prog (.propSet accepts name) s = some s') : Effect s (.propSet accepts name) s' := by
  obtain ⟨⟨v, s₁⟩, popped, next⟩ := bind_eq_some_iff.mp next
  obtain ⟨⟨base, s₂⟩, popped', next⟩ := bind_eq_some_iff.mp next
  obtain ⟨sound₁, heap₁⟩ := sound.popped popped
  obtain ⟨sound₂, heap₂⟩ := sound₁.popped popped'
  have heap : s₂.heap = s.heap := heap₂.trans heap₁
  dsimp only at next
  split at next
  · obtain ⟨sound', agree⟩ := setProperty_spec (sound₂.moved rfl fun a => by rw [count_cons_data]) next
    exact ⟨sound', fun w _ _ => heap ▸ agree w⟩
  · cases next
    exact effect_of_moved sound₂.released.released.fail heap

theorem propSetDynamic_effect (sound : s.Sound [])
    (next : exec prog (.propSetDynamic accepts) s = some s') : Effect s (.propSetDynamic accepts) s' := by
  obtain ⟨⟨v, s₁⟩, popped, next⟩ := bind_eq_some_iff.mp next
  obtain ⟨⟨name, s₂⟩, popped', next⟩ := bind_eq_some_iff.mp next
  obtain ⟨⟨base, s₃⟩, popped'', next⟩ := bind_eq_some_iff.mp next
  obtain ⟨sound₁, heap₁⟩ := sound.popped popped
  obtain ⟨sound₂, heap₂⟩ := sound₁.popped popped'
  obtain ⟨sound₃, heap₃⟩ := sound₂.popped popped''
  have heap : s₃.heap = s.heap := heap₃.trans (heap₂.trans heap₁)
  dsimp only at next
  split at next
  · obtain ⟨sound', agree⟩ := setProperty_spec
      (sound₃.moved rfl fun a => by rw [count_cons_data, count_cons_data]) next
    exact ⟨sound', fun w _ _ => heap ▸ agree w⟩
  · cases next
    have reversed : s₃.Sound [v, name, base] := sound₃.perm (List.reverse_perm [v, name, base])
    exact effect_of_moved reversed.released.released.released.fail heap

theorem State.Sound.addObject (sound : s.Sound (obj.slots ++ held)) : (s.addObject obj).Sound held := by
  refine sound.moved rfl fun a => ?_
  rw [count_places, count_places, count_append a obj.slots held]
  have own : count a (slotsOf (some obj)) = count a obj.slots := rfl
  simp only [State.addObject, List.flatMap_append, List.flatMap_singleton, count_append]
  omega

theorem State.Sound.push_object (sound : s.Sound []) (o : Nat) : (s.push (.data (.object o))).Sound [] :=
  State.Sound.push (sound.moved rfl fun a => by rw [count_cons_data])

theorem newObject_effect {classEntry : Nat} {defaults : List Nat} (sound : s.Sound [])
    (next : exec prog (.newObject classEntry defaults) s = some s') : Effect s (.newObject classEntry defaults) s' := by
  cases next
  have live : ∀ v ∈ defaults.map fun i => s.stored.getD i pvNull, Live s.heap v := by
    intro v mem
    obtain ⟨i, -, rfl⟩ := List.mem_map.mp mem
    rw [List.getD_eq_getElem?_getD]
    cases at_i : s.stored[i]? with
    | none => exact live_null _
    | some v =>
      have mem := List.mem_of_getElem? at_i
      exact sound.live_place (by simp [State.places, mem])
  have retained := sound.retainedAll live
  exact ⟨State.Sound.push_object (State.Sound.addObject retained) _, fun w _ _ => agree_retainedAll⟩

theorem cloneObject_effect (sound : s.Sound []) (next : exec prog .cloneObject s = some s') :
    Effect s .cloneObject s' := by
  obtain ⟨⟨v, s₁⟩, popped, next⟩ := bind_eq_some_iff.mp next
  obtain ⟨sound₁, heap⟩ := sound.popped popped
  dsimp only at next
  split at next
  · obtain ⟨obj, found, next⟩ := bind_eq_some_iff.mp next
    cases next
    have plain : s₁.Sound [] := sound₁.moved rfl fun a => by rw [count_cons_data]
    have retained := plain.retainedAll fun v mem => plain.live_place (slot_mem found mem)
    refine ⟨State.Sound.push_object retained.addObject _, fun w _ _ => ?_⟩
    rw [← heap]
    exact agree_retainedAll
  · cases next
    exact effect_of_moved sound₁.released.fail heap

theorem setField_effect {d : Data} (sound : s.Sound [])
    (next : exec prog (.setField o name d) s = some s') : Effect s (.setField o name d) s' := by
  obtain ⟨obj, found, next⟩ := bind_eq_some_iff.mp next
  cases at_name : State.findProperty prog obj name with
  | none =>
    simp only [at_name] at next
    cases next
    exact effect_of_moved sound rfl
  | some p =>
    simp only [at_name] at next
    cases next
    refine effect_of_moved (State.Sound.released (sound.slotSet found fun a => ?_)) rfl
    have moved := count_set_slot obj.slots p.slot (.data d) a
    rw [count_cons_data] at moved
    exact moved

/-! ## Calls -/

theorem popArguments_spec {n : Nat} {vs : List PValue} (sound : s.Sound held)
    (popped : State.popArguments n s = some (vs, s')) : s'.Sound (vs ++ held) ∧ s'.heap = s.heap := by
  induction n generalizing s held vs with
  | zero =>
    cases popped
    exact ⟨sound, rfl⟩
  | succ n ih =>
    obtain ⟨⟨v, s₁⟩, first, popped⟩ := bind_eq_some_iff.mp popped
    obtain ⟨⟨rest, s₂⟩, later, popped⟩ := bind_eq_some_iff.mp popped
    cases popped
    obtain ⟨sound₁, heap⟩ := sound.popped first
    obtain ⟨sound₂, heap₂⟩ := ih sound₁ later
    refine ⟨?_, heap₂.trans heap⟩
    rw [List.append_assoc]
    exact sound₂

theorem flatMap_own (vs : List PValue) : (vs.map Variable.own).flatMap Variable.values = vs := by
  induction vs with
  | nil => rfl
  | cons v rest ih =>
    rw [List.map_cons, List.flatMap_cons, Variable.values, ih]
    rfl

theorem count_nulls (n a : Nat) : count a ((List.replicate n (Variable.own pvNull)).flatMap Variable.values) = 0 := by
  induction n with
  | zero => rfl
  | succ n ih =>
    rw [List.replicate_succ, List.flatMap_cons, count_append, ih, Variable.values, pvNull, count_cons_data, count_nil]

theorem enter_effect {scope : Option Nat} {arguments locals : Nat} (sound : s.Sound [])
    (next : exec prog (.enter scope arguments locals) s = some s') : Effect s (.enter scope arguments locals) s' := by
  obtain ⟨⟨vs, s₁⟩, popped, next⟩ := bind_eq_some_iff.mp next
  obtain ⟨sound₁, heap⟩ := popArguments_spec sound popped
  cases next
  refine effect_of_moved (sound₁.moved rfl fun a => ?_) heap
  rw [count_places, count_places]
  simp only [List.flatMap_append, List.flatMap_cons, List.flatMap_nil, count_append, count_nil, flatMap_own,
    count_nulls, Frame.values]
  omega

theorem abandon_spec (sound : s.Sound held) (next : s.abandon = some s') : s'.Sound held ∧ s'.heap = s.heap := by
  unfold State.abandon at next
  cases callers : s.callers with
  | nil =>
    rw [callers] at next
    cases next
  | cons caller rest =>
    rw [callers] at next
    cases next
    refine ⟨sound.moved rfl fun a => ?_, rfl⟩
    rw [count_places, count_places, callers]
    simp only [List.flatMap_cons, count_append, Frame.values]
    omega

theorem leave_effect (sound : s.Sound []) (next : exec prog .leave s = some s') : Effect s .leave s' := by
  obtain ⟨⟨v, s₁⟩, popped, next⟩ := bind_eq_some_iff.mp next
  obtain ⟨s₂, left, next⟩ := bind_eq_some_iff.mp next
  obtain ⟨sound₁, heap⟩ := sound.popped popped
  obtain ⟨sound₂, heap₂⟩ := abandon_spec sound₁ left
  cases next
  exact effect_of_moved sound₂.push (heap₂.trans heap)

/-! ## The end of values -/

theorem releaseOne_effect (sound : s.Sound []) (next : exec prog .releaseOne s = some s') :
    Effect s .releaseOne s' := by
  replace next : s.releaseOne = some s' := next
  unfold State.releaseOne at next
  split at next
  · cases next
  · rename_i d rest pending
    cases next
    refine effect_of_moved (sound.moved rfl fun a => ?_) rfl
    rw [count_places, count_places, pending, count_cons_data]
  · rename_i b rest pending
    cases next
    have places : ∀ a, count a s.places =
        count a ({ s with pending := rest } : State).places + if b = a then 1 else 0 := by
      intro a
      rw [count_places, count_places, pending, count_cons_array]
      simp only
      omega
    have counted : Counted refcntMax Content.entries s.heap fun a =>
        count a ({ s with pending := rest } : State).places + if b = a then 1 else 0 := by
      refine sound.mono fun a => ?_
      have := places a
      rw [count_nil]
      omega
    constructor
    · refine (counted_release refcntMax_pos counted).mono fun a => ?_
      rw [count_places, count_places]
      simp only [count_append, count_nil]
      omega
    · intro w mem spared
      refine counted.agree_release refcntMax_pos fun a same => ?_
      have elsewhere := spared _ rest pending a same
      have := places a
      rw [count_cons_array, count_nil] at elsewhere
      omega

theorem destroy_effect (sound : s.Sound []) (next : exec prog (.destroy o) s = some s') : Effect s (.destroy o) s' := by
  obtain ⟨obj, found, next⟩ := bind_eq_some_iff.mp next
  cases next
  refine effect_of_moved (State.Sound.releasedAll (sound.moved rfl fun a => ?_)) rfl
  rw [count_places, count_places]
  have moved := count_flatMap_set (a := a) slotsOf (object_at found) none
  have old : count a (slotsOf (some obj)) = count a obj.slots := rfl
  have new : count a (slotsOf none) = 0 := rfl
  simp only [count_append, count_nil]
  omega

theorem collect_effect {a : Nat} (sound : s.Sound []) (allowed : ∀ v ∈ s.places, ¬ Reaches Content.entries s.heap v a)
    (next : exec prog (.collect a) s = some s') : Effect s (.collect a) s' := by
  obtain ⟨cell, found, next⟩ := bind_eq_some_iff.mp next
  cases next
  have written : (s.written a .empty).Sound (values Content.entries cell.content ++ []) := by
    refine State.Sound.written [] sound found fun x => ?_
    have empty : count x (values Content.entries Content.empty) = 0 := rfl
    rw [empty, count_nil]
    omega
  exact ⟨written.releasedAll, fun w mem _ => agree_overwrite (allowed w mem)⟩

/-- **Each step** keeps the counts, and what reads the same as before is what it spares. -/
theorem exec_effect {op : Op} (sound : s.Sound []) (allowed : Allowed s op) (next : exec prog op s = some s') :
    Effect s op s' := by
  cases op with
  | loadLocal => exact loadLocal_effect sound next
  | storeLocal => exact storeLocal_effect sound next
  | bindLocal => exact bindLocal_effect sound next
  | drop => exact drop_effect sound next
  | dup => exact dup_effect sound next
  | pushData => exact pushData_effect sound next
  | copy => exact copy_effect sound allowed next
  | keep => exact keep_effect sound next
  | replaceStored => exact replaceStored_effect sound next
  | newArray => exact newArray_effect sound next
  | arrPush => exact arrPush_effect sound next
  | arrSet => exact arrSet_effect sound next
  | arrExtend => exact arrExtend_effect sound next
  | built => exact built_effect sound next
  | indexGet => exact indexGet_effect sound next
  | setIndex => exact setIndex_effect sound next
  | unsetIndex => exact unsetIndex_effect sound next
  | arrSeparate => exact arrSeparate_effect sound next
  | fresh => exact fresh_effect sound allowed next
  | mutatePush => exact mutatePush_effect sound allowed next
  | mutateReplace => exact mutateReplace_effect sound allowed next
  | propGet => exact propGet_effect sound next
  | propGetDynamic => exact propGetDynamic_effect sound next
  | propSet => exact propSet_effect sound next
  | propSetDynamic => exact propSetDynamic_effect sound next
  | newObject => exact newObject_effect sound next
  | cloneObject => exact cloneObject_effect sound next
  | setField => exact setField_effect sound next
  | enter => exact enter_effect sound next
  | abandon =>
    obtain ⟨sound', heap⟩ := abandon_spec sound next
    exact effect_of_moved sound' heap
  | leave => exact leave_effect sound next
  | releaseOne => exact releaseOne_effect sound next
  | destroy => exact destroy_effect sound next
  | collect => exact collect_effect sound allowed next
  | caught =>
    cases next
    exact effect_of_moved (sound.moved rfl fun _ => le_rfl) rfl

theorem sound_start (locals : Nat) : (State.start locals).Sound [] := by
  intro a
  right
  have nothing : count a (State.start locals).places = 0 := by
    rw [count_places]
    simp only [State.start, count_nulls, List.flatMap_nil, count_nil]
  simp only [nothing, count_nil]
  exact rfl.le

/-- **In each reachable state the counts are right.** -/
theorem Run.sound {condition : Op → State → Prop} (run : Run prog condition s s') (sound : s.Sound []) :
    s'.Sound [] := by
  induction run with
  | refl => exact sound
  | step before allowed meets next ih => exact (exec_effect ih allowed next).sound

end Objects
end PhpPico.Sharing
