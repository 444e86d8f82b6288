import PhpPico.Sharing.Machine

/-!
# The counts of arrays

No step brings the count of an array below the number of references to it. What an instruction has taken from places
is counted too.
-/

namespace PhpPico.Sharing
open CopyOnWrite Members OrderedMap
open Option (bind_eq_some_iff)

theorem refcntMax_pos : 0 < refcntMax := by decide

/-- The counts are high enough for the places, and for what an instruction holds besides. -/
def State.Sound (s : State) (held : List PValue) : Prop :=
  Counted refcntMax Content.entries s.heap fun a => count a s.places + count a held

/-! ## Contents -/

section Contents
variable {cfg : Config} {c : Content} {key : Key} {v : PValue} {a : Nat}

theorem mem_values {v : PValue} : v ∈ values Content.entries c ↔ ∃ k, (k, v) ∈ c.entries := by
  rw [values, List.mem_map]
  constructor
  · rintro ⟨⟨k, w⟩, mem, rfl⟩
    exact ⟨k, mem⟩
  · rintro ⟨k, mem⟩
    exact ⟨(k, v), mem, rfl⟩

theorem lookup_split {l : List (Key × PValue)} {w : PValue} (found : l.lookup key = some w) :
    ∃ before after, l = before ++ (key, w) :: after := by
  induction l with
  | nil => cases found
  | cons e rest ih =>
    obtain ⟨k, x⟩ := e
    rw [List.lookup_cons] at found
    by_cases same : key = k
    · subst same
      rw [beq_self_eq_true] at found
      cases found
      exact ⟨[], rest, rfl⟩
    · rw [beq_false_of_ne same] at found
      obtain ⟨before, after, rfl⟩ := ih found
      exact ⟨(k, x) :: before, after, rfl⟩

/-- **A set entry**: the value comes, and the old one goes. -/
theorem count_set : count a (values Content.entries (c.set cfg key v)) + count a (c.old key) =
    count a (values Content.entries c) + count a [v] := by
  have entries : (c.set cfg key v).entries = OrderedMap.set c.entries key v := by
    show (c.dict.set cfg key v).entries = _
    unfold Dict.set
    split <;> rfl
  rw [values, entries, Content.old, Dict.get]
  show _ + count a (c.entries.lookup key).toList = _
  have distinct : (keys c.entries).Nodup := c.distinct
  cases found : c.entries.lookup key with
  | none =>
    have absent : key ∉ keys c.entries := by
      intro present
      obtain ⟨⟨k, w⟩, mem, rfl⟩ := List.mem_map.mp present
      have := List.lookup_eq_none_iff.mp found (k, w) mem
      simp at this
    rw [set_of_not_mem v absent, List.map_append, count_append]
    simp [values]
  | some w =>
    obtain ⟨before, after, split⟩ := lookup_split found
    rw [split] at distinct
    rw [values, split, set_present distinct]
    simp only [List.map_append, List.map_cons, count_append, Option.toList_some]
    rw [count_cons a v, count_cons a w (List.map Prod.snd after)]
    omega

/-- **An erased entry.** -/
theorem count_erase : count a (values Content.entries (c.erase key)) + count a (c.old key) =
    count a (values Content.entries c) := by
  rw [values, Content.old, Dict.get]
  show count a ((OrderedMap.erase c.entries key).map Prod.snd) + count a (c.entries.lookup key).toList = _
  have distinct : (keys c.entries).Nodup := c.distinct
  cases found : c.entries.lookup key with
  | none =>
    have absent : key ∉ keys c.entries := by
      intro present
      obtain ⟨⟨k, w⟩, mem, rfl⟩ := List.mem_map.mp present
      have := List.lookup_eq_none_iff.mp found (k, w) mem
      simp at this
    rw [erase_of_not_mem absent]
    simp [values]
  | some w =>
    obtain ⟨before, after, split⟩ := lookup_split found
    rw [split] at distinct
    rw [values, split, erase_present distinct]
    simp only [List.map_append, List.map_cons, count_append, Option.toList_some]
    rw [count_cons a w (List.map Prod.snd after)]
    omega

theorem count_extend {l : List (Key × PValue)} {r : Content × List PValue} :
    count a (values Content.entries (l.foldl (State.extend cfg) r).1) + count a (l.foldl (State.extend cfg) r).2 =
      count a (values Content.entries r.1) + count a r.2 + count a (l.map Prod.snd) := by
  induction l generalizing r with
  | nil => simp
  | cons e rest ih =>
    obtain ⟨k, v⟩ := e
    rw [List.foldl_cons, ih, List.map_cons, count_cons a v, State.extend]
    simp only [count_append]
    have once : count a (values Content.entries (r.1.set cfg (r.1.unpackedKey k) v)) +
        count a (r.1.old (r.1.unpackedKey k)) = count a (values Content.entries r.1) + count a [v] := count_set
    omega

end Contents

/-! ## Places -/

section Places
variable {s : State} {held : List PValue} {v : PValue} {a : Nat}

theorem count_places (s : State) (a : Nat) : count a s.places =
    count a (s.frame.operands.flatMap Operand.values) + count a (s.frame.locals.flatMap Variable.values) +
      count a (s.callers.flatMap Frame.values) + count a (s.objects.flatMap slotsOf) + count a s.stored +
      count a s.pending := by
  simp only [State.places, Frame.values, count_append]

theorem count_list_set {l : List PValue} {i : Nat} {x : PValue} (at_i : l[i]? = some x) (y : PValue) :
    count a (l.set i y) + count a [x] = count a l + count a [y] := by
  have moved := count_flatMap_set (a := a) (fun v => [v]) at_i y
  simpa using moved

theorem count_flatMap_le {α : Type} {l : List α} {i : Nat} {x : α} (f : α → List PValue) (at_i : l[i]? = some x) :
    count a (f x) ≤ count a (l.flatMap f) := by
  induction l generalizing i with
  | nil => cases at_i
  | cons z rest ih =>
    rw [List.flatMap_cons, count_append]
    cases i with
    | zero =>
      cases at_i
      omega
    | succ i =>
      have := ih at_i
      omega

variable {s' : State}

theorem State.Sound.moved {held' : List PValue} (sound : s.Sound held) (heap : s'.heap = s.heap)
    (le : ∀ a, count a s'.places + count a held' ≤ count a s.places + count a held) : s'.Sound held' := by
  unfold State.Sound
  rw [heap]
  exact sound.mono le

theorem State.Sound.perm {held' : List PValue} (sound : s.Sound held) (perm : held.Perm held') : s.Sound held' :=
  sound.moved rfl fun a => by rw [count, count, count, perm.countP_eq]

theorem State.pop_eq (popped : s.pop = some (v, s')) :
    ∃ rest, s.frame.operands = .value v :: rest ∧ s' = s.operands rest := by
  unfold State.pop at popped
  split at popped
  · rename_i rest operands
    cases popped
    exact ⟨rest, operands, rfl⟩
  · cases popped

theorem count_operands (s : State) (l : List Operand) (a : Nat) :
    count a (s.operands l).places + count a (s.frame.operands.flatMap Operand.values) =
      count a s.places + count a (l.flatMap Operand.values) := by
  rw [count_places, count_places]
  simp only [State.operands]
  omega

theorem State.Sound.pop (sound : s.Sound held) (popped : s.pop = some (v, s')) : s'.Sound (v :: held) := by
  obtain ⟨rest, operands, rfl⟩ := State.pop_eq popped
  refine sound.moved rfl fun a => ?_
  have moved := count_operands s rest a
  have own : count a (Operand.values (.value v)) = count a [v] := rfl
  rw [operands, List.flatMap_cons, count_append] at moved
  rw [count_cons]
  omega

theorem State.Sound.push (sound : s.Sound (v :: held)) : (s.push v).Sound held := by
  refine sound.moved rfl fun a => ?_
  have moved := count_operands s (.value v :: s.frame.operands) a
  have own : count a (Operand.values (.value v)) = count a [v] := rfl
  rw [List.flatMap_cons, count_append] at moved
  rw [count_cons, State.push]
  omega

theorem State.Sound.released (sound : s.Sound (v :: held)) : (s.released v).Sound held := by
  refine sound.moved rfl fun a => ?_
  rw [count_places, count_places, count_cons a v held]
  simp only [State.released]
  rw [count_cons a v s.pending]
  omega

theorem State.Sound.releasedAll {vs : List PValue} (sound : s.Sound (vs ++ held)) : (s.releasedAll vs).Sound held := by
  refine sound.moved rfl fun a => ?_
  rw [count_places, count_places, count_append a vs held]
  simp only [State.releasedAll]
  rw [count_append a vs s.pending]
  omega

theorem State.Sound.retained (sound : s.Sound held) (live : Live s.heap v) : (s.retained v).Sound (v :: held) := by
  refine (counted_retain sound live).mono fun a => ?_
  rw [count_cons a v held]
  show count a s.places + _ ≤ _
  omega

theorem State.Sound.retainedAll {vs : List PValue} (sound : s.Sound held) (live : ∀ v ∈ vs, Live s.heap v) :
    (s.retainedAll vs).Sound (vs ++ held) := by
  refine (counted_retainAll sound live).mono fun a => ?_
  rw [count_append a vs held]
  show count a s.places + _ ≤ _
  omega

theorem State.Sound.created {c : Content} (sound : s.Sound (values Content.entries c ++ held)) :
    (s.created c).Sound (.array s.heap.length :: held) := by
  have counted : Counted refcntMax Content.entries s.heap fun a =>
      (count a s.places + count a held) + count a (values Content.entries c) := by
    refine sound.mono fun a => ?_
    rw [count_append]
    omega
  refine (counted_alloc refcntMax_pos counted).mono fun a => ?_
  rw [count_cons_array]
  show count a s.places + _ ≤ _
  omega

theorem State.Sound.written {b : Nat} {cell : Cell Content} {c : Content} {ws : List PValue} (vs : List PValue)
    (sound : s.Sound (vs ++ held)) (found : cellAt s.heap b = some cell)
    (balance : ∀ a, count a (values Content.entries c) + count a ws ≤
      count a (values Content.entries cell.content) + count a vs) : (s.written b c).Sound (ws ++ held) := by
  have counted : Counted refcntMax Content.entries s.heap fun a => (count a s.places + count a held) + count a vs := by
    refine sound.mono fun a => ?_
    rw [count_append]
    omega
  refine (counted_overwrite found balance counted).mono fun a => ?_
  rw [count_append]
  show count a s.places + _ ≤ _
  omega

/-! What is had from somewhere lives. -/

theorem State.Sound.live (sound : s.Sound held) (h : s.Held v) : Live s.heap v := by
  intro a same
  have := h a same
  exact sound.found refcntMax_pos (by omega)

theorem State.Sound.live_place (sound : s.Sound held) (mem : v ∈ s.places) : Live s.heap v := by
  refine sound.live fun a same => ?_
  have := count_pos (same ▸ mem)
  omega

theorem State.Sound.live_held (sound : s.Sound held) (mem : v ∈ held) : Live s.heap v := by
  intro a same
  have := count_pos (same ▸ mem)
  exact sound.found refcntMax_pos (by omega)

theorem State.Sound.live_entry {cell : Cell Content} (sound : s.Sound held) (found : cellAt s.heap a = some cell)
    (mem : v ∈ values Content.entries cell.content) : Live s.heap v :=
  CopyOnWrite.Counted.live_entry sound refcntMax_pos found mem

theorem live_null (h : Heap Content) : Live h pvNull := fun _ same => by cases same

theorem live_data (h : Heap Content) (d : Data) : Live h (.data d : PValue) := fun _ same => by cases same

end Places
/-! ## Writing arrays -/

section Arrays
variable {prog : Program} {s s' : State} {held : List PValue} {v w : PValue} {a b : Nat}

/-- Nothing but the heap, the operands and what is to be released changes. -/
structure Untouched (s s' : State) : Prop where
  scope : s'.frame.calledScope = s.frame.calledScope
  locals : s'.frame.locals = s.frame.locals
  callers : s'.callers = s.callers
  objects : s'.objects = s.objects
  stored : s'.stored = s.stored

theorem Untouched.refl (s : State) : Untouched s s := ⟨rfl, rfl, rfl, rfl, rfl⟩

theorem Untouched.trans {s'' : State} (h : Untouched s s') (h' : Untouched s' s'') : Untouched s s'' :=
  ⟨h'.scope.trans h.scope, h'.locals.trans h.locals, h'.callers.trans h.callers, h'.objects.trans h.objects,
    h'.stored.trans h.stored⟩

/-- Where the array would be written in place, the value does not reach it. -/
def Apart (s : State) (a : Nat) (w : PValue) : Prop :=
  ∀ cell, cellAt s.heap a = some cell → cell.refcnt ≤ 2 → ¬ Reaches Content.entries s.heap w a

theorem agree_retained : Agree Content.entries s.heap (s.retained v).heap w :=
  agree_of_contents (retain_contents v)

theorem agree_retainedAll {vs : List PValue} : Agree Content.entries s.heap (s.retainedAll vs).heap w :=
  agree_of_contents (retainAll_contents vs)

/-- **What is written is an array of one's own**, or one that has no more than two references. -/
theorem arrayForWrite_spec {granted : Bool} (sound : s.Sound (.array a :: held))
    (separated : s.arrayForWrite granted a = some (some b, s')) :
    s'.Sound (.array b :: held) ∧ Untouched s s' ∧ s'.frame = s.frame ∧ ∀ w, Live s.heap w →
      Agree Content.entries s.heap s'.heap w ∧ (Apart s a w → ¬ Reaches Content.entries s'.heap w b) := by
  unfold State.arrayForWrite at separated
  obtain ⟨cell, found, separated⟩ := bind_eq_some_iff.mp separated
  split at separated
  · rename_i few
    cases separated
    exact ⟨sound, .refl s, rfl, fun w live => ⟨.refl _ w, fun apart => apart cell found few⟩⟩
  · split at separated
    · cases separated
      have retained := sound.retainedAll fun v mem => sound.live_entry found mem
      have created := retained.created
      rw [show (s.retainedAll (values Content.entries cell.content)).heap.length = s.heap.length from
        length_retainAll _] at created
      refine ⟨?_, ⟨rfl, rfl, rfl, rfl, rfl⟩, rfl, fun w live => ?_⟩
      · exact (created.perm (List.Perm.swap _ _ _)).released
      · have live' : Live (s.retainedAll (values Content.entries cell.content)).heap w :=
          live.of_contents (retainAll_contents _)
        refine ⟨agree_retainedAll.trans (retained.agree_alloc refcntMax_pos live'), fun _ => ?_⟩
        have new := retained.not_reaches_new (c := cell.content) refcntMax_pos live'
        rw [show (s.retainedAll (values Content.entries cell.content)).heap.length = s.heap.length from
          length_retainAll _] at new
        exact new
    · cases separated

theorem arrayForWrite_none {granted : Bool} (separated : s.arrayForWrite granted a = some (none, s')) : s' = s := by
  unfold State.arrayForWrite at separated
  obtain ⟨cell, found, separated⟩ := bind_eq_some_iff.mp separated
  split at separated
  · cases separated
  · split at separated
    · cases separated
    · cases separated
      rfl

theorem untouched_fail_releases : Untouched s ((s.released v).released w).fail := ⟨rfl, rfl, rfl, rfl, rfl⟩

theorem State.Sound.fail (sound : s.Sound held) : s.fail.Sound held := sound.moved rfl fun _ => le_rfl

variable {writes separates : Bool} {slot : Nat}

theorem writeEntry_spec {key : Option Key} (sound : s.Sound (.array a :: v :: held))
    (next : s.writeEntry prog writes key v a = some s') :
    s'.Sound held ∧ Untouched s s' ∧ ∀ w, ¬ Reaches Content.entries s.heap w a →
      Agree Content.entries s.heap s'.heap w := by
  have given_up : ((s.released (.array a)).released v).fail.Sound held := sound.released.released.fail
  unfold State.writeEntry at next
  obtain ⟨cell, found, next⟩ := bind_eq_some_iff.mp next
  split at next
  · cases key with
    | none =>
      cases next
      exact ⟨given_up, untouched_fail_releases, fun w _ => .refl _ w⟩
    | some k =>
      cases next
      have live : Live s.heap v := sound.live_held (.tail _ (.head _))
      have retained := sound.retained live
      obtain ⟨cell', found', content⟩ := found_of_contents (retain_contents v a) found
      have written : ((s.retained v).written a (cell.content.set prog.cfg k v)).Sound
          (cell.content.old k ++ (.array a :: v :: held)) := by
        refine State.Sound.written [v] retained found' fun x => ?_
        rw [content]
        exact count_set.le
      refine ⟨written.releasedAll.push.push, ⟨rfl, rfl, rfl, rfl, rfl⟩, fun w unreached => ?_⟩
      refine agree_retained.trans (agree_overwrite fun reaches => unreached ?_)
      exact agree_retained.reaches_back reaches
  · cases next
    exact ⟨given_up, untouched_fail_releases, fun w _ => .refl _ w⟩

/-- **`execute_array_set` on an array.** -/
theorem setEntry_spec {key : Option PValue} (sound : s.Sound (.array a :: v :: held))
    (next : s.setEntry prog separates writes key v a = some s') :
    s'.Sound held ∧ Untouched s s' ∧ ∀ w, Live s.heap w → Apart s a w → Agree Content.entries s.heap s'.heap w := by
  unfold State.setEntry at next
  obtain ⟨⟨writable, s₁⟩, separated, next⟩ := bind_eq_some_iff.mp next
  cases writable with
  | none =>
    cases arrayForWrite_none separated
    cases next
    exact ⟨sound.released.released.fail, untouched_fail_releases, fun w _ _ => .refl _ w⟩
  | some b =>
    obtain ⟨sound₁, untouched, -, apart⟩ := arrayForWrite_spec sound separated
    obtain ⟨cell, found, next⟩ := bind_eq_some_iff.mp next
    obtain ⟨sound₂, untouched', agree⟩ := writeEntry_spec sound₁ next
    refine ⟨sound₂, untouched.trans untouched', fun w live apart_w => ?_⟩
    obtain ⟨same, unreached⟩ := apart w live
    exact same.trans (agree w (unreached apart_w))

/-- The operand that is the array. -/
def baseAt (s : State) (depth : Nat) : Option PValue :=
  match s.frame.operands[depth]? with
  | some (.value v) => some v
  | _ => none

theorem untouched_pop {v : PValue} (popped : s.pop = some (v, s')) :
    Untouched s s' ∧ s'.heap = s.heap ∧ baseAt s 0 = some v ∧ ∀ n, baseAt s (n + 1) = baseAt s' n := by
  obtain ⟨rest, operands, rfl⟩ := State.pop_eq popped
  refine ⟨⟨rfl, rfl, rfl, rfl, rfl⟩, rfl, ?_, fun n => ?_⟩
  · rw [baseAt, operands]
    rfl
  · rw [baseAt, operands]
    rfl

/-- **`execute_array_set`.** -/
theorem executeArraySet_spec {append : Bool} (sound : s.Sound [])
    (next : s.executeArraySet prog separates writes append = some s') :
    s'.Sound [] ∧ Untouched s s' ∧ ∀ w, Live s.heap w →
      (∀ a, baseAt s (if append then 1 else 2) = some (.array a) → Apart s a w) →
      Agree Content.entries s.heap s'.heap w := by
  unfold State.executeArraySet at next
  obtain ⟨⟨v, s₁⟩, popped, next⟩ := bind_eq_some_iff.mp next
  obtain ⟨⟨key, s₂⟩, popped_key, next⟩ := bind_eq_some_iff.mp next
  obtain ⟨⟨base, s₃⟩, popped_base, next⟩ := bind_eq_some_iff.mp next
  obtain ⟨untouched₁, heap₁, -, deeper₁⟩ := untouched_pop popped
  obtain ⟨untouched₃, heap₃, base_is, -⟩ := untouched_pop popped_base
  have sound₁ := sound.pop popped
  -- the key, where there is one
  obtain ⟨sound₂, untouched₂, heap₂, deeper₂⟩ : s₂.Sound (key.toList ++ [v]) ∧ Untouched s₁ s₂ ∧ s₂.heap = s₁.heap ∧
      baseAt s (if append then 1 else 2) = baseAt s₂ 0 := by
    cases append with
    | true =>
      cases popped_key
      exact ⟨sound₁, .refl _, rfl, deeper₁ 0⟩
    | false =>
      obtain ⟨⟨k, s₂'⟩, popped_k, same⟩ := Option.map_eq_some_iff.mp popped_key
      cases same
      obtain ⟨untouched₂, heap₂, -, deeper₂⟩ := untouched_pop popped_k
      exact ⟨sound₁.pop popped_k, untouched₂, heap₂, (deeper₁ 1).trans (deeper₂ 0)⟩
  have heap : s₃.heap = s.heap := heap₃.trans (heap₂.trans heap₁)
  have sound₃ : (s₃.releasedAll key.toList).Sound [base, v] := by
    have together : s₃.Sound (key.toList ++ [base, v]) := (sound₂.pop popped_base).perm List.perm_middle.symm
    exact together.releasedAll
  have untouched : Untouched s (s₃.releasedAll key.toList) :=
    (untouched₁.trans (untouched₂.trans untouched₃)).trans ⟨rfl, rfl, rfl, rfl, rfl⟩
  rw [deeper₂, base_is]
  cases base with
  | array a =>
    obtain ⟨sound', untouched', agree⟩ := setEntry_spec sound₃ next
    refine ⟨sound', untouched.trans untouched', fun w live apart => ?_⟩
    have apart₃ : Apart (s₃.releasedAll key.toList) a w := by
      show ∀ cell, cellAt s₃.heap a = some cell → _ → ¬ Reaches Content.entries s₃.heap w a
      rw [heap]
      exact apart a rfl
    rw [← heap]
    exact agree w (by show Live s₃.heap w; rw [heap]; exact live) apart₃
  | data d =>
    have given_up : ((s₃.releasedAll key.toList).released v).fail.Sound [] := by
      refine (State.Sound.released (v := v) (sound₃.moved rfl fun x => ?_)).fail
      rw [count_cons_data]
    by_cases null : d = .null ∧ separates = true
    · obtain ⟨rfl, rfl⟩ := null
      replace next : ((s₃.releasedAll key.toList).created .empty).setEntry prog true writes key v
        (s₃.releasedAll key.toList).heap.length = some s' := next
      have created : ((s₃.releasedAll key.toList).created .empty).Sound
          [.array (s₃.releasedAll key.toList).heap.length, v] :=
        State.Sound.created (c := .empty) (sound₃.moved rfl fun x => by rw [count_cons_data]; exact le_rfl)
      obtain ⟨sound', untouched', agree⟩ := setEntry_spec created next
      have new_array : Untouched (s₃.releasedAll key.toList) ((s₃.releasedAll key.toList).created .empty) :=
        ⟨rfl, rfl, rfl, rfl, rfl⟩
      refine ⟨sound', (untouched.trans new_array).trans untouched', fun w live _ => ?_⟩
      have live₃ : Live (s₃.releasedAll key.toList).heap w := by
        show Live s₃.heap w
        rw [heap]
        exact live
      have new : ¬ Reaches Content.entries (alloc (s₃.releasedAll key.toList).heap .empty) w _ :=
        sound₃.not_reaches_new refcntMax_pos live₃
      have alloced : Agree Content.entries (s₃.releasedAll key.toList).heap
          ((s₃.releasedAll key.toList).created .empty).heap w := sound₃.agree_alloc refcntMax_pos live₃
      rw [← heap]
      exact alloced.trans (agree w live₃.alloc fun _ _ _ => new)
    · have same : s' = ((s₃.releasedAll key.toList).released v).fail := by
        cases d with
        | null =>
          cases separates with
          | true => exact absurd ⟨rfl, rfl⟩ null
          | false => exact (Option.some.inj next).symm
        | bool | int | string | object | other => exact (Option.some.inj next).symm
      subst same
      refine ⟨given_up, untouched.trans ⟨rfl, rfl, rfl, rfl, rfl⟩, fun w _ _ => ?_⟩
      rw [← heap]
      exact .refl _ w

/-- **`execute_array_unset`.** -/
theorem executeArrayUnset_spec {removes : Bool} (sound : s.Sound [])
    (next : s.executeArrayUnset prog separates removes = some s') :
    s'.Sound [] ∧ Untouched s s' ∧ ∀ w, Live s.heap w → (∀ a, baseAt s 1 = some (.array a) → Apart s a w) →
      Agree Content.entries s.heap s'.heap w := by
  unfold State.executeArrayUnset at next
  obtain ⟨⟨key, s₁⟩, popped, next⟩ := bind_eq_some_iff.mp next
  obtain ⟨⟨base, s₂⟩, popped_base, next⟩ := bind_eq_some_iff.mp next
  obtain ⟨untouched₁, heap₁, -, deeper₁⟩ := untouched_pop popped
  obtain ⟨untouched₂, heap₂, base_is, -⟩ := untouched_pop popped_base
  have heap : s₂.heap = s.heap := heap₂.trans heap₁
  have sound₂ : (s₂.released key).Sound [base] :=
    (((sound.pop popped).pop popped_base).perm (List.Perm.swap _ _ _)).released
  have untouched : Untouched s (s₂.released key) := (untouched₁.trans untouched₂).trans ⟨rfl, rfl, rfl, rfl, rfl⟩
  rw [deeper₁, base_is]
  cases base with
  | data d =>
    cases next
    refine ⟨(sound₂.moved rfl fun x => ?_).fail, untouched.trans ⟨rfl, rfl, rfl, rfl, rfl⟩, fun w _ _ => ?_⟩
    · rw [count_cons_data]
    · rw [← heap]
      exact .refl _ w
  | array a =>
    obtain ⟨⟨writable, s₃⟩, separated, next⟩ := bind_eq_some_iff.mp next
    have apart₂ : ∀ w, Apart s a w → Apart (s₂.released key) a w := by
      intro w apart
      show ∀ cell, cellAt s₂.heap a = some cell → _ → ¬ Reaches Content.entries s₂.heap w a
      rw [heap]
      exact apart
    cases writable with
    | none =>
      cases arrayForWrite_none separated
      cases next
      refine ⟨sound₂.released.fail, untouched.trans ⟨rfl, rfl, rfl, rfl, rfl⟩, fun w _ _ => ?_⟩
      rw [← heap]
      exact .refl _ w
    | some b =>
      obtain ⟨sound₃, untouched₃, -, apart⟩ := arrayForWrite_spec sound₂ separated
      obtain ⟨cell, found, next⟩ := bind_eq_some_iff.mp next
      have agree₃ : ∀ w, Live s.heap w → Agree Content.entries s.heap s₃.heap w ∧
          (Apart s a w → ¬ Reaches Content.entries s₃.heap w b) := by
        intro w live
        have live₂ : Live (s₂.released key).heap w := by
          show Live s₂.heap w
          rw [heap]
          exact live
        obtain ⟨same, unreached⟩ := apart w live₂
        refine ⟨?_, fun apart_w => unreached (apart₂ w apart_w)⟩
        rw [← heap]
        exact same
      cases wanted : (if removes then prog.keyOf key else none) with
      | none =>
        rw [wanted] at next
        cases next
        exact ⟨sound₃.push, (untouched.trans untouched₃).trans ⟨rfl, rfl, rfl, rfl, rfl⟩,
          fun w live _ => (agree₃ w live).1⟩
      | some k =>
        rw [wanted] at next
        cases next
        have written : (s₃.written b (cell.content.erase k)).Sound (cell.content.old k ++ [Value.array b]) :=
          State.Sound.written [] sound₃ found fun x => count_erase.le
        refine ⟨written.releasedAll.push, (untouched.trans untouched₃).trans ⟨rfl, rfl, rfl, rfl, rfl⟩,
          fun w live apart_w => ?_⟩
        obtain ⟨same, unreached⟩ := agree₃ w live
        exact same.trans (agree_overwrite (unreached (apart_w a rfl)))

/-! ## Behind loads -/

theorem readLocal_mem (read : s.readLocal slot = some v) : v ∈ s.places := by
  unfold State.readLocal at read
  unfold State.places Frame.values
  split at read
  · cases read
  · rename_i own at_slot
    cases read
    have mem : v ∈ s.frame.locals.flatMap Variable.values :=
      List.mem_flatMap.mpr ⟨.own v, List.mem_of_getElem? at_slot, List.mem_singleton_self v⟩
    simp [mem]
  · have mem : v ∈ s.stored := List.mem_of_getElem? read
    simp [mem]

theorem count_push (s : State) (v : PValue) (a : Nat) : count a (s.push v).places = count a s.places + count a [v] := by
  have moved := count_operands s (.value v :: s.frame.operands) a
  have own : count a (Operand.values (.value v)) = count a [v] := rfl
  rw [List.flatMap_cons, count_append] at moved
  rw [State.push]
  omega

theorem loadLocal_spec (sound : s.Sound []) (next : s.loadLocal slot = some s') :
    ∃ v, s.readLocal slot = some v ∧ s' = (s.retained v).push v ∧ s'.Sound [] ∧ Untouched s s' ∧
      (∀ w, Agree Content.entries s.heap s'.heap w) ∧ ∀ a, count a s'.places = count a s.places + count a [v] := by
  obtain ⟨v, read, same⟩ := bind_eq_some_iff.mp next
  cases same
  refine ⟨v, read, rfl, (sound.retained (sound.live_place (readLocal_mem read))).push, ⟨rfl, rfl, rfl, rfl, rfl⟩,
    fun w => agree_retained, count_push (s.retained v) v⟩

/-- An array that a variable and an operand have, and nothing else in so few references. -/
theorem apart_of_loaded {base w : PValue} (sound : s'.Sound [])
    (le : ∀ a, count a s.places + count a [base] ≤ count a s'.places) (here : base ∈ s.places)
    (spare : ∀ a, w = .array a → count a [base] < count a s.places) (a : Nat) (is_array : base = .array a) :
    Apart s' a w := by
  subst is_array
  intro cell found few
  have counted := sound a
  rw [rc_of_some found] at counted
  have enough := counted.resolve_left fun stuck => by
    rw [stuck] at few
    exact absurd few (by decide)
  have positive := count_pos here
  have := le a
  rw [count_cons_array, if_pos rfl, count_nil] at this
  simp only [count_nil] at enough
  refine not_reaches (by omega) fun same => ?_
  have := spare a same
  rw [count_cons_array, if_pos rfl, count_nil] at this
  omega

/-- **Writes behind loads**: who has the array at another place reads it as before. -/
theorem setIndex_spec {valueSlot : Nat} {keySlot : Option Nat} (sound : s.Sound [])
    (next : s.setIndex prog separates writes slot keySlot valueSlot = some s') :
    s'.Sound [] ∧ Untouched s s' ∧ ∀ w, Live s.heap w →
      (∀ base a, s.readLocal slot = some base → w = .array a → count a [base] < count a s.places) →
      Agree Content.entries s.heap s'.heap w := by
  unfold State.setIndex at next
  obtain ⟨s₁, loaded, next⟩ := bind_eq_some_iff.mp next
  obtain ⟨s₂, loaded_key, next⟩ := bind_eq_some_iff.mp next
  obtain ⟨s₃, loaded_value, next⟩ := bind_eq_some_iff.mp next
  obtain ⟨base, read, same₁, sound₁, untouched₁, agree₁, more₁⟩ := loadLocal_spec sound loaded
  -- the key, where there is one
  obtain ⟨sound₂, untouched₂, agree₂, more₂, deeper₂⟩ : s₂.Sound [] ∧ Untouched s₁ s₂ ∧
      (∀ w, Agree Content.entries s₁.heap s₂.heap w) ∧ (∀ a, count a s₁.places ≤ count a s₂.places) ∧
      baseAt s₂ (if keySlot.isNone then 0 else 1) = some base := by
    cases keySlot with
    | none =>
      cases loaded_key
      exact ⟨sound₁, .refl _, fun _ => .refl _ _, fun _ => le_rfl, by rw [same₁]; rfl⟩
    | some k =>
      obtain ⟨v, -, same₂, sound₂, untouched₂, agree₂, more₂⟩ := loadLocal_spec sound₁ loaded_key
      refine ⟨sound₂, untouched₂, agree₂, fun a => ?_, by rw [same₂, same₁]; rfl⟩
      have := more₂ a
      omega
  obtain ⟨v, -, same₃, sound₃, untouched₃, agree₃, more₃⟩ := loadLocal_spec sound₂ loaded_value
  obtain ⟨sound', untouched', agree'⟩ := executeArraySet_spec sound₃ next
  refine ⟨sound', ((untouched₁.trans untouched₂).trans untouched₃).trans untouched', fun w live spare => ?_⟩
  have agree : Agree Content.entries s.heap s₃.heap w := ((agree₁ w).trans (agree₂ w)).trans (agree₃ w)
  have depth : baseAt s₃ (if keySlot.isNone then 1 else 2) = some base := by
    rw [same₃, ← deeper₂]
    cases keySlot <;> rfl
  refine agree.trans (agree' w (live.of_agree agree) fun a is_array => ?_)
  refine apart_of_loaded sound₃ (fun x => ?_) (readLocal_mem read) (fun x same => spare base x read same) a
    (Option.some.inj (depth.symm.trans is_array))
  have := more₁ x
  have := more₂ x
  have := more₃ x
  omega

theorem unsetIndex_spec {removes : Bool} {keySlot : Nat} (sound : s.Sound [])
    (next : s.unsetIndex prog separates removes slot keySlot = some s') :
    s'.Sound [] ∧ Untouched s s' ∧ ∀ w, Live s.heap w →
      (∀ base a, s.readLocal slot = some base → w = .array a → count a [base] < count a s.places) →
      Agree Content.entries s.heap s'.heap w := by
  unfold State.unsetIndex at next
  obtain ⟨s₁, loaded, next⟩ := bind_eq_some_iff.mp next
  obtain ⟨s₂, loaded_key, next⟩ := bind_eq_some_iff.mp next
  obtain ⟨base, read, same₁, sound₁, untouched₁, agree₁, more₁⟩ := loadLocal_spec sound loaded
  obtain ⟨k, -, same₂, sound₂, untouched₂, agree₂, more₂⟩ := loadLocal_spec sound₁ loaded_key
  obtain ⟨sound', untouched', agree'⟩ := executeArrayUnset_spec sound₂ next
  refine ⟨sound', (untouched₁.trans untouched₂).trans untouched', fun w live spare => ?_⟩
  have agree : Agree Content.entries s.heap s₂.heap w := (agree₁ w).trans (agree₂ w)
  have depth : baseAt s₂ 1 = some base := by
    rw [same₂, same₁]
    rfl
  refine agree.trans (agree' w (live.of_agree agree) fun a is_array => ?_)
  refine apart_of_loaded sound₂ (fun x => ?_) (readLocal_mem read) (fun x same => spare base x read same) a
    (Option.some.inj (depth.symm.trans is_array))
  have := more₁ x
  have := more₂ x
  omega

end Arrays
end PhpPico.Sharing
