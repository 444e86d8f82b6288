import PhpPico.Gc.Collect
import Mathlib.Data.List.Nodup

/-!
# What a collection leaves behind

A collection returns with right counts, whatever the graph and the candidates are. It spares all that can be reached
from outside exactly if no value whose count is stuck, or gets stuck when retained, is taken for garbage.
-/

namespace PhpPico.Gc
open List Option

/-! ## Updates of some values -/

section Update
variable {f : HeapValue → HeapValue} {s : Gc} {a x : Nat} {l : List Nat}

theorem value_update (x : Nat) : (s.update f a).value x = if x = a then (s.value x).map f else s.value x := by
  unfold update
  cases at_a : s.value a with
  | none =>
    by_cases same : x = a
    · rw [if_pos same, same, at_a]
      rfl
    · rw [if_neg same]
  | some v =>
    by_cases same : x = a
    · rw [if_pos same, same, at_a]
      exact value_put_self (lt_of_value at_a)
    · rw [if_neg same]
      exact value_put_ne (Ne.symm same)

theorem length_update : (s.update f a).heap.length = s.heap.length := by
  unfold update
  cases s.value a with
  | none => rfl
  | some v => exact List.length_set

theorem candidates_update : (s.update f a).candidates = s.candidates := by
  unfold update
  cases s.value a <;> rfl

theorem refs_update (same : ∀ v, s.value a = some v → refersTo (some (f v)) x = refersTo (some v) x) :
    (s.update f a).refs x = s.refs x := by
  unfold update
  cases at_a : s.value a with
  | none => rfl
  | some v =>
    have refs : (s.put a (f v)).refs x + _ = _ := refs_put at_a x
    rw [same v at_a] at refs
    exact Nat.add_right_cancel refs

theorem value_foldl_update (nodup : l.Nodup) (x : Nat) :
    (l.foldl (update f) s).value x = if x ∈ l then (s.value x).map f else s.value x := by
  induction l generalizing s with
  | nil => rfl
  | cons a rest ih =>
    obtain ⟨new, nodup'⟩ := nodup_cons.mp nodup
    rw [foldl_cons, ih nodup', value_update]
    by_cases same : x = a
    · subst same
      rw [if_neg new, if_pos rfl, if_pos mem_cons_self]
    · rw [if_neg same]
      simp only [mem_cons, same, false_or]

theorem foldl_update_frame : (l.foldl (update f) s).heap.length = s.heap.length ∧
    (l.foldl (update f) s).candidates = s.candidates := by
  induction l generalizing s with
  | nil => exact ⟨rfl, rfl⟩
  | cons a rest ih =>
    rw [foldl_cons]
    exact ⟨ih.1.trans length_update, ih.2.trans candidates_update⟩

theorem refs_foldl_update (nodup : l.Nodup)
    (same : ∀ a ∈ l, ∀ v, s.value a = some v → refersTo (some (f v)) x = refersTo (some v) x) :
    (l.foldl (update f) s).refs x = s.refs x := by
  induction l generalizing s with
  | nil => rfl
  | cons a rest ih =>
    obtain ⟨new, nodup'⟩ := nodup_cons.mp nodup
    rw [foldl_cons, ih nodup', refs_update (same a mem_cons_self)]
    intro b hb v at_b
    have ne : b ≠ a := fun e => new (e ▸ hb)
    rw [value_update, if_neg ne] at at_b
    exact same b (mem_cons_of_mem a hb) v at_b

end Update

/-! ## Heaps between collections -/

/-- A heap between collections: the counts are right and fit 16 bits, the buffer is in order, and no
value is flagged as being collected. -/
structure Sound (s : Gc) (roots : Nat → Nat) : Prop where
  counted : s.Counted roots []
  buffer : s.BufferOk
  narrow : ∀ a, s.rc a ≤ 65535
  idle : ∀ a v, s.value a = some v → v.collecting = false

/-- What can be reached from references outside the heap. -/
inductive Reaches (s : Gc) (roots : Nat → Nat) : Nat → Prop
  | root {a : Nat} (held : 0 < roots a) : Reaches s roots a
  | slot {a c : Nat} {v : HeapValue} (parent : Reaches s roots a) (at_a : s.value a = some v)
      (refers : c ∈ v.children) : Reaches s roots c

section Sound
variable {s : Gc} {roots : Nat → Nat} {a c : Nat} {v : HeapValue}

theorem Counted.rc_ne_zero {p : List Nat} (h : s.Counted roots p) (at_a : s.value a = some v)
    (alive : s.rc a ≠ 0) (refers : c ∈ v.children) : s.rc c ≠ 0 := by
  rw [rc_of_value at_a] at alive
  have one := refersTo_le_refs at_a c
  simp only [refersTo, elim_some, if_neg alive] at one
  have := count_pos_iff.mpr refers
  rcases h c with full | eq
  · rw [full]
    decide
  · omega

theorem containerChildren_children (at_a : s.value a = some v) :
    (s.containerChildren a).count c ≤ v.children.count c := by
  unfold containerChildren
  rw [at_a]
  exact List.Sublist.count_le c filter_sublist

theorem sum_refersTo_le {l : List Nat} (nodup : l.Nodup) (x : Nat) :
    (l.map fun b => refersTo (s.value b) x).sum ≤ s.refs x := by
  induction l generalizing s with
  | nil => exact Nat.zero_le _
  | cons b rest ih =>
    obtain ⟨new, nodup'⟩ := nodup_cons.mp nodup
    rw [map_cons, sum_cons]
    cases at_b : s.value b with
    | none =>
      have := ih (s := s) nodup'
      have none_b : refersTo none x = 0 := rfl
      omega
    | some v =>
      have refs := refs_free at_b x
      have below := ih (s := s.free b) nodup'
      have same : (rest.map fun c => refersTo ((s.free b).value c) x) = rest.map fun c => refersTo (s.value c) x := by
        refine map_congr_left fun c hc => ?_
        have ne : b ≠ c := fun e => new (e ▸ hc)
        rw [value_free_ne ne]
      rw [same] at below
      omega

theorem internalRefs_le {nodes : List Nat} (alive : ∀ b ∈ nodes, s.rc b ≠ 0) (x : Nat) :
    internalRefs s.containerChildren nodes x ≤ (nodes.map fun b => refersTo (s.value b) x).sum := by
  unfold internalRefs
  refine sum_le_sum fun b hb => ?_
  obtain ⟨v, at_b, some_rc⟩ := exists_value (alive b hb)
  have not_zero : v.refcnt ≠ 0 := by rw [some_rc]; exact alive b hb
  rw [at_b, refersTo, elim_some, if_neg not_zero]
  exact containerChildren_children at_b

/-- **Garbage is referred to by nodes only**: a node whose count is not stuck and all used up by references from
nodes. -/
theorem Counted.only_nodes {nodes : List Nat} (h : s.Counted roots []) (nodup : nodes.Nodup)
    (alive : ∀ b ∈ nodes, s.rc b ≠ 0) (exact_a : s.rc a ≠ 65535)
    (used_up : s.rc a ≤ internalRefs s.containerChildren nodes a) :
    roots a = 0 ∧ ∀ b v, s.value b = some v → s.rc b ≠ 0 → a ∈ v.children → b ∈ nodes := by
  have count := (h a).resolve_left exact_a
  rw [List.count_nil] at count
  have inside := internalRefs_le alive a
  have all := sum_refersTo_le (s := s) nodup a
  refine ⟨by omega, fun b v at_b alive_b refers => ?_⟩
  by_contra outside
  have more := sum_refersTo_le (s := s) (nodup_cons.mpr ⟨outside, nodup⟩) a
  rw [rc_of_value at_b] at alive_b
  rw [map_cons, sum_cons, at_b, refersTo, elim_some, if_neg alive_b] at more
  have := count_pos_iff.mpr refers
  omega

end Sound

/-! ## The phases -/

section Phases
variable {s : Gc} {roots : Nat → Nat} {a : Nat} {v : HeapValue} {rounds : Nat} {garbage : List Nat}

/-- Flags are cleared; nothing else changes. -/
theorem clearBuffer_spec (h : Sound s roots) :
    (∀ x, s.clearBuffer.value x = (s.value x).map fun v => { v with buffered := false }) ∧
      s.clearBuffer.heap.length = s.heap.length ∧ (∀ x, s.clearBuffer.refs x = s.refs x) ∧
      s.clearBuffer.candidates = [] := by
  refine ⟨fun x => ?_, foldl_update_frame.1, fun x => ?_, rfl⟩
  · have value := value_foldl_update (f := fun v => { v with buffered := false }) (s := s) h.buffer.nodup x
    refine (value_congr rfl x).trans (value.trans ?_)
    split
    · rfl
    · next off =>
      cases at_x : s.value x with
      | none => rfl
      | some v =>
        have flag : v.buffered = false := by
          rw [← Bool.not_eq_true]
          exact fun on => off ((h.buffer.listed x).mpr ⟨v, at_x, on⟩)
        rw [map_some, ← flag]
  · exact refs_foldl_update h.buffer.nodup fun _ _ _ _ => rfl

theorem bufferOk_of_clear (none_on : ∀ x v, s.value x = some v → v.buffered = false)
    (empty : s.candidates = []) : s.BufferOk := by
  refine ⟨?_, ?_, fun x => ?_, fun x v at_x on => ?_⟩
  · rw [empty]
    exact nodup_nil
  · rw [empty]
    exact Nat.zero_le _
  · rw [empty]
    refine ⟨fun listed => (by cases listed), ?_⟩
    rintro ⟨v, at_x, on⟩
    rw [none_on x v at_x] at on
    cases on
  · rw [none_on x v at_x] at on
    cases on

/-- Emptying a slot takes away what it refers to. -/
theorem targets_set {slots : List Slot} {i : Nat} {slot : Slot} (at_i : slots[i]? = some slot) :
    (slots.filterMap Slot.target).Perm (slot.target.toList ++ (slots.set i .null).filterMap Slot.target) := by
  induction slots generalizing i with
  | nil => cases at_i
  | cons first rest ih =>
    cases i with
    | zero =>
      cases at_i
      rw [set_cons_zero]
      cases h : slot.target with
      | none =>
        rw [filterMap_cons_none h, filterMap_cons_none rfl]
        exact .refl _
      | some c =>
        rw [filterMap_cons_some h, filterMap_cons_none rfl]
        exact .refl _
    | succ i =>
      have below := ih (i := i) (by simpa using at_i)
      rw [set_cons_succ]
      cases h : first.target with
      | none =>
        rw [filterMap_cons_none h, filterMap_cons_none h]
        exact below
      | some c =>
        rw [filterMap_cons_some h, filterMap_cons_some h]
        exact (below.cons c).trans perm_middle.symm

/-- **One slot** of a value that is retained is emptied. -/
theorem releaseSlot_spec (counted : s.Counted roots garbage) (buffer : s.BufferOk) (enough : s.alive < rounds)
    (ha : a ∈ garbage) (at_a : s.value a = some v) (i : Nat) :
    ∃ s', s.releaseSlot rounds a i = some s' ∧ s'.Counted roots garbage ∧ s'.BufferOk ∧
      Evolves garbage s s' ∧ ∃ v', s'.value a = some v' ∧ v'.slots = v.slots.set i .null := by
  have lt := lt_of_value at_a
  have held : ∀ s' : Gc, s'.Counted roots garbage → s'.rc a ≠ 0 := by
    intro s' counted'
    have := count_pos_iff.mpr ha
    rcases counted' a with full | eq
    · rw [full]
      decide
    · omega
  have alive : v.refcnt ≠ 0 := by rw [← rc_of_value at_a]; exact held s counted
  rw [releaseSlot, at_a]
  simp only
  -- emptying the slot, whatever it holds
  have emptied : ∀ slot, v.slots[i]? = some slot →
      Evolves garbage s (s.put a { v with slots := v.slots.set i .null }) ∧
      (s.put a { v with slots := v.slots.set i .null }).BufferOk ∧
      (s.put a { v with slots := v.slots.set i .null }).Counted roots (slot.target.toList ++ garbage) := by
    intro slot at_i
    have children : v.children.Perm (slot.target.toList ++
        ({ v with slots := v.slots.set i .null } : HeapValue).children) := targets_set at_i
    have heap : (s.put a { v with slots := v.slots.set i .null }).heap =
        (s.put a { v with slots := v.slots.set i .null }).heap := rfl
    refine ⟨evolves_of_put at_a rfl ⟨rfl, rfl, le_rfl, ?_, List.length_set, fun no => absurd ha no⟩ alive id,
      buffer.put at_a rfl rfl fun _ => alive, fun x => ?_⟩
    · intro y hy
      exact children.mem_iff.mpr (mem_append_right _ hy)
    · obtain ⟨refs, rc⟩ := counted_put at_a heap x
      simp only [refersTo, elim_some, if_neg alive, children.count_eq x, List.count_append] at refs
      rw [rc, List.count_append]
      have same : (if x = a then v.refcnt else s.rc x) = s.rc x := by
        split
        · next e => rw [e, rc_of_value at_a]
        · rfl
      simp only [same]
      have := counted x
      omega
  cases at_i : v.slots[i]? with
  | none =>
    refine ⟨s, rfl, counted, buffer, Evolves.refl _ s, v, at_a, ?_⟩
    rw [set_eq_of_length_le (List.getElem?_eq_none_iff.mp at_i)]
  | some slot =>
    obtain ⟨evolves, buffer', counted'⟩ := emptied slot at_i
    have at_a' : (s.put a { v with slots := v.slots.set i .null }).value a =
        some { v with slots := v.slots.set i .null } := value_put_self lt
    cases slot with
    | ref c =>
      obtain ⟨s', run, counted'', buffer'', evolves'⟩ :=
        releases rounds _ c garbage counted' buffer' (evolves.fewer.trans_lt enough)
      obtain ⟨v', at_v', -⟩ := exists_value (held s' counted'')
      obtain ⟨w, at_w, later⟩ := evolves'.later a v' at_v'
      rw [at_a'] at at_w
      cases at_w
      exact ⟨s', run, counted'', buffer'', evolves.trans (evolves'.mono (nil_subset _)), v', at_v',
        later.slots not_mem_nil⟩
    | null => exact ⟨_, rfl, counted', buffer', evolves, _, at_a', rfl⟩
    | scalar bits => exact ⟨_, rfl, counted', buffer', evolves, _, at_a', rfl⟩

/-- **All slots** of a value that is retained are emptied. -/
theorem releaseSlots_spec (counted : s.Counted roots garbage) (buffer : s.BufferOk) (enough : s.alive < rounds)
    (ha : a ∈ garbage) : ∃ s', s.releaseSlots rounds a = some s' ∧ s'.Counted roots garbage ∧ s'.BufferOk ∧
      Evolves garbage s s' ∧ ∀ v', s'.value a = some v' → v'.children = [] := by
  have some_rc : s.rc a ≠ 0 := by
    have := count_pos_iff.mpr ha
    rcases counted a with full | eq
    · rw [full]
      decide
    · omega
  obtain ⟨v, at_a, -⟩ := exists_value some_rc
  rw [releaseSlots, at_a]
  simp only
  -- after `k` slots the first `k` are empty
  have loop : ∀ k ≤ v.slots.length, ∃ s', (List.range k).foldlM (releaseSlot rounds a) s = some s' ∧
      s'.Counted roots garbage ∧ s'.BufferOk ∧ Evolves garbage s s' ∧
      ∃ v', s'.value a = some v' ∧ v'.slots = replicate k .null ++ v.slots.drop k := by
    intro k
    induction k with
    | zero => exact fun _ => ⟨s, rfl, counted, buffer, Evolves.refl _ s, v, at_a, rfl⟩
    | succ k ih =>
      intro le
      obtain ⟨s₁, run₁, counted₁, buffer₁, evolves₁, v₁, at₁, slots₁⟩ := ih (by omega)
      obtain ⟨s₂, run₂, counted₂, buffer₂, evolves₂, v₂, at₂, slots₂⟩ :=
        releaseSlot_spec counted₁ buffer₁ (evolves₁.fewer.trans_lt enough) ha at₁ k
      refine ⟨s₂, ?_, counted₂, buffer₂, evolves₁.trans evolves₂, v₂, at₂, ?_⟩
      · rw [range_succ, foldlM_append, run₁]
        simp only [bind_eq_bind, bind_some, foldlM_cons, run₂, foldlM_nil]
        rfl
      · have next : v.slots.drop k = v.slots[k] :: v.slots.drop (k + 1) := drop_eq_getElem_cons (by omega)
        rw [slots₂, slots₁, next, set_append_right _ _ (by rw [length_replicate]), length_replicate,
          Nat.sub_self, set_cons_zero, replicate_succ', append_assoc]
        rfl
  obtain ⟨s', run, counted', buffer', evolves, v', at', slots⟩ := loop v.slots.length le_rfl
  refine ⟨s', run, counted', buffer', evolves, fun w at_w => ?_⟩
  rw [at'] at at_w
  cases at_w
  rw [HeapValue.children, slots, drop_length, append_nil, filterMap_replicate_of_none rfl]

/-- **The slots of all garbage** are emptied. -/
theorem releaseAllSlots_spec (l : List Nat) (sub : l ⊆ garbage) (counted : s.Counted roots garbage)
    (buffer : s.BufferOk) (enough : s.alive < rounds) :
    ∃ s', l.foldlM (releaseSlots rounds) s = some s' ∧ s'.Counted roots garbage ∧ s'.BufferOk ∧
      Evolves garbage s s' ∧ ∀ a ∈ l, ∀ v', s'.value a = some v' → v'.children = [] := by
  induction l generalizing s with
  | nil => exact ⟨s, rfl, counted, buffer, Evolves.refl _ s, fun a ha => by cases ha⟩
  | cons a rest ih =>
    obtain ⟨s₁, run₁, counted₁, buffer₁, evolves₁, empty₁⟩ := releaseSlots_spec counted buffer enough (sub (.head _))
    obtain ⟨s₂, run₂, counted₂, buffer₂, evolves₂, empty₂⟩ :=
      ih (fun x hx => sub (mem_cons_of_mem a hx)) counted₁ buffer₁ (evolves₁.fewer.trans_lt enough)
    refine ⟨s₂, ?_, counted₂, buffer₂, evolves₁.trans evolves₂, fun b hb v' at_b => ?_⟩
    · rw [foldlM_cons, run₁]
      exact run₂
    · rcases mem_cons.mp hb with rfl | hb
      · obtain ⟨v, at_v, later⟩ := evolves₂.later b v' at_b
        have sub := later.children
        rw [empty₁ v at_v] at sub
        exact subset_nil.mp sub
      · exact empty₂ b hb v' at_b

end Phases

/-! ## A collection -/

/-- The nodes that are not marked. -/
def garbage (s : Gc) : List Nat :=
  s.discovered.filter fun a => a ∉ marks s.containerChildren s.rc s.discovered

section Collection
variable {s : Gc} {roots : Nat → Nat} {a : Nat} {v : HeapValue}

theorem condemned_spec (v : HeapValue) : (condemned v).type = v.type ∧ (condemned v).slots = v.slots ∧
    (condemned v).collecting = true ∧ (condemned v).buffered = v.buffered ∧
    (condemned v).refcnt = if v.refcnt = 65535 then v.refcnt else v.refcnt + 1 := by
  unfold condemned HeapValue.retained
  by_cases full : v.refcnt = 65535
  · simp only [full, ne_eq, not_true_eq_false, if_false, if_true, and_self]
  · simp only [full, ne_eq, not_false_eq_true, if_true, if_false, and_self]

/-- The nodes are containers that are not being destroyed. -/
theorem discovered_containers (h : Sound s roots) : s.discovered.Nodup ∧
    ∀ a ∈ s.discovered, s.rc a ≠ 0 ∧ ∃ v, s.value a = some v ∧ v.isContainer = true := by
  refine ⟨discoverFrom_nodup 256 0 h.buffer.nodup, discoverFrom_all (fun a ha c hc => ?_) 256 0 fun a ha => ?_⟩
  · obtain ⟨v, at_a, refers, container⟩ := mem_containerChildren.mp hc
    exact ⟨h.counted.rc_ne_zero at_a ha.1 refers, container⟩
  · obtain ⟨v, at_a, on⟩ := (h.buffer.listed a).mp ha
    obtain ⟨not_zero, container⟩ := h.buffer.real a v at_a on
    rw [rc_of_value at_a]
    exact ⟨not_zero, v, at_a, container⟩

theorem discovered_spec (h : Sound s roots) : s.discovered.Nodup ∧ ∀ a ∈ s.discovered, s.rc a ≠ 0 :=
  ⟨(discovered_containers h).1, fun a ha => ((discovered_containers h).2 a ha).1⟩

theorem mem_garbage : a ∈ s.garbage ↔ a ∈ s.discovered ∧ ¬ Anchored s.containerChildren s.rc s.discovered a := by
  rw [garbage, mem_filter, decide_eq_true_eq, mem_marks]

theorem clearBuffer_same (h : Sound s roots) :
    s.clearBuffer.containerChildren = s.containerChildren ∧ s.clearBuffer.rc = s.rc := by
  obtain ⟨value, -, -, -⟩ := clearBuffer_spec h
  constructor
  · funext a
    unfold containerChildren
    rw [value]
    cases s.value a with
    | none => rfl
    | some v =>
      refine filter_congr fun c _ => ?_
      rw [value]
      cases s.value c <;> rfl
  · funext a
    rw [rc, rc, value]
    cases s.value a <;> rfl

/-- **A collection returns.** The garbage is condemned and then only released: `before` is the heap
in between. -/
theorem collect_spec (h : Sound s roots) (some_left : s.candidates ≠ []) :
    ∃ before s', s.collect = some (s', s.garbage.length) ∧ (∀ x, before.value x = if x ∈ s.garbage
        then (s.value x).map fun v => condemned { v with buffered := false }
        else (s.value x).map fun v => { v with buffered := false }) ∧
      Evolves s.garbage before s' ∧ s'.Counted roots [] ∧ s'.BufferOk ∧
      ∀ a ∈ s.garbage, ∀ v', s'.value a = some v' → v'.children = [] := by
  obtain ⟨value₁, length₁, refs₁, none_left⟩ := clearBuffer_spec h
  obtain ⟨children, counts⟩ := clearBuffer_same h
  obtain ⟨nodup, alive⟩ := discovered_spec h
  have nodup_garbage : s.garbage.Nodup := nodup.filter _
  have alive_garbage : ∀ a ∈ s.garbage, s.rc a ≠ 0 := fun a ha => alive a (mem_filter.mp ha).1
  have frame := foldl_update_frame (f := condemned) (l := s.garbage) (s := s.clearBuffer)
  have value₂ : ∀ x, (s.garbage.foldl (update condemned) s.clearBuffer).value x = if x ∈ s.garbage
      then (s.value x).map fun v => condemned { v with buffered := false }
      else (s.value x).map fun v => { v with buffered := false } := by
    intro x
    rw [value_foldl_update nodup_garbage, value₁, Option.map_map]
    rfl
  have refs₂ : ∀ x, (s.garbage.foldl (update condemned) s.clearBuffer).refs x = s.refs x := by
    intro x
    rw [refs_foldl_update nodup_garbage, refs₁]
    intro a ha v at_a
    obtain ⟨-, slots, -, -, refcnt⟩ := condemned_spec v
    have not_zero : v.refcnt ≠ 0 := by
      have := alive_garbage a ha
      rw [← counts, rc_of_value at_a] at this
      exact this
    have not_zero' : (condemned v).refcnt ≠ 0 := by
      rw [refcnt]
      split
      · exact not_zero
      · exact Nat.succ_ne_zero _
    simp only [refersTo, elim_some, if_neg not_zero, if_neg not_zero', HeapValue.children, slots]
  generalize hs₂ : s.garbage.foldl (update condemned) s.clearBuffer = s₂ at value₂ refs₂ frame
  have counted₂ : s₂.Counted roots s.garbage := by
    intro x
    have count := h.counted x
    rw [List.count_nil] at count
    rw [refs₂]
    by_cases hx : x ∈ s.garbage
    · rw [count_eq_one_of_mem nodup_garbage hx]
      cases at_x : s.value x with
      | none => exact absurd (rc_of_none at_x) (alive_garbage x hx)
      | some v =>
        have at_x₂ : s₂.value x = some (condemned { v with buffered := false }) := by
          rw [value₂, if_pos hx, at_x]
          rfl
        rw [rc_of_value at_x] at count
        rw [rc_of_value at_x₂, (condemned_spec _).2.2.2.2]
        split
        · next full => exact .inl full
        · next exact_x =>
          have := count.resolve_left exact_x
          right
          simp only
          omega
    · rw [count_eq_zero_of_not_mem hx]
      have same : s₂.rc x = s.rc x := by
        rw [rc, rc, value₂, if_neg hx]
        cases s.value x <;> rfl
      rw [same]
      exact count
  have buffer₂ : s₂.BufferOk := by
    refine bufferOk_of_clear (fun x v at_x => ?_) (frame.2.trans none_left)
    rw [value₂] at at_x
    split at at_x
    · obtain ⟨u, -, rfl⟩ := map_eq_some_iff.mp at_x
      exact (condemned_spec _).2.2.2.1
    · obtain ⟨u, -, rfl⟩ := map_eq_some_iff.mp at_x
      rfl
  obtain ⟨s₃, run₃, counted₃, buffer₃, evolves₃, empty₃⟩ :=
    releaseAllSlots_spec s.garbage (fun _ hx => hx) counted₂ buffer₂ (Nat.lt_succ_of_le s₂.alive_le)
  rw [← append_nil s.garbage] at counted₃
  obtain ⟨s₄, run₄, counted₄, buffer₄, evolves₄⟩ :=
    releases_all (releases (s₃.heap.length + 1)) s.garbage counted₃ buffer₃ (Nat.lt_succ_of_le s₃.alive_le)
  refine ⟨s₂, s₄, ?_, value₂, evolves₃.trans (evolves₄.mono (nil_subset _)), counted₄, buffer₄, fun a ha v' at_a => ?_⟩
  · rw [collect, if_neg some_left, children, counts]
    have same : (discoverFrom s.containerChildren 256 0 s.candidates).filter (fun a =>
        a ∉ marks s.containerChildren s.rc (discoverFrom s.containerChildren 256 0 s.candidates)) = s.garbage := rfl
    simp only [same, hs₂, run₃, run₄, bind_eq_bind, bind_some]
    rfl
  · obtain ⟨v, at_v, later⟩ := evolves₄.later a v' at_a
    have sub := later.children
    rw [empty₃ a ha v at_v] at sub
    exact subset_nil.mp sub

/-- A collection destroys only what cannot be reached from outside, leaves the slots of the others, and a heap as it
should be between collections. -/
structure Spares (s s' : Gc) (roots : Nat → Nat) : Prop where
  destroyed : ∀ a v, s.value a = some v → s'.value a = none → ¬ Reaches s roots a
  contents : ∀ a v', s'.value a = some v' → ∃ v, s.value a = some v ∧ v'.type = v.type ∧ v'.slots = v.slots
  sound : Sound s' roots

/-- A node whose count is stuck, or gets stuck when it is retained, has a reference from outside the
nodes or can be reached from a node that has one. -/
def StuckAnchored (s : Gc) : Prop :=
  ∀ a ∈ s.discovered, 65534 ≤ s.rc a → Anchored s.containerChildren s.rc s.discovered a

theorem discovered_nil (none_left : s.candidates = []) : s.discovered = [] := by
  rw [discovered, none_left]
  rfl

/-- **Stuck garbage survives** with the flag it was given. -/
theorem stuck_garbage (h : Sound s roots) (some_left : s.candidates ≠ []) (ha : a ∈ s.garbage)
    (large : 65534 ≤ s.rc a) {s' : Gc} {n : Nat} (run : s.collect = some (s', n)) :
    ∃ v', s'.value a = some v' ∧ v'.collecting = true := by
  obtain ⟨before, s'', run', value, evolves, -, -, -⟩ := collect_spec h some_left
  rw [run] at run'
  cases run'
  obtain ⟨v, at_a, some_rc⟩ := exists_value (a := a) (s := s) (by omega)
  have at_before : before.value a = some (condemned { v with buffered := false }) := by
    rw [value, if_pos ha, at_a]
    rfl
  obtain ⟨-, -, flag, -, refcnt⟩ := condemned_spec { v with buffered := false }
  have full : before.rc a = 65535 := by
    have := h.narrow a
    rw [rc_of_value at_before, refcnt]
    simp only
    split <;> omega
  have full' : s'.rc a ≠ 0 := by
    rw [evolves.stuck a full]
    decide
  obtain ⟨v', at_a', -⟩ := exists_value full'
  obtain ⟨w, at_w, later⟩ := evolves.later a v' at_a'
  rw [at_before] at at_w
  cases at_w
  exact ⟨v', at_a', later.collecting.trans flag⟩

/-- **Garbage dies** when no count is stuck: it is referred to by garbage only, and that has emptied
its slots. -/
theorem garbage_freed (h : Sound s roots) (anchored : StuckAnchored s) {before s' : Gc}
    (value : ∀ x, before.value x = if x ∈ s.garbage
      then (s.value x).map fun v => condemned { v with buffered := false }
      else (s.value x).map fun v => { v with buffered := false })
    (evolves : Evolves s.garbage before s') (counted : s'.Counted roots [])
    (empty : ∀ a ∈ s.garbage, ∀ v', s'.value a = some v' → v'.children = []) (ha : a ∈ s.garbage) :
    s'.value a = none := by
  obtain ⟨nodup, alive⟩ := discovered_spec h
  obtain ⟨node, loose⟩ := mem_garbage.mp ha
  have small : s.rc a < 65534 := by
    by_contra large
    exact loose (anchored a node (not_lt.mp large))
  have used_up : s.rc a ≤ internalRefs s.containerChildren s.discovered a := by
    by_contra more
    exact loose (.held node (not_le.mp more))
  obtain ⟨no_root, only⟩ := h.counted.only_nodes nodup alive (by omega) used_up
  obtain ⟨v, at_a, some_rc⟩ := exists_value (alive a node)
  have at_before : before.value a = some (condemned { v with buffered := false }) := by
    rw [value, if_pos ha, at_a]
    rfl
  have rc_before : before.rc a = s.rc a + 1 := by
    rw [rc_of_value at_before, (condemned_spec _).2.2.2.2, ← some_rc]
    simp only
    rw [if_neg (by omega)]
  -- who refers to it afterwards
  have no_refs : s'.refs a = 0 := by
    unfold refs
    refine sum_eq_zero fun n hn => ?_
    obtain ⟨o, ho, rfl⟩ := List.mem_map.mp hn
    cases o with
    | none => rfl
    | some w =>
      obtain ⟨b, lt, at_index⟩ := getElem_of_mem ho
      have at_b : s'.value b = some w := by
        rw [value_eq_some, List.getElem?_eq_some_iff]
        exact ⟨lt, at_index⟩
      simp only [refersTo, elim_some]
      split
      · rfl
      · next alive_w =>
        refine count_eq_zero.mpr fun refers => ?_
        by_cases hb : b ∈ s.garbage
        · rw [empty b hb w at_b] at refers
          cases refers
        · obtain ⟨w₁, at_b₁, later⟩ := evolves.later b w at_b
          rw [value, if_neg hb] at at_b₁
          obtain ⟨w₀, at_b₀, rfl⟩ := map_eq_some_iff.mp at_b₁
          have slots : w.slots = w₀.slots := later.slots hb
          have refers₀ : a ∈ w₀.children := by
            rw [HeapValue.children, ← slots]
            exact refers
          have alive_b : s.rc b ≠ 0 := by
            rw [rc_of_value at_b₀]
            exact fun zero => alive_w (Nat.le_zero.mp (zero ▸ later.refcnt))
          have node_b := only b w₀ at_b₀ alive_b refers₀
          have held_b : Anchored s.containerChildren s.rc s.discovered b := by
            by_contra loose_b
            exact hb (mem_garbage.mpr ⟨node_b, loose_b⟩)
          have container := ((discovered_containers h).2 a node).2
          exact loose (.child held_b (mem_containerChildren.mpr ⟨w₀, at_b₀, refers₀, container⟩) node)
  have le := evolves.rc_le a
  have gone : s'.rc a = 0 := by
    rcases counted a with full | eq
    · omega
    · rw [no_root, no_refs] at eq
      exact eq
  exact evolves.gone a (by omega) gone

/-- **A collection spares what is reachable** exactly if no stuck count is among the garbage: on every heap with right
counts it returns, all reachable values keep their contents, the other counts are right again and no flag or candidate
is left over, if and only if every node whose count is 65534 or more is anchored. -/
theorem collect_spares_iff (h : Sound s roots) : ∃ s' n, s.collect = some (s', n) ∧
    (Spares s s' roots ↔ StuckAnchored s) := by
  by_cases none_left : s.candidates = []
  · refine ⟨s, 0, if_pos none_left, iff_of_true ⟨fun a v at_a freed => ?_, fun a v at_a => ⟨v, at_a, rfl, rfl⟩, h⟩
      fun a ha => ?_⟩
    · rw [at_a] at freed
      cases freed
    · rw [discovered_nil none_left] at ha
      cases ha
  · obtain ⟨before, s', run, value, evolves, counted, buffer, empty⟩ := collect_spec h none_left
    refine ⟨s', _, run, fun spares a node large => ?_, fun anchored => ?_⟩
    · by_contra loose
      obtain ⟨v', at_a, flag⟩ := stuck_garbage h none_left (mem_garbage.mpr ⟨node, loose⟩) large run
      rw [spares.sound.idle a v' at_a] at flag
      cases flag
    · have freed : ∀ a ∈ s.garbage, s'.value a = none :=
        fun a ha => garbage_freed h anchored value evolves counted empty ha
      -- what is left is no garbage, and is as before
      have left : ∀ a v', s'.value a = some v' → ∃ v, s.value a = some v ∧
          Later False { v with buffered := false } v' := by
        intro a v' at_a
        have not_garbage : a ∉ s.garbage := fun ha => by
          rw [freed a ha] at at_a
          cases at_a
        obtain ⟨w, at_w, later⟩ := evolves.later a v' at_a
        rw [value, if_neg not_garbage] at at_w
        obtain ⟨v, at_v, rfl⟩ := map_eq_some_iff.mp at_w
        exact ⟨v, at_v, later.type, later.collecting, later.refcnt, later.children, later.length,
          fun _ => later.slots not_garbage⟩
      refine ⟨fun a v at_a gone reach => ?_, fun a v' at_a => ?_, ⟨counted, buffer, fun a => ?_, fun a v' at_a => ?_⟩⟩
      · have present : ∀ b, Reaches s roots b → s'.rc b ≠ 0 := by
          intro b reach
          induction reach with
          | root held =>
            intro zero
            rcases counted _ with full | eq
            · rw [zero] at full
              cases full
            · omega
          | slot parent at_p refers ih =>
            obtain ⟨w, at_w, -⟩ := exists_value ih
            obtain ⟨u, at_u, later⟩ := left _ w at_w
            rw [at_p] at at_u
            cases at_u
            refine counted.rc_ne_zero at_w ih ?_
            rw [HeapValue.children, later.slots not_false]
            exact refers
        exact present a reach (rc_of_none gone)
      · obtain ⟨v, at_v, later⟩ := left a v' at_a
        exact ⟨v, at_v, later.type, later.slots not_false⟩
      · cases at_a : s'.value a with
        | none =>
          rw [rc_of_none at_a]
          exact Nat.zero_le _
        | some v' =>
          obtain ⟨v, at_v, later⟩ := left a v' at_a
          have narrow := h.narrow a
          rw [rc_of_value at_v] at narrow
          rw [rc_of_value at_a]
          exact later.refcnt.trans narrow
      · obtain ⟨v, at_v, later⟩ := left a v' at_a
        exact later.collecting.trans (h.idle a v at_v)

/-- An array that holds nothing but itself is garbage. -/
theorem collect_spares_iff_cycle :
    ∃ s' n, (⟨[some ⟨.array, 1, true, false, false, [.ref 0]⟩], [0], false⟩ : Gc).collect = some (s', n) ∧
      (Spares ⟨[some ⟨.array, 1, true, false, false, [.ref 0]⟩], [0], false⟩ s' (fun _ => 0) ↔
        StuckAnchored ⟨[some ⟨.array, 1, true, false, false, [.ref 0]⟩], [0], false⟩) := by
  have none_else : ∀ a v, (⟨[some ⟨.array, 1, true, false, false, [.ref 0]⟩], [0], false⟩ : Gc).value a = some v →
      a = 0 ∧ v = ⟨.array, 1, true, false, false, [.ref 0]⟩ := by
    intro a v at_a
    cases a with
    | zero =>
      cases at_a
      exact ⟨rfl, rfl⟩
    | succ a => cases at_a
  apply collect_spares_iff
  refine ⟨fun a => ?_, ⟨by decide, by decide, fun a => ⟨fun ha => ?_, ?_⟩, fun a v at_a _ => ?_⟩, fun a => ?_,
    fun a v at_a => ?_⟩
  · cases a with
    | zero => exact .inr (by decide)
    | succ a =>
      right
      simp [rc, value, refs, refersTo, HeapValue.children, Slot.target]
  · rw [mem_singleton.mp ha]
    exact ⟨_, rfl, rfl⟩
  · rintro ⟨v, at_a, -⟩
    rw [(none_else a v at_a).1]
    exact mem_singleton_self 0
  · rw [(none_else a v at_a).2]
    exact ⟨by decide, by decide⟩
  · cases a with
    | zero => decide
    | succ a => exact Nat.zero_le _
  · rw [(none_else a v at_a).2]

/-- Two arrays hold each other and, `n` times each, an object that has a reference from outside. -/
def sharedByGarbage (n : Nat) : Gc where
  heap := [
    some ⟨.array, 1, true, false, false, replicate n (Slot.ref 2) ++ [Slot.ref 1]⟩,
    some ⟨.array, 1, false, false, false, replicate n (Slot.ref 2) ++ [Slot.ref 0]⟩,
    some ⟨.object, 65535, false, false, false, [.ref 3]⟩, some ⟨.leaf, 1, false, false, false, []⟩]
  candidates := [0]
  requested := false

theorem sharedByGarbage_sound (n : Nat) : Sound (sharedByGarbage n) fun a => if a = 2 then 1 else 0 := by
  have targets : ∀ x, (replicate n (Slot.ref 2) ++ [Slot.ref x]).filterMap Slot.target =
      replicate n 2 ++ [x] := by
    intro x
    have one : Slot.target (.ref 2) = some 2 := rfl
    rw [filterMap_append, filterMap_replicate_of_some one]
    rfl
  have refs : ∀ x, (sharedByGarbage n).refs x =
      (replicate n 2 ++ [1]).count x + ((replicate n 2 ++ [0]).count x + ([3].count x + 0)) := by
    intro x
    simp only [Gc.refs, sharedByGarbage, map_cons, map_nil, sum_cons, sum_nil, refersTo,
      elim_some, HeapValue.children, targets]
    rfl
  have four : ∀ a v, (sharedByGarbage n).value a = some v → a = 0 ∨ a = 1 ∨ a = 2 ∨ a = 3 := by
    intro a v at_a
    have lt := lt_of_value at_a
    have : (sharedByGarbage n).heap.length = 4 := rfl
    omega
  refine ⟨fun a => ?_, ⟨pairwise_singleton _ 0, le_of_lt (by decide : 1 < 256),
    fun a => ⟨fun ha => ?_, ?_⟩, fun a v at_a on => ?_⟩, fun a => ?_, fun a v at_a => ?_⟩
  · rw [refs]
    by_cases outside : 4 ≤ a
    · have none_a : (sharedByGarbage n).rc a = 0 := by
        refine rc_of_none ?_
        rw [value, getElem?_eq_none (by exact outside)]
        rfl
      right
      rw [none_a]
      simp only [List.count_append, count_replicate, List.count_cons, List.count_nil, beq_iff_eq]
      split_ifs <;> omega
    · have cases_a : a = 0 ∨ a = 1 ∨ a = 2 ∨ a = 3 := by omega
      rcases cases_a with rfl | rfl | rfl | rfl
      · right
        simp [rc, value, sharedByGarbage, count_replicate]
      · right
        simp [rc, value, sharedByGarbage, count_replicate]
      · exact .inl rfl
      · right
        simp [rc, value, sharedByGarbage, count_replicate]
  · rw [mem_singleton.mp ha]
    exact ⟨_, rfl, rfl⟩
  · rintro ⟨v, at_a, on⟩
    rcases four a v at_a with rfl | rfl | rfl | rfl
    · exact mem_singleton_self 0
    all_goals cases at_a; cases on
  · rcases four a v at_a with rfl | rfl | rfl | rfl
    · cases at_a
      exact ⟨Nat.one_ne_zero, rfl⟩
    all_goals cases at_a; cases on
  · cases at_a : (sharedByGarbage n).value a with
    | none =>
      rw [rc_of_none at_a]
      exact Nat.zero_le _
    | some v =>
      rw [rc_of_value at_a]
      rcases four a v at_a with rfl | rfl | rfl | rfl
      all_goals cases at_a; exact Nat.le_of_ble_eq_true rfl
  · rcases four a v at_a with rfl | rfl | rfl | rfl
    all_goals cases at_a; rfl

theorem foldl_discoverChild_known {nodes : List Nat} {c : Nat} (known : c ∈ nodes) (n : Nat) :
    (replicate n c).foldl discoverChild nodes = nodes := by
  induction n with
  | zero => rfl
  | succ n ih =>
    rw [replicate_succ, foldl_cons, discoverChild, if_neg fun new => new.1 known]
    exact ih

theorem sharedByGarbage_children (n : Nat) : (sharedByGarbage n).containerChildren 0 = replicate n 2 ++ [1] ∧
      (sharedByGarbage n).containerChildren 2 = [] ∧
      (sharedByGarbage n).containerChildren 1 = replicate n 2 ++ [0] := by
  have one : Slot.target (.ref 2) = some 2 := rfl
  have kept : (replicate n 2).filter (fun a => ((sharedByGarbage n).value a).any HeapValue.isContainer) =
      replicate n 2 := by
    apply filter_eq_self.mpr
    intro a copy
    rw [eq_of_mem_replicate copy]
    rfl
  refine ⟨?_, rfl, ?_⟩
  · change ((replicate n (Slot.ref 2) ++ [Slot.ref 1]).filterMap Slot.target).filter _ = _
    rw [filterMap_append, filterMap_replicate_of_some one, filter_append, kept]
    rfl
  · change ((replicate n (Slot.ref 2) ++ [Slot.ref 0]).filterMap Slot.target).filter _ = _
    rw [filterMap_append, filterMap_replicate_of_some one, filter_append, kept]
    rfl

theorem sharedByGarbage_discovered (n : Nat) : (sharedByGarbage (n + 1)).discovered = [0, 2, 1] := by
  obtain ⟨of_zero, of_two, of_one⟩ := sharedByGarbage_children (n + 1)
  have found : discoverChild [0] 2 = [0, 2] := by decide
  have known : 2 ∈ ([0, 2] : List Nat) := by decide
  have known_later : 2 ∈ ([0, 2, 1] : List Nat) := by decide
  have copies : (replicate (n + 1) 2).foldl discoverChild [0] = [0, 2] := by
    rw [replicate_succ, foldl_cons, found]
    exact foldl_discoverChild_known known n
  have first : (replicate (n + 1) 2 ++ [1]).foldl discoverChild [0] = [0, 2, 1] := by
    rw [foldl_append, copies]
    rfl
  have last : (replicate (n + 1) 2 ++ [0]).foldl discoverChild [0, 2, 1] = [0, 2, 1] := by
    rw [foldl_append, foldl_discoverChild_known known_later]
    rfl
  have at_zero : ([0] : List Nat)[0]? = some 0 := rfl
  have at_two : ([0, 2, 1] : List Nat)[0 + 1]? = some 2 := rfl
  have at_one : ([0, 2, 1] : List Nat)[0 + 1 + 1]? = some 1 := rfl
  have at_end : ([0, 2, 1] : List Nat)[0 + 1 + 1 + 1]? = none := rfl
  rw [discovered, show (sharedByGarbage (n + 1)).candidates = [0] from rfl, discoverFrom, at_zero]
  simp only [of_zero, first]
  rw [discoverFrom, at_two]
  simp only [of_two, foldl_nil]
  rw [discoverFrom, at_one]
  simp only [of_one, last]
  rw [discoverFrom, at_end]

/-- Garbage that holds an object more than 65535 times: the object is emptied although a reference
from outside is left. -/
theorem shared_object_emptied : ¬ ∀ (s s' : Gc) (roots : Nat → Nat) (n : Nat), Sound s roots →
    s.collect = some (s', n) → Spares s s' roots := by
  intro claimed
  have sound := sharedByGarbage_sound 40000
  have nodes := sharedByGarbage_discovered 39999
  obtain ⟨of_zero, of_two, of_one⟩ := sharedByGarbage_children 40000
  have loose : ∀ a, ¬ Anchored (sharedByGarbage 40000).containerChildren (sharedByGarbage 40000).rc [0, 2, 1] a := by
    intro a anchored
    induction anchored with
    | held node counted =>
      simp only [internalRefs, map_cons, map_nil, sum_cons, sum_nil, of_zero, of_two, of_one,
        List.count_append, count_replicate, List.count_nil] at counted
      rcases mem_cons.mp node with rfl | node
      · exact absurd counted (by decide)
      · rcases mem_cons.mp node with rfl | node
        · exact absurd counted (by decide)
        · rw [mem_singleton.mp node] at counted
          exact absurd counted (by decide)
    | child _ _ _ ih => exact ih
  have some_left : (sharedByGarbage 40000).candidates ≠ [] := cons_ne_nil _ _
  have is_garbage : 2 ∈ (sharedByGarbage 40000).garbage := by
    rw [mem_garbage, nodes]
    exact ⟨by decide, loose 2⟩
  obtain ⟨before, s', run, -⟩ := collect_spec sound some_left
  have large : 65534 ≤ (sharedByGarbage 40000).rc 2 := by
    change 65534 ≤ 65535
    decide
  obtain ⟨v, at_two, flag⟩ := stuck_garbage sound some_left is_garbage large run
  rw [(claimed _ _ _ _ sound run).sound.idle 2 v at_two] at flag
  cases flag

end Collection

end PhpPico.Gc
