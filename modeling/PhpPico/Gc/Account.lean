import PhpPico.Gc.Safety

/-!
# What a collection does, event by event

The routines of the collector with a record of each reference released and each value freed. It balances: a value is
freed as often as it disappears, and a reference released as often as its holder loses it.
-/

namespace PhpPico.Gc
open List Option

/-- A holder gives up a reference that is in one of its slots, or a value is freed. -/
inductive Event where
  | dropped (holder child : Nat)
  | freed (a : Nat)
  deriving DecidableEq

/-- A heap and what has happened so far, the last first. -/
structure Logged where
  gc : Gc
  events : List Event

namespace Logged

def record (t : Logged) (e : Event) : Logged := { t with events := e :: t.events }

/-- A step that records nothing. -/
def after (t : Logged) (s : Gc) : Logged := { t with gc := s }

/-- `pv_release`. -/
def release : Nat → Logged → Nat → Option Logged
  | 0, _, _ => none
  | rounds + 1, t, a =>
    match t.gc.value a with
    | none => none
    | some v =>
      if v.refcnt = 65535 ∨ v.refcnt = 0 then some t
      else if v.refcnt - 1 ≠ 0 then some (t.after ((t.gc.put a { v with refcnt := v.refcnt - 1 }).buffer a))
      else do
        let t ← v.children.foldlM (fun t c => release rounds (t.record (.dropped a c)) c)
          (t.after ((t.gc.put a { v with refcnt := 0 }).unbuffer a))
        return (t.after (t.gc.free a)).record (.freed a)

/-- `release_child` of the `i`-th slot. -/
def releaseSlot (rounds : Nat) (a : Nat) (t : Logged) (i : Nat) : Option Logged :=
  match t.gc.value a with
  | none => none
  | some v =>
    match v.slots[i]? with
    | none => some t
    | some (.ref c) =>
      release rounds ((t.after (t.gc.put a { v with slots := v.slots.set i .null })).record (.dropped a c)) c
    | some _ => some (t.after (t.gc.put a { v with slots := v.slots.set i .null }))

/-- `visit_children` with `release_child`. -/
def releaseSlots (rounds : Nat) (t : Logged) (a : Nat) : Option Logged :=
  match t.gc.value a with
  | none => none
  | some v => (List.range v.slots.length).foldlM (releaseSlot rounds a) t

/-- `pphp_gc_collect`. -/
def collect (t : Logged) : Option (Logged × Nat) :=
  if t.gc.candidates = [] then some (t, 0)
  else do
    let s := t.gc.clearBuffer
    let nodes := discoverFrom s.containerChildren 256 0 t.gc.candidates
    let marked := marks s.containerChildren s.rc nodes
    let garbage := nodes.filter fun a => a ∉ marked
    let s := garbage.foldl (update condemned) s
    let t ← garbage.foldlM (releaseSlots (s.heap.length + 1)) (t.after s)
    let t ← garbage.foldlM (release (t.gc.heap.length + 1)) t
    return (t, garbage.length)

/-! ## The record is only a record -/

theorem foldlM_gc {f : Logged → Nat → Option Logged} {g : Gc → Nat → Option Gc}
    (one : ∀ t a, (f t a).map gc = g t.gc a) (l : List Nat) (t : Logged) : (l.foldlM f t).map gc = l.foldlM g t.gc := by
  induction l generalizing t with
  | nil => rfl
  | cons a rest ih =>
    rw [foldlM_cons, foldlM_cons, ← one]
    cases f t a with
    | none => rfl
    | some t' => exact ih t'

theorem release_gc (rounds : Nat) : ∀ (t : Logged) (a : Nat), (t.release rounds a).map gc = t.gc.release rounds a := by
  induction rounds with
  | zero => exact fun _ _ => rfl
  | succ rounds ih =>
    intro t a
    rw [release, Gc.release]
    cases t.gc.value a with
    | none => rfl
    | some v =>
      simp only
      split
      · rfl
      split
      · rfl
      · have each := foldlM_gc (f := fun t c => release rounds (t.record (.dropped a c)) c)
          (fun t c => ih (t.record (.dropped a c)) c) v.children
          (t.after ((t.gc.put a { v with refcnt := 0 }).unbuffer a))
        have start : (t.after ((t.gc.put a { v with refcnt := 0 }).unbuffer a)).gc =
          (t.gc.put a { v with refcnt := 0 }).unbuffer a := rfl
        rw [start] at each
        rw [← each]
        cases v.children.foldlM (fun t c => release rounds (t.record (.dropped a c)) c)
          (t.after ((t.gc.put a { v with refcnt := 0 }).unbuffer a)) <;> rfl

theorem releaseSlot_gc (rounds a : Nat) (t : Logged) (i : Nat) :
    (t.releaseSlot rounds a i).map gc = t.gc.releaseSlot rounds a i := by
  rw [releaseSlot, Gc.releaseSlot]
  cases t.gc.value a with
  | none => rfl
  | some v =>
    simp only
    cases v.slots[i]? with
    | none => rfl
    | some slot =>
      cases slot with
      | ref c => exact release_gc rounds _ c
      | null | scalar => rfl

theorem releaseSlots_gc (rounds : Nat) (t : Logged) (a : Nat) :
    (t.releaseSlots rounds a).map gc = t.gc.releaseSlots rounds a := by
  rw [releaseSlots, Gc.releaseSlots]
  cases t.gc.value a with
  | none => rfl
  | some v => exact foldlM_gc (releaseSlot_gc rounds a) _ t

/-- **The heap is what `pphp_gc_collect` makes of it.** -/
theorem collect_gc (t : Logged) : t.collect.map (fun r => (r.1.gc, r.2)) = t.gc.collect := by
  rw [collect, Gc.collect]
  split
  · rfl
  · simp only [bind_eq_bind]
    generalize (discoverFrom t.gc.clearBuffer.containerChildren 256 0 t.gc.candidates).filter _ = garbage
    generalize hs : garbage.foldl (update condemned) t.gc.clearBuffer = s
    have first := foldlM_gc (releaseSlots_gc (s.heap.length + 1)) garbage (t.after s)
    have start : (t.after s).gc = s := rfl
    rw [start] at first
    rw [← first]
    cases garbage.foldlM (releaseSlots (s.heap.length + 1)) (t.after s) with
    | none => rfl
    | some t₁ =>
      have second := foldlM_gc (release_gc (t₁.gc.heap.length + 1)) garbage t₁
      simp only [map_some, bind_some]
      rw [← second]
      cases garbage.foldlM (release (t₁.gc.heap.length + 1)) t₁ <;> rfl

end Logged

/-! ## What is in the slots -/

/-- 1 for a value that is not freed. -/
def present (s : Gc) (x : Nat) : Nat := (s.value x).elim 0 fun _ => 1

/-- How often the slots of one value refer to another. -/
def held (s : Gc) (x y : Nat) : Nat := (s.value x).elim 0 fun v => v.children.count y

/-- The slots of all values are as before. -/
def SameSlots (s s' : Gc) : Prop := ∀ x, (s'.value x).map HeapValue.slots = (s.value x).map HeapValue.slots

section Slots
variable {s s' s'' : Gc} {a : Nat} {v v' : HeapValue}

theorem SameSlots.trans (h : SameSlots s s') (h' : SameSlots s' s'') : SameSlots s s'' :=
  fun x => (h' x).trans (h x)

theorem SameSlots.present (h : SameSlots s s') (x : Nat) : s'.present x = s.present x := by
  have same := h x
  unfold Gc.present
  cases at_x : s.value x <;> cases at_x' : s'.value x <;> rw [at_x, at_x'] at same <;> first | rfl | cases same

theorem SameSlots.held (h : SameSlots s s') (x y : Nat) : s'.held x y = s.held x y := by
  have same := h x
  unfold Gc.held
  cases at_x : s.value x <;> cases at_x' : s'.value x <;> rw [at_x, at_x'] at same
  · cases same
  · cases same
  · have slots := some.inj same
    simp only [elim_some, HeapValue.children, slots]

theorem sameSlots_put (at_a : s.value a = some v) (slots : v'.slots = v.slots) : SameSlots s (s.put a v') := by
  intro x
  by_cases same : a = x
  · subst same
    rw [value_put_self (lt_of_value at_a), at_a, map_some, map_some, slots]
  · rw [value_put_ne same]

theorem sameSlots_buffer : SameSlots s (s.buffer a) := by
  unfold Gc.buffer
  cases at_a : s.value a with
  | none => exact fun _ => rfl
  | some v =>
    have flagged : SameSlots s (s.put a { v with buffered := true }) := sameSlots_put at_a rfl
    simp only
    split
    · exact fun _ => rfl
    split
    · exact flagged
    · exact fun _ => rfl

theorem sameSlots_unbuffer : SameSlots s (s.unbuffer a) := by
  unfold Gc.unbuffer
  cases at_a : s.value a with
  | none => exact fun _ => rfl
  | some v =>
    have flagged : SameSlots s (s.put a { v with buffered := false }) := sameSlots_put at_a rfl
    simp only
    split
    · exact flagged
    · exact fun _ => rfl

theorem sameSlots_update {f : HeapValue → HeapValue} (slots : ∀ v, (f v).slots = v.slots) (l : List Nat) :
    SameSlots s (l.foldl (update f) s) := by
  induction l generalizing s with
  | nil => exact fun _ => rfl
  | cons a rest ih =>
    have one : SameSlots s (s.update f a) := by
      intro x
      rw [value_update]
      split
      · cases s.value x with
        | none => rfl
        | some v => exact congrArg some (slots v)
      · rfl
    exact one.trans ih

end Slots

/-! ## The balance -/

/-- What is recorded balances what has disappeared. -/
structure Balanced (t t' : Logged) : Prop where
  freed : ∀ x, t'.events.count (.freed x) + t'.gc.present x = t.events.count (.freed x) + t.gc.present x
  dropped : ∀ x y, t'.events.count (.dropped x y) + t'.gc.held x y = t.events.count (.dropped x y) + t.gc.held x y

section Balance
variable {t t' t'' : Logged} {a : Nat}

theorem Balanced.refl (t : Logged) : Balanced t t := ⟨fun _ => rfl, fun _ _ => rfl⟩

theorem Balanced.trans (h : Balanced t t') (h' : Balanced t' t'') : Balanced t t'' :=
  ⟨fun x => (h'.freed x).trans (h.freed x), fun x y => (h'.dropped x y).trans (h.dropped x y)⟩

theorem balanced_after {s : Gc} (same : SameSlots t.gc s) : Balanced t (t.after s) :=
  ⟨fun x => congrArg _ (same.present x), fun x y => congrArg _ (same.held x y)⟩

theorem balanced_foldlM {f : Logged → Nat → Option Logged} {l : List Nat}
    (one : ∀ t a t', f t a = some t' → Balanced t t') (ran : l.foldlM f t = some t') : Balanced t t' := by
  induction l generalizing t with
  | nil =>
    cases ran
    exact .refl _
  | cons a rest ih =>
    rw [foldlM_cons] at ran
    obtain ⟨t₁, first, others⟩ := bind_eq_some_iff.mp ran
    exact (one t a t₁ first).trans (ih others)

/-- A value that is being destroyed is not touched. -/
def Inert (t t' : Logged) : Prop := ∀ x, t.gc.rc x = 0 → t'.gc.value x = t.gc.value x

theorem Inert.rc_zero (h : Inert t t') {x : Nat} (zero : t.gc.rc x = 0) : t'.gc.rc x = 0 := by
  rw [Gc.rc, h x zero]
  exact zero

theorem Inert.trans (h : Inert t t') (h' : Inert t' t'') : Inert t t'' :=
  fun x zero => (h' x (h.rc_zero zero)).trans (h x zero)

theorem value_buffer_ne {s : Gc} {x : Nat} (ne : a ≠ x) : (s.buffer a).value x = s.value x := by
  unfold Gc.buffer
  cases s.value a with
  | none => rfl
  | some v =>
    simp only
    split
    · rfl
    split
    · exact value_put_ne ne
    · rfl

theorem value_unbuffer_ne {s : Gc} {x : Nat} (ne : a ≠ x) : (s.unbuffer a).value x = s.value x := by
  unfold Gc.unbuffer
  cases s.value a with
  | none => rfl
  | some v =>
    simp only
    split
    · exact value_put_ne ne
    · rfl

theorem count_dropped_record (t : Logged) (a c x y : Nat) : (t.record (.dropped a c)).events.count (.dropped x y) =
      t.events.count (.dropped x y) + if x = a ∧ y = c then 1 else 0 := by
  rw [Logged.record, List.count_cons]
  by_cases same : x = a ∧ y = c
  · obtain ⟨rfl, rfl⟩ := same
    simp
  · rw [if_neg same, if_neg]
    intro equal
    have equal := eq_of_beq equal
    cases equal
    exact same ⟨rfl, rfl⟩

/-- The references of a value that is being destroyed are released one by one. -/
theorem balanced_children {rounds : Nat}
    (one : ∀ t a t', Logged.release rounds t a = some t' → Balanced t t' ∧ Inert t t') {l : List Nat} {t t' : Logged}
    (ran : l.foldlM (fun t c => Logged.release rounds (t.record (.dropped a c)) c) t = some t') : Inert t t' ∧
    (∀ x, t'.events.count (.freed x) + t'.gc.present x = t.events.count (.freed x) + t.gc.present x) ∧
    ∀ x y, t'.events.count (.dropped x y) + t'.gc.held x y =
      t.events.count (.dropped x y) + t.gc.held x y + if x = a then l.count y else 0 := by
  induction l generalizing t with
  | nil =>
    cases ran
    refine ⟨fun _ _ => rfl, fun _ => rfl, fun x y => ?_⟩
    rw [List.count_nil, ite_self, add_zero]
  | cons c rest ih =>
    rw [foldlM_cons] at ran
    obtain ⟨t₁, first, others⟩ := bind_eq_some_iff.mp ran
    obtain ⟨balanced, inert⟩ := one _ _ _ first
    obtain ⟨inert', freed', dropped'⟩ := ih others
    have before : Inert t t₁ := inert
    refine ⟨before.trans inert', fun x => ?_, fun x y => ?_⟩
    · have recorded : (t.record (.dropped a c)).events.count (.freed x) = t.events.count (.freed x) :=
        count_cons_of_ne (fun equal => by cases equal)
      rw [freed', balanced.freed, recorded]
      rfl
    · have recorded := count_dropped_record t a c x y
      have same : (t.record (.dropped a c)).gc.held x y = t.gc.held x y := rfl
      rw [dropped', balanced.dropped, recorded, same, List.count_cons]
      by_cases holder : x = a
      · by_cases child : y = c
        · simp only [holder, child, and_self, if_true, beq_self_eq_true]
          omega
        · simp only [holder, child, and_false, if_true, if_false, beq_iff_eq, Ne.symm child]
          omega
      · simp only [holder, false_and, if_false]
        omega

/-- **`pv_release` balances**: a value that is freed has released all it held. -/
theorem balanced_release (rounds : Nat) : ∀ t a t', Logged.release rounds t a = some t' →
    Balanced t t' ∧ Inert t t' := by
  induction rounds with
  | zero =>
    intro t a t' ran
    cases ran
  | succ rounds ih =>
    intro t a t' ran
    rw [Logged.release] at ran
    cases at_a : t.gc.value a with
    | none =>
      rw [at_a] at ran
      cases ran
    | some v =>
      rw [at_a] at ran
      simp only at ran
      by_cases still : v.refcnt = 65535 ∨ v.refcnt = 0
      · rw [if_pos still] at ran
        cases ran
        exact ⟨.refl _, fun _ _ => rfl⟩
      rw [if_neg still] at ran
      have apart : ∀ x, t.gc.rc x = 0 → a ≠ x := by
        rintro x zero rfl
        rw [rc_of_value at_a] at zero
        exact still (.inr zero)
      by_cases last : v.refcnt - 1 ≠ 0
      · rw [if_pos last] at ran
        cases ran
        have lowered : SameSlots t.gc (t.gc.put a { v with refcnt := v.refcnt - 1 }) := sameSlots_put at_a rfl
        refine ⟨balanced_after (lowered.trans sameSlots_buffer), fun x zero => ?_⟩
        exact (value_buffer_ne (apart x zero)).trans (value_put_ne (apart x zero))
      · rw [if_neg last] at ran
        obtain ⟨t₁, children, freed⟩ := bind_eq_some_iff.mp ran
        cases freed
        obtain ⟨inert, freed, dropped⟩ := balanced_children ih children
        have dying : SameSlots t.gc (t.gc.put a { v with refcnt := 0 }) := sameSlots_put at_a rfl
        have same := dying.trans (sameSlots_unbuffer (a := a))
        have start : ∀ x, a ≠ x → ((t.gc.put a { v with refcnt := 0 }).unbuffer a).value x = t.gc.value x :=
          fun x ne => (value_unbuffer_ne ne).trans (value_put_ne ne)
        -- the value itself stays as it is until it is freed
        have zero : ((t.gc.put a { v with refcnt := 0 }).unbuffer a).rc a = 0 := by
          have lt := lt_of_value at_a
          unfold Gc.unbuffer
          rw [value_put_self lt]
          simp only
          split
          · exact rc_of_value (value_put_self (by rw [put, List.length_set]; exact lt))
          · exact rc_of_value (value_put_self lt)
        have kept := inert a zero
        have slots_a : ∀ y, t₁.gc.held a y = v.children.count y := by
          intro y
          have held_a := same.held a y
          have begun : t₁.gc.held a y = ((t.gc.put a { v with refcnt := 0 }).unbuffer a).held a y := by
            rw [Gc.held, kept]
            rfl
          rw [begun, held_a, Gc.held, at_a]
          rfl
        have present_a : t₁.gc.present a = 1 := by
          have begun : t₁.gc.present a = ((t.gc.put a { v with refcnt := 0 }).unbuffer a).present a := by
            rw [Gc.present, kept]
            rfl
          rw [begun, same.present, Gc.present, at_a]
          rfl
        refine ⟨⟨fun x => ?_, fun x y => ?_⟩, fun x zero => ?_⟩
        · have before := freed x
          have unchanged := same.present x
          simp only [Logged.after] at before
          rw [unchanged] at before
          rw [Logged.record, Logged.after, List.count_cons]
          by_cases self : x = a
          · subst self
            have gone : (t₁.gc.free x).present x = 0 := by
              rw [Gc.present, value_free_self]
              rfl
            rw [present_a] at before
            simp only [gone, beq_self_eq_true, if_true]
            omega
          · have other : (t₁.gc.free a).present x = t₁.gc.present x := by
              rw [Gc.present, value_free_ne (Ne.symm self), ← Gc.present]
            have different : (Event.freed a == Event.freed x) = false := by
              rw [beq_eq_false_iff_ne]
              intro equal
              cases equal
              exact self rfl
            rw [different, other]
            simp only [Bool.false_eq_true, if_false]
            omega
        · have before := dropped x y
          have unchanged := same.held x y
          have recorded : (Event.freed a == Event.dropped x y) = false := rfl
          simp only [Logged.after] at before
          rw [unchanged] at before
          rw [Logged.record, Logged.after, List.count_cons, recorded]
          by_cases self : x = a
          · subst self
            have gone : (t₁.gc.free x).held x y = 0 := by
              rw [Gc.held, value_free_self]
              rfl
            rw [slots_a, if_pos rfl] at before
            simp only [gone, Bool.false_eq_true, if_false]
            omega
          · have other : (t₁.gc.free a).held x y = t₁.gc.held x y := by
              rw [Gc.held, value_free_ne (Ne.symm self), ← Gc.held]
            rw [if_neg self] at before
            simp only [other, Bool.false_eq_true, if_false]
            omega
        · have ne := apart x zero
          have zero' : ((t.gc.put a { v with refcnt := 0 }).unbuffer a).rc x = 0 := by
            rw [Gc.rc, start x ne]
            exact zero
          have kept_x := inert x zero'
          exact (value_free_ne ne).trans (kept_x.trans (start x ne))

theorem balanced_releaseSlot {rounds : Nat} {t t' : Logged} {i : Nat}
    (ran : t.releaseSlot rounds a i = some t') : Balanced t t' := by
  rw [Logged.releaseSlot] at ran
  cases at_a : t.gc.value a with
  | none =>
    rw [at_a] at ran
    cases ran
  | some v =>
    rw [at_a] at ran
    simp only at ran
    have lt := lt_of_value at_a
    cases at_i : v.slots[i]? with
    | none =>
      rw [at_i] at ran
      cases ran
      exact .refl _
    | some slot =>
      rw [at_i] at ran
      have children := targets_set at_i
      -- what the emptied slot held is missing from then on
      have present : ∀ x, (t.gc.put a { v with slots := v.slots.set i .null }).present x = t.gc.present x := by
        intro x
        by_cases self : a = x
        · subst self
          rw [Gc.present, Gc.present, value_put_self lt, at_a]
          rfl
        · rw [Gc.present, value_put_ne self, ← Gc.present]
      have held : ∀ x y, t.gc.held x y =
          (t.gc.put a { v with slots := v.slots.set i .null }).held x y +
            if x = a then slot.target.toList.count y else 0 := by
        intro x y
        by_cases self : a = x
        · subst self
          have split := children.count_eq y
          rw [List.count_append] at split
          rw [Gc.held, Gc.held, value_put_self lt, at_a, if_pos rfl]
          exact split.trans (add_comm _ _)
        · rw [if_neg (Ne.symm self), Gc.held, Gc.held, value_put_ne self, add_zero]
      cases slot with
      | ref c =>
        simp only at ran
        refine Balanced.trans ⟨fun x => ?_, fun x y => ?_⟩ (balanced_release rounds _ _ _ ran).1
        · have recorded : (Logged.record (t.after (t.gc.put a { v with slots := v.slots.set i .null }))
              (.dropped a c)).events.count (.freed x) = t.events.count (.freed x) :=
            count_cons_of_ne (fun equal => by cases equal)
          rw [recorded]
          exact congrArg _ (present x)
        · rw [count_dropped_record, held x y]
          have target : (Slot.ref c).target.toList = [c] := rfl
          rw [target, count_singleton]
          simp only [Logged.record, Logged.after, beq_iff_eq]
          by_cases holder : x = a
          · by_cases child : y = c
            · simp only [holder, child, and_self, if_true]
              omega
            · simp only [holder, child, Ne.symm child, and_false, if_true, if_false]
              omega
          · simp only [holder, false_and, if_false]
            omega
      | null | scalar =>
        cases ran
        refine ⟨fun x => congrArg _ (present x), fun x y => congrArg _ ?_⟩
        have same := held x y
        have nothing : ∀ slot : Slot, slot.target = none →
            (if x = a then slot.target.toList.count y else 0) = 0 := by
          intro slot no_target
          rw [no_target, toList_none, List.count_nil, ite_self]
        rw [nothing _ rfl] at same
        exact same.symm

theorem balanced_releaseSlots {rounds : Nat} {t t' : Logged} (ran : t.releaseSlots rounds a = some t') :
    Balanced t t' := by
  rw [Logged.releaseSlots] at ran
  cases at_a : t.gc.value a with
  | none =>
    rw [at_a] at ran
    cases ran
  | some v =>
    rw [at_a] at ran
    exact balanced_foldlM (fun _ _ _ one => balanced_releaseSlot one) ran

/-- **A collection balances**: a value is freed once if it disappears, and then each of its references has been
released once. -/
theorem balanced_collect {t t' : Logged} {n : Nat} (ran : t.collect = some (t', n)) : Balanced t t' := by
  rw [Logged.collect] at ran
  split at ran
  · cases ran
    exact .refl _
  · simp only [bind_eq_bind] at ran
    generalize (discoverFrom t.gc.clearBuffer.containerChildren 256 0 t.gc.candidates).filter _ = garbage at ran
    obtain ⟨t₁, slots, ran⟩ := bind_eq_some_iff.mp ran
    obtain ⟨t₂, values, ran⟩ := bind_eq_some_iff.mp ran
    cases ran
    have cleared : SameSlots t.gc t.gc.clearBuffer :=
      sameSlots_update (f := fun v => { v with buffered := false }) (fun _ => rfl) t.gc.candidates
    have begun := balanced_after (cleared.trans (sameSlots_update (fun v => (condemned_spec v).2.1) garbage))
    have emptied := balanced_foldlM (fun _ _ _ one => balanced_releaseSlots one) slots
    have released := balanced_foldlM (fun _ _ _ one => (balanced_release _ _ _ _ one).1) values
    exact begun.trans (emptied.trans released)

end Balance

end PhpPico.Gc
