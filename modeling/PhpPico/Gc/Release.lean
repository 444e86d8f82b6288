import PhpPico.Gc.Heap

/-!
# Releasing references

While the counts are right, `pv_release` returns, reads no freed value and leaves right counts. Values that stay keep
what is in their slots; a value whose count falls to 0 is freed.
-/

namespace PhpPico.Gc
open List Option

/-- What becomes of a value: its count falls, and its slots may be emptied when `clear` allows it. -/
structure Later (clear : Prop) (v v' : HeapValue) : Prop where
  type : v'.type = v.type
  collecting : v'.collecting = v.collecting
  refcnt : v'.refcnt ≤ v.refcnt
  children : v'.children ⊆ v.children
  length : v'.slots.length = v.slots.length
  slots : ¬ clear → v'.slots = v.slots

/-- What becomes of a heap while references are released: no value comes back, stuck counts stay, and only the slots
of `clear` are emptied. -/
structure Evolves (clear : List Nat) (s s' : Gc) : Prop where
  length : s'.heap.length = s.heap.length
  inert : ∀ a, s.rc a = 0 → s'.value a = s.value a
  stuck : ∀ a, s.rc a = 65535 → s'.rc a = 65535
  later : ∀ a v', s'.value a = some v' → ∃ v, s.value a = some v ∧ Later (a ∈ clear) v v'
  gone : ∀ a, s.rc a ≠ 0 → s'.rc a = 0 → s'.value a = none
  fewer : s'.alive ≤ s.alive

section Evolves
variable {s s' s'' : Gc} {a x : Nat} {v v' : HeapValue} {clear clear' p : List Nat} {roots : Nat → Nat}

theorem Later.refl (clear : Prop) (v : HeapValue) : Later clear v v :=
  ⟨rfl, rfl, le_rfl, fun _ h => h, rfl, fun _ => rfl⟩

theorem Later.trans {c : Prop} {v'' : HeapValue} (h : Later c v v') (h' : Later c v' v'') : Later c v v'' :=
  ⟨h'.type.trans h.type, h'.collecting.trans h.collecting, h'.refcnt.trans h.refcnt,
    fun _ hx => h.children (h'.children hx), h'.length.trans h.length, fun no => (h'.slots no).trans (h.slots no)⟩

theorem Evolves.refl (clear : List Nat) (s : Gc) : Evolves clear s s :=
  ⟨rfl, fun _ _ => rfl, fun _ h => h, fun _ v h => ⟨v, h, Later.refl _ v⟩, fun _ h h' => absurd h' h, le_rfl⟩

theorem Evolves.rc_le (h : Evolves clear s s') (a : Nat) : s'.rc a ≤ s.rc a := by
  cases at_a : s'.value a with
  | none => rw [rc_of_none at_a]; exact Nat.zero_le _
  | some v' =>
    obtain ⟨v, at_v, later⟩ := h.later a v' at_a
    rw [rc_of_value at_a, rc_of_value at_v]
    exact later.refcnt

theorem Evolves.trans (h : Evolves clear s s') (h' : Evolves clear s' s'') : Evolves clear s s'' := by
  refine ⟨h'.length.trans h.length, fun a zero => ?_, fun a full => h'.stuck a (h.stuck a full), fun a v'' at_a => ?_,
    fun a some_rc zero => ?_, h'.fewer.trans h.fewer⟩
  · have zero' : s'.rc a = 0 := by rw [rc, h.inert a zero]; exact zero
    rw [h'.inert a zero', h.inert a zero]
  · obtain ⟨v', at_a', later'⟩ := h'.later a v'' at_a
    obtain ⟨v, at_a'', later⟩ := h.later a v' at_a'
    exact ⟨v, at_a'', later.trans later'⟩
  · by_cases zero' : s'.rc a = 0
    · rw [h'.inert a zero']
      exact h.gone a some_rc zero'
    · exact h'.gone a zero' zero

theorem Evolves.mono (h : Evolves clear s s') (sub : clear ⊆ clear') : Evolves clear' s s' := by
  refine ⟨h.length, h.inert, h.stuck, fun a v' at_a => ?_, h.gone, h.fewer⟩
  obtain ⟨v, at_v, later⟩ := h.later a v' at_a
  exact ⟨v, at_v, later.type, later.collecting, later.refcnt, later.children, later.length,
    fun no => later.slots fun c => no (sub c)⟩

theorem refs_congr (heap : s'.heap = s.heap) (x : Nat) : s'.refs x = s.refs x := by
  rw [refs, refs, heap]

theorem rc_congr (heap : s'.heap = s.heap) (x : Nat) : s'.rc x = s.rc x := by
  rw [rc, rc, value_congr heap]

theorem evolves_of_put (at_a : s.value a = some v) (heap : s'.heap = (s.put a v').heap)
    (later : Later (a ∈ clear) v v') (stays : v'.refcnt ≠ 0) (stuck : v.refcnt = 65535 → v'.refcnt = 65535) :
    Evolves clear s s' := by
  have lt := lt_of_value at_a
  have value := value_congr heap
  have rc_a : s.rc a = v.refcnt := rc_of_value at_a
  have alive : v.refcnt ≠ 0 := fun zero => stays (Nat.le_zero.mp (zero ▸ later.refcnt))
  refine ⟨?_, fun x zero => ?_, fun x full => ?_, fun x w at_x => ?_, fun x some_rc zero => ?_, ?_⟩
  · rw [heap, put, List.length_set]
  · have ne : a ≠ x := by
      rintro rfl
      rw [rc_a] at zero
      exact alive zero
    rw [value, value_put_ne ne]
  · by_cases same : a = x
    · subst same
      rw [rc, value, value_put_self lt]
      exact stuck (rc_a ▸ full)
    · rw [rc, value, value_put_ne same]
      exact full
  · rw [value] at at_x
    by_cases same : a = x
    · subst same
      rw [value_put_self lt] at at_x
      cases at_x
      exact ⟨v, at_a, later⟩
    · rw [value_put_ne same] at at_x
      exact ⟨w, at_x, Later.refl _ w⟩
  · by_cases same : a = x
    · subst same
      rw [rc, value, value_put_self lt] at zero
      exact absurd zero stays
    · rw [rc, value, value_put_ne same] at zero
      exact absurd zero some_rc
  · have count := alive_put at_a v'
    have same : s'.alive = (s.put a v').alive := by rw [Gc.alive, heap, ← Gc.alive]
    simp only [aliveOf, elim_some, if_neg alive, if_neg stays] at count
    omega

theorem counted_put (at_a : s.value a = some v) (heap : s'.heap = (s.put a v').heap) (x : Nat) :
    s'.refs x + refersTo (some v) x = s.refs x + refersTo (some v') x ∧
      s'.rc x = if x = a then v'.refcnt else s.rc x := by
  have lt := lt_of_value at_a
  rw [refs_congr heap, rc_congr heap]
  refine ⟨refs_put at_a x, ?_⟩
  by_cases same : x = a
  · subst same
    rw [if_pos rfl, rc, value_put_self lt]
    rfl
  · rw [if_neg same, rc, value_put_ne (Ne.symm same), ← rc]

end Evolves

section Release
variable {s : Gc} {a : Nat} {p : List Nat} {roots : Nat → Nat}

/-- What one release, or many, may rely on and what they leave behind. -/
def Releases (roots : Nat → Nat) (p : List Nat) (s : Gc) (r : Option Gc) : Prop :=
  ∃ s', r = some s' ∧ s'.Counted roots p ∧ s'.BufferOk ∧ Evolves [] s s'

theorem releases_all {rounds : Nat}
    (one : ∀ (s : Gc) (a : Nat) (p : List Nat), s.Counted roots (a :: p) → s.BufferOk → s.alive < rounds →
      Releases roots p s (s.release rounds a))
    (l : List Nat) (counted : s.Counted roots (l ++ p)) (buffer : s.BufferOk) (enough : s.alive < rounds) :
    Releases roots p s (l.foldlM (release rounds) s) := by
  induction l generalizing s with
  | nil => exact ⟨s, rfl, counted, buffer, Evolves.refl _ s⟩
  | cons a rest ih =>
    obtain ⟨s₁, run₁, counted₁, buffer₁, evolves₁⟩ := one s a (rest ++ p) counted buffer enough
    obtain ⟨s₂, run₂, counted₂, buffer₂, evolves₂⟩ := ih counted₁ buffer₁ (evolves₁.fewer.trans_lt enough)
    refine ⟨s₂, ?_, counted₂, buffer₂, evolves₁.trans evolves₂⟩
    rw [foldlM_cons, run₁]
    exact run₂

/-- **`pv_release` returns** with right counts: the induction is on the rounds, each of which sees
one value less that is not being destroyed. -/
theorem releases (rounds : Nat) : ∀ (s : Gc) (a : Nat) (p : List Nat), s.Counted roots (a :: p) →
    s.BufferOk → s.alive < rounds → Releases roots p s (s.release rounds a) := by
  induction rounds with
  | zero => exact fun s a p _ _ lt => absurd lt (Nat.not_lt_zero _)
  | succ rounds ih =>
    intro s a p counted buffer enough
    have counts : s.rc a ≠ 0 := by
      rcases counted a with full | eq
      · rw [full]
        decide
      · rw [count_cons_self] at eq
        omega
    obtain ⟨v, at_a, same_rc⟩ := exists_value counts
    rw [← same_rc] at counts
    have lt := lt_of_value at_a
    rw [release, at_a]
    simp only
    by_cases stuck : v.refcnt = 65535 ∨ v.refcnt = 0
    · rw [if_pos stuck]
      refine ⟨s, rfl, fun x => ?_, buffer, Evolves.refl _ s⟩
      have full : s.rc a = 65535 := by rw [← same_rc]; exact stuck.resolve_right counts
      by_cases same : x = a
      · rw [same]
        exact .inl full
      · rw [← count_cons_of_ne (Ne.symm same)]
        exact counted x
    · rw [if_neg stuck]
      have not_full : v.refcnt ≠ 65535 := fun full => stuck (.inl full)
      have exact_a : v.refcnt = roots a + s.refs a + (a :: p).count a :=
        same_rc.trans ((counted a).resolve_left (by rw [← same_rc]; exact not_full))
      by_cases last : v.refcnt - 1 ≠ 0
      · -- the value stays, perhaps as a candidate
        rw [if_pos last]
        have buffer₁ : (s.put a { v with refcnt := v.refcnt - 1 }).BufferOk := buffer.put at_a rfl rfl fun _ => last
        obtain ⟨buffer₂, heap₂⟩ := buffer₁.buffer (value_put_self lt)
        have heap : ∃ flag, ((s.put a { v with refcnt := v.refcnt - 1 }).buffer a).heap =
            (s.put a { v with refcnt := v.refcnt - 1, buffered := flag }).heap := by
          rcases heap₂ with heap₂ | heap₂
          · exact ⟨v.buffered, heap₂⟩
          · refine ⟨true, heap₂.trans ?_⟩
            simp only [put, set_set]
        obtain ⟨flag, heap⟩ := heap
        refine ⟨_, rfl, fun x => ?_, buffer₂, ?_⟩
        · obtain ⟨refs, rc⟩ := counted_put at_a heap x
          have same_refs : refersTo (some { v with refcnt := v.refcnt - 1, buffered := flag }) x =
              refersTo (some v) x := by
            simp only [refersTo, elim_some, if_neg last, if_neg counts]
            rfl
          rw [rc]
          by_cases same : x = a
          · subst same
            rw [if_pos rfl]
            rw [count_cons_self] at exact_a
            right
            simp only
            omega
          · rw [if_neg same]
            have := counted x
            rw [count_cons_of_ne (Ne.symm same)] at this
            omega
        · refine evolves_of_put at_a heap ⟨rfl, rfl, Nat.sub_le _ _, fun _ hx => hx, rfl, fun _ => rfl⟩ last ?_
          exact fun full => absurd full not_full
      · -- the value is destroyed
        rw [if_neg last]
        obtain ⟨buffer₂, heap₂⟩ := buffer.dying at_a
        generalize hs₂ : (s.put a { v with refcnt := 0 }).unbuffer a = s₂ at buffer₂ heap₂
        have value₂ := value_congr heap₂
        have at_a₂ : s₂.value a = some { v with refcnt := 0, buffered := false } := by
          rw [value₂, value_put_self lt]
        have rc_a₂ : s₂.rc a = 0 := rc_of_value at_a₂
        have no_more : roots a + s.refs a + p.count a = 0 := by
          rw [count_cons_self] at exact_a
          omega
        have counted₂ : s₂.Counted roots (v.children ++ p) := by
          intro x
          obtain ⟨refs, rc⟩ := counted_put at_a heap₂ x
          simp only [refersTo, elim_some, if_true, if_neg counts] at refs
          rw [rc, List.count_append]
          by_cases same : x = a
          · subst same
            rw [if_pos rfl]
            right
            simp only
            omega
          · rw [if_neg same]
            have := counted x
            rw [count_cons_of_ne (Ne.symm same)] at this
            omega
        have fewer : s₂.alive + 1 = s.alive := by
          have count := alive_put at_a { v with refcnt := 0, buffered := false }
          have same : s₂.alive = (s.put a { v with refcnt := 0, buffered := false }).alive := by
            rw [Gc.alive, heap₂, ← Gc.alive]
          simp only [aliveOf, elim_some, if_true, if_neg counts] at count
          omega
        obtain ⟨s₃, run₃, counted₃, buffer₃, evolves₃⟩ := releases_all ih v.children counted₂ buffer₂ (by omega)
        have at_a₃ : s₃.value a = some { v with refcnt := 0, buffered := false } := (evolves₃.inert a rc_a₂).trans at_a₂
        refine ⟨s₃.free a, ?_, fun x => ?_, buffer₃.free at_a₃ rfl, ?_⟩
        · rw [run₃]
          rfl
        · have refs := refs_free at_a₃ x
          simp only [refersTo, elim_some, if_true, add_zero] at refs
          rw [refs]
          by_cases same : a = x
          · subst same
            have := counted₃ a
            rw [rc_of_value at_a₃] at this
            rw [rc_of_none value_free_self]
            exact this
          · rw [rc, value_free_ne same]
            exact counted₃ x
        · have others : ∀ x, x ≠ a → s₂.value x = s.value x := fun x ne => by
            rw [value₂, value_put_ne (Ne.symm ne)]
          have rc_others : ∀ x, x ≠ a → s₂.rc x = s.rc x := fun x ne => by rw [rc, others x ne, ← rc]
          refine ⟨?_, fun x zero => ?_, fun x full => ?_, fun x w at_x => ?_, fun x some_rc zero => ?_, ?_⟩
          · rw [free, List.length_set, evolves₃.length, heap₂, put, List.length_set]
          · have ne : x ≠ a := by
              rintro rfl
              rw [← same_rc] at zero
              exact counts zero
            rw [value_free_ne (Ne.symm ne), evolves₃.inert x (by rw [rc_others x ne]; exact zero), others x ne]
          · have ne : x ≠ a := by
              rintro rfl
              rw [← same_rc] at full
              exact not_full full
            rw [rc, value_free_ne (Ne.symm ne), ← rc]
            exact evolves₃.stuck x (by rw [rc_others x ne]; exact full)
          · have ne : x ≠ a := by
              rintro rfl
              rw [value_free_self] at at_x
              cases at_x
            rw [value_free_ne (Ne.symm ne)] at at_x
            obtain ⟨u, at_u, later⟩ := evolves₃.later x w at_x
            rw [others x ne] at at_u
            exact ⟨u, at_u, later⟩
          · by_cases same : x = a
            · rw [same, value_free_self]
            · rw [rc, value_free_ne (Ne.symm same), ← rc] at zero
              rw [value_free_ne (Ne.symm same)]
              exact evolves₃.gone x (by rw [rc_others x same]; exact some_rc) zero
          · have count := alive_free at_a₃
            have := evolves₃.fewer
            omega

end Release

end PhpPico.Gc
