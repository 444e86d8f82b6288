import PhpPico.Sharing.Steps

/-!
# Callbacks of natives

A native calls back with `pphp_vm_invoke`, and the callback may do anything to the variables it reaches. **The arrays
that the native holds stay as they are and are stored as they were**, unless a native that writes its arguments in
place is given one of them as a value.
-/

namespace PhpPico.Sharing
open CopyOnWrite OrderedMap

/-! ## Storage -/

/-- A state, and what its arrays are stored as. -/
structure Host where
  state : State
  storage : Nat → PArray PValue

/-- Each array is stored with its content. -/
def Host.Fits (h : Host) : Prop :=
  ∀ a cell, cellAt h.state.heap a = some cell → (h.storage a).dict = cell.content.dict

/-- The arrays whose storage a step may change: what it writes in place, clears or frees. -/
def Writes (s : State) (a : Nat) : Op → Prop
  | .setIndex _ _ slot _ _ | .unsetIndex _ _ slot _ => s.readLocal slot = some (.array a) ∧ rc s.heap a ≤ 1
  | .mutatePush i _ | .mutateReplace i _ => baseAt s i = some (.array a)
  | .releaseOne => s.pending.head? = some (.array a) ∧ rc s.heap a ≤ 1
  | .collect b => a = b
  | _ => False

/-- Runs with their storage, whose steps all meet a condition. -/
inductive HostRun (prog : Program) (condition : Op → State → Prop) : Host → Host → Prop where
  | refl (h : Host) : HostRun prog condition h h
  | step {h h' : Host} {s : State} {storage : Nat → PArray PValue} {op : Op} (before : HostRun prog condition h h')
      (allowed : Allowed h'.state op) (meets : condition op h'.state) (next : exec prog op h'.state = some s)
      (fits : Host.Fits ⟨s, storage⟩)
      (stored : ∀ a, storage a = h'.storage a ∨ h'.state.heap.length ≤ a ∨ Writes h'.state a op) :
      HostRun prog condition h ⟨s, storage⟩

/-! ## What stays -/

/-- The frames that are not left. -/
def Above (below : List Frame) (s : State) : Prop := ∃ extra, s.frame :: s.callers = extra ++ below

/-- No array that is held is written by a native that is given it as a value. -/
def Harmless (held : List PValue) (op : Op) (s : State) : Prop :=
  match op with
  | .mutatePush i _ | .mutateReplace i _ =>
    ∀ b, baseAt s i = some (.array b) → ∀ w ∈ held, ¬ Reaches Content.entries s.heap w b
  | _ => True

/-- The values that the operands of a frame hold. -/
def Frame.held (f : Frame) : List PValue := f.operands.flatMap Operand.values

section Kept
variable {prog : Program} {s : State} {f : Frame} {callers : List Frame} {op : Op} {w : PValue} {a : Nat}

theorem count_frames (s : State) (a : Nat) : count a s.places =
    count a ((s.frame :: s.callers).flatMap Frame.values) + count a (s.objects.flatMap slotsOf) + count a s.stored +
      count a s.pending := by
  simp only [State.places, List.flatMap_cons, count_append]

/-- What the frame holds is counted besides the variables and what is to be released. -/
theorem held_counted (above : Above (f :: callers) s) (a : Nat) :
    count a f.held + count a (s.frame.locals.flatMap Variable.values) + count a s.stored + count a s.pending ≤
      count a s.places := by
  obtain ⟨extra, frames⟩ := above
  rw [count_frames, frames]
  cases extra with
  | nil =>
    obtain ⟨rfl, -⟩ := List.cons.inj frames
    simp only [List.nil_append, List.flatMap_cons, Frame.values, Frame.held, count_append]
    omega
  | cons top extra =>
    obtain ⟨rfl, -⟩ := List.cons.inj frames
    simp only [List.cons_append, List.flatMap_cons, List.flatMap_append, Frame.values, Frame.held, count_append]
    omega

theorem held_mem (above : Above (f :: callers) s) (mem : w ∈ f.held) : w ∈ s.places := by
  obtain ⟨extra, frames⟩ := above
  have inside : w ∈ (s.frame :: s.callers).flatMap Frame.values := by
    rw [frames]
    refine List.mem_flatMap.mpr ⟨f, List.mem_append_right _ (.head _), ?_⟩
    exact List.mem_append_left _ mem
  have split : s.places =
      (s.frame :: s.callers).flatMap Frame.values ++ s.objects.flatMap slotsOf ++ s.stored ++ s.pending := by
    rw [State.places, List.flatMap_cons]
  rw [split]
  exact List.mem_append_left _ (List.mem_append_left _ (List.mem_append_left _ inside))

/-- A variable is not where the frame holds its array. -/
theorem variable_counted (above : Above (f :: callers) s) {slot : Nat} {base : PValue}
    (read : s.readLocal slot = some base) (a : Nat) : count a f.held + count a [base] ≤ count a s.places := by
  have counted := held_counted above a
  unfold State.readLocal at read
  split at read
  · cases read
  · rename_i own at_slot
    cases read
    have there := count_flatMap_le (a := a) Variable.values at_slot
    have single : count a (Variable.values (.own base)) = count a [base] := rfl
    omega
  · have there := count_flatMap_le (a := a) (fun v => [v]) read
    simp only [List.flatMap_singleton'] at there
    omega

/-- **A harmless step spares what is held.** -/
theorem held_spared (above : Above (f :: callers) s) (harmless : Harmless f.held op s) (mem : w ∈ f.held) :
    Spared s w op := by
  cases op with
  | setIndex _ _ slot _ _ | unsetIndex _ _ slot _ =>
    intro base a read same
    have counted := variable_counted above read a
    have here := count_pos (same ▸ mem)
    omega
  | mutatePush i v | mutateReplace i c => exact fun a at_i => harmless a at_i w mem
  | releaseOne =>
    intro v rest pending a same
    have counted := held_counted above a
    have here := count_pos (same ▸ mem)
    rw [pending, count_cons] at counted
    omega
  | _ => trivial

/-- An array that the frame and something else hold has more than one reference. -/
theorem shared_rc (sound : s.Sound []) (shared : 1 < count a s.places) : 1 < rc s.heap a := by
  have counted : rc s.heap a = refcntMax ∨ count a s.places + 0 + inside Content.entries s.heap a ≤ rc s.heap a :=
    sound a
  rcases counted with stuck | enough
  · rw [stuck]
    decide
  · omega

/-- **Nor does it write the storage of what is held.** -/
theorem held_not_written (above : Above (f :: callers) s) (harmless : Harmless f.held op s) (sound : s.Sound [])
    (allowed : Allowed s op) (mem : Value.array a ∈ f.held) : ¬ Writes s a op := by
  have here := count_pos mem
  intro writes
  cases op with
  | setIndex _ _ slot _ _ | unsetIndex _ _ slot _ =>
    obtain ⟨read, few⟩ := writes
    have counted := variable_counted above read a
    rw [count_cons_array, if_pos rfl] at counted
    have shared := shared_rc sound (a := a) (by omega)
    omega
  | mutatePush i v | mutateReplace i c => exact harmless a writes _ mem (.here a)
  | releaseOne =>
    obtain ⟨first, few⟩ := writes
    obtain ⟨rest, pending⟩ := List.head?_eq_some_iff.mp first
    have counted := held_counted above a
    rw [pending, count_cons_array, if_pos rfl] at counted
    have shared := shared_rc sound (a := a) (by omega)
    omega
  | collect b =>
    cases writes
    exact allowed _ (held_mem above mem) (.here a)
  | _ => exact writes

/-- What a run leaves as it was. -/
structure Kept (held : List PValue) (h h' : Host) : Prop where
  sound : h'.state.Sound []
  fits : h'.Fits
  agree : ∀ w ∈ held, Agree Content.entries h.state.heap h'.state.heap w
  storage : ∀ a, Value.array a ∈ held → h'.storage a = h.storage a

theorem Kept.refl {held : List PValue} {h : Host} (sound : h.state.Sound []) (fits : h.Fits) : Kept held h h :=
  ⟨sound, fits, fun w _ => .refl _ w, fun _ _ => rfl⟩

theorem Kept.trans {held : List PValue} {h h' h'' : Host} (kept : Kept held h h') (kept' : Kept held h' h'') :
    Kept held h h'' where
  sound := kept'.sound
  fits := kept'.fits
  agree := fun w mem => (kept.agree w mem).trans (kept'.agree w mem)
  storage := fun a mem => (kept'.storage a mem).trans (kept.storage a mem)

theorem Kept.of_subset {held held' : List PValue} {h h' : Host} (kept : Kept held h h') (sub : held' ⊆ held) :
    Kept held' h h' :=
  ⟨kept.sound, kept.fits, fun w mem => kept.agree w (sub mem), fun a mem => kept.storage a (sub mem)⟩

/-- **Harmless runs above a frame keep what it holds.** -/
theorem HostRun.kept {h h' : Host}
    (run : HostRun prog (fun op s => Above (f :: callers) s ∧ Harmless f.held op s) h h') (sound : h.state.Sound [])
    (fits : h.Fits) : Kept f.held h h' := by
  induction run with
  | refl => exact .refl sound fits
  | @step h' s storage op before allowed meets next fits' stored ih =>
    obtain ⟨above, harmless⟩ := meets
    have effect := exec_effect ih.sound allowed next
    refine ih.trans ⟨effect.sound, fits', fun w mem => ?_, fun a mem => ?_⟩
    · exact effect.agree w (held_mem above mem) (held_spared above harmless mem)
    · rcases stored a with same | new | writes
      · exact same
      · obtain ⟨cell, found⟩ := ih.sound.live_place (held_mem above mem) a rfl
        exact absurd (cellAt_lt found) (not_lt.mpr new)
      · exact absurd writes (held_not_written above harmless ih.sound allowed mem)

/-- **A native that is called by its name** is given an array that was separated: nothing that is held reaches it. -/
theorem separated_unreached {s₁ s₂ : State} {slot b : Nat} {separates : Bool} (above : Above (f :: callers) s)
    (sound : s.Sound []) (loaded : s.loadLocal slot = some s₁) (separated : s₁.arrSeparate separates = some s₂)
    (top : s₂.frame.operands = .value (.array b) :: s.frame.operands) (mem : w ∈ f.held) :
    ¬ Reaches Content.entries s₂.heap w b := by
  obtain ⟨v, read, rfl, sound₁, -, agree, more⟩ := loadLocal_spec sound loaded
  unfold State.arrSeparate at separated
  obtain ⟨⟨v', t⟩, popped, separated⟩ := Option.bind_eq_some_iff.mp separated
  have same : some (v, s.retained v) = some (v', t) := popped
  cases same
  cases v with
  | data d =>
    cases separated
    have lengths := congrArg List.length top
    exact absurd lengths (ne_of_lt (Nat.lt_succ_self _))
  | array a =>
    obtain ⟨⟨writable, s₃⟩, written, separated⟩ := Option.bind_eq_some_iff.mp separated
    have held_live : Live s.heap w := sound.live_place (held_mem above mem)
    have sound' : (s.retained (.array a)).Sound [.array a] := sound.retained (sound.live_place (readLocal_mem read))
    cases writable with
    | none =>
      cases arrayForWrite_none written
      cases separated
      have lengths := congrArg List.length top
      exact absurd lengths (ne_of_lt (Nat.lt_succ_self _))
    | some c =>
      cases separated
      obtain ⟨-, -, -, apart⟩ := arrayForWrite_spec sound' written
      cases (List.cons.inj top).1
      refine (apart w (held_live.of_agree (agree w))).2 ?_
      have spare : ∀ x, w = .array x → count x [Value.array (D := Data) a] < count x s.places := by
        intro x same
        have counted := variable_counted above read x
        have here := count_pos (same ▸ mem)
        omega
      exact apart_of_loaded sound₁ (fun x => (more x).ge) (readLocal_mem read) spare a rfl

end Kept

/-! ## Calls -/

/-- `pphp_vm_invoke` begins: the callable and its arguments become constants, which the code of the callback loads. -/
def State.invoked (s : State) (callable : PValue) (arguments : List PValue) : State :=
  let constants := callable :: arguments
  { s.retainedAll (constants ++ constants) with
    frame := ⟨none, [], (constants.map Operand.value).reverse⟩
    callers := { s.frame with operands := constants.map .value ++ s.frame.operands } :: s.callers }

/-- It ends: the frame of the callback and the constants go. -/
def State.ended (t : State) (caller : Frame) (callers : List Frame) (left : List PValue) : State :=
  { t with frame := caller, callers := callers, pending := left ++ t.pending }

section Calls
variable (prog : Program) (condition : List PValue → Op → State → Prop) (Text : Type)

/-- The frame of a native while it calls back. -/
def State.waiting (s : State) (callable : PValue) (arguments : List PValue) : Frame :=
  { s.frame with operands := (callable :: arguments).map .value ++ s.frame.operands }

/-- The runs of a callback. -/
def Runs (s : State) (callable : PValue) (arguments : List PValue) (h h' : Host) : Prop :=
  HostRun prog (fun op t => Above (s.waiting callable arguments :: s.callers) t ∧
    condition (s.waiting callable arguments).held op t) h h'

/-- `invoke_callback`: the callback returns, or an error is left. -/
inductive Invokes (h : Host) (callable : PValue) (arguments : List PValue) : Except Text PValue → Host → Prop where
  | returned {t : Host} {result : PValue} {rest : List Operand}
      (run : Runs prog condition h.state callable arguments ⟨h.state.invoked callable arguments, h.storage⟩ t)
      (callers : t.state.callers = h.state.waiting callable arguments :: h.state.callers)
      (halted : t.state.frame.operands = .value result :: rest) :
      Invokes h callable arguments (.ok result)
        ⟨t.state.ended { h.state.frame with operands := .value result :: h.state.frame.operands } h.state.callers
          (rest.flatMap Operand.values ++ t.state.frame.locals.flatMap Variable.values ++ callable :: arguments),
          t.storage⟩
  | failed {t : Host} (text : Text)
      (run : Runs prog condition h.state callable arguments ⟨h.state.invoked callable arguments, h.storage⟩ t)
      (callers : t.state.callers = h.state.waiting callable arguments :: h.state.callers)
      (error : t.state.error = true) :
      Invokes h callable arguments (.error text)
        ⟨t.state.ended h.state.frame h.state.callers (t.state.frame.values ++ callable :: arguments), t.storage⟩

/-- Values are released, and destructors run. -/
structure Settles (h h' : Host) : Prop where
  run : HostRun prog (fun op t => Above (h.state.frame :: h.state.callers) t ∧ condition h.state.frame.held op t) h h'
  frame : h'.state.frame = h.state.frame
  callers : h'.state.callers = h.state.callers

end Calls

section Spec
variable {prog : Program} {Text : Type} {h h' : Host} {callable : PValue} {arguments : List PValue}
  {outcome : Except Text PValue} {condition : List PValue → Op → State → Prop}

theorem flatMap_values (vs : List PValue) : (vs.map Operand.value).flatMap Operand.values = vs := by
  induction vs with
  | nil => rfl
  | cons v rest ih =>
    rw [List.map_cons, List.flatMap_cons, Operand.values, ih]
    rfl

theorem held_waiting (s : State) : (s.waiting callable arguments).held = callable :: arguments ++ s.frame.held := by
  rw [Frame.held, State.waiting, List.flatMap_append, flatMap_values]
  rfl

theorem count_waiting {s : State} (a : Nat) : count a (s.waiting callable arguments).values =
    count a (callable :: arguments) + count a s.frame.values := by
  rw [Frame.values, count_append, ← Frame.held, held_waiting, count_append, Frame.values, count_append, Frame.held]
  have locals : (s.waiting callable arguments).locals = s.frame.locals := rfl
  rw [locals]
  omega

theorem sound_invoked {s : State} (sound : s.Sound []) (live : ∀ v ∈ callable :: arguments, Live s.heap v) :
    (s.invoked callable arguments).Sound [] := by
  have live_twice : ∀ v ∈ (callable :: arguments) ++ (callable :: arguments), Live s.heap v := fun v mem =>
    (List.mem_append.mp mem).elim (live v) (live v)
  have retained := sound.retainedAll live_twice
  refine retained.moved rfl fun a => ?_
  rw [count_places, count_places]
  have loaded : count a (((callable :: arguments).map Operand.value).reverse.flatMap Operand.values) =
      count a (callable :: arguments) := by
    rw [← List.map_reverse, flatMap_values, count, List.countP_reverse]
    rfl
  have waiting : count a (s.waiting callable arguments).values =
      count a (callable :: arguments) + count a s.frame.values := count_waiting a
  simp only [State.invoked, List.flatMap_cons, List.flatMap_nil, count_append, count_nil, loaded]
  rw [← State.waiting, waiting, Frame.values, count_append]
  simp only [State.retainedAll]
  omega

theorem contents_invoked (s : State) (a : Nat) :
    (cellAt (s.invoked callable arguments).heap a).map Cell.content = (cellAt s.heap a).map Cell.content :=
  retainAll_contents _ a

theorem Host.Fits.of_contents {s : State} (fits : h.Fits)
    (same : ∀ a, (cellAt s.heap a).map Cell.content = (cellAt h.state.heap a).map Cell.content) :
    Host.Fits ⟨s, h.storage⟩ := by
  intro a cell found
  obtain ⟨cell', found', content⟩ := found_of_contents (same a).symm found
  rw [← content]
  exact fits a cell' found'

theorem Kept.of_contents {s : State} {held : List PValue} (fits : h.Fits) (sound : s.Sound [])
    (same : ∀ a, (cellAt s.heap a).map Cell.content = (cellAt h.state.heap a).map Cell.content) :
    Kept held h ⟨s, h.storage⟩ :=
  ⟨sound, fits.of_contents same, fun _ _ => agree_of_contents same, fun _ _ => rfl⟩

/-- **What the native holds is kept by an invocation**, and so are the callable and the arguments. -/
theorem Invokes.kept (invokes : Invokes prog Harmless Text h callable arguments outcome h') (sound : h.state.Sound [])
    (fits : h.Fits) (live : ∀ v ∈ callable :: arguments, Live h.state.heap v) :
    Kept (callable :: arguments ++ h.state.frame.held) h h' := by
  have began : Kept (h.state.waiting callable arguments).held h ⟨h.state.invoked callable arguments, h.storage⟩ :=
    .of_contents fits (sound_invoked sound live) (contents_invoked h.state)
  have waiting : ∀ a, count a (h.state.waiting callable arguments).values =
      count a (callable :: arguments) + count a h.state.frame.values := count_waiting
  simp only [Frame.values, count_append] at waiting
  rw [← held_waiting]
  cases invokes with
  | @returned t result rest run callers halted =>
    have kept := began.trans (HostRun.kept run began.sound began.fits)
    refine ⟨kept.sound.moved rfl fun a => ?_, kept.fits, kept.agree, kept.storage⟩
    rw [count_places, count_places, callers, halted]
    simp only [State.ended, List.flatMap_cons, count_append, Frame.values]
    have counted := waiting a
    omega
  | @failed t text run callers error =>
    have kept := began.trans (HostRun.kept run began.sound began.fits)
    refine ⟨kept.sound.moved rfl fun a => ?_, kept.fits, kept.agree, kept.storage⟩
    rw [count_places, count_places, callers]
    simp only [State.ended, List.flatMap_cons, count_append, Frame.values]
    have counted := waiting a
    omega

theorem Invokes.frame (invokes : Invokes prog condition Text h callable arguments outcome h') :
    h'.state.callers = h.state.callers ∧ h'.state.frame = match outcome with
      | .ok result => { h.state.frame with operands := .value result :: h.state.frame.operands }
      | .error _ => h.state.frame := by
  cases invokes with
  | returned => exact ⟨rfl, rfl⟩
  | failed => exact ⟨rfl, rfl⟩

theorem Settles.kept (settles : Settles prog Harmless h h') (sound : h.state.Sound []) (fits : h.Fits) :
    Kept h.state.frame.held h h' := HostRun.kept settles.run sound fits

end Spec
end PhpPico.Sharing
