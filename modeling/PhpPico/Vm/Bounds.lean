import PhpPico.Vm.Stack

/-!
# Bounds of the stack and the frames

No instruction writes outside `state->stack` or `state->frames`. The locals of each frame lie inside the stack:
`bind_arguments` has tested that, and the entry of a module has at most 255. Where the arrays are too small an error
is raised: without one, the instruction does the same with larger arrays.
-/

namespace PhpPico.Stack
open Guarded Limited

variable {cfg : Config} {Value : Type} {l : Limits} {c c' : Nat} {fs : List (Frame cfg)} {f : Frame cfg}

/-! ## Sizes -/

/-- Sizes that fit the arrays. -/
structure Room (l : Limits) (count : Nat) (frames : List (Frame cfg)) : Prop where
  count : count ≤ l.slots
  locals : ∀ f ∈ frames, f.localsEnd ≤ l.slots
  frames : frames.length ≤ l.frames

/-- The sizes of a state. -/
structure At (count : Nat) (frames : List (Frame cfg)) (s : State cfg Value) : Prop where
  count : s.stackCount = count
  frames : s.frames = frames

def Fits (l : Limits) (s : State cfg Value) : Prop := Room l s.stackCount s.frames

/-- Larger arrays. -/
structure Wider (l l' : Limits) : Prop where
  slots : l.slots ≤ l'.slots
  frames : l.frames ≤ l'.frames

def Failed (s : State cfg Value) : Prop := s.error = true

theorem At.fits {s : State cfg Value} (at_s : At c fs s) (room : Room l c fs) : Fits l s := by
  rw [Fits, at_s.count, at_s.frames]
  exact room

theorem Room.smaller (room : Room l c fs) (less : c' ≤ c) : Room l c' fs :=
  ⟨less.trans room.count, room.locals, room.frames⟩

theorem Room.below (room : Room l c (f :: fs)) (small : c' ≤ l.slots) : Room l c' fs :=
  ⟨small, fun g listed => room.locals g (List.mem_cons_of_mem f listed), Nat.le_of_succ_le room.frames⟩

theorem Room.localsEnd (room : Room l c (f :: fs)) : f.base + f.proto.nLocals ≤ l.slots :=
  room.locals f (.head _)

/-- **A routine keeps within its arrays**, and does the same with larger ones unless it raises an error. -/
abbrev Bounded {α : Type} (l : Limits) (P : State cfg Value → Prop) (r : Limits → Run cfg Value α)
    (Q : α → State cfg Value → Prop) : Prop :=
  Limited Wider Failed l P r Q

section Rules
variable {α : Type} {r : Limits → Run cfg Value α} {Q : α → State cfg Value → Prop}

theorem bounded_of_at (h : ∀ c fs, Room l c fs → Bounded l (At c fs) r Q) : Bounded l (Fits l) r Q :=
  fun s fits => h s.stackCount s.frames fits s ⟨rfl, rfl⟩

theorem bounded_get {g : Limits → State cfg Value → Run cfg Value α}
    (h : ∀ s : State cfg Value, s.stackCount = c → s.frames = fs → Bounded l (At c fs) (g · s) Q) :
    Bounded l (At c fs) (fun l => get >>= g l) Q := by
  apply get_bind
  intro s at_s
  refine (h s at_s.count at_s.frames).weaken ?_ fun _ _ h => h
  rintro s' rfl
  exact at_s

theorem bounded_fits {fs' : List (Frame cfg)} (h : Bounded l (At c fs) r fun _ => At c' fs') (room : Room l c' fs') :
    Bounded l (At c fs) r fun _ => Fits l :=
  h.weaken (fun _ hs => hs) fun _ _ at_s => at_s.fits room

theorem bounded_pure (a : α) (room : Room l c fs) :
    Bounded l (At c fs) (fun _ => (pure a : Run cfg Value α)) fun _ => Fits l :=
  Limited.pure fun _ at_s => at_s.fits room

/-- What the routine returns does not matter. -/
theorem bounded_ignore {P R : State cfg Value → Prop} (h : Bounded l P r fun _ => R) :
    Bounded l P (fun l => do let _ ← r l; pure ()) fun _ => R :=
  h.bind fun _ => Limited.pure fun _ hs => hs

end Rules

/-! ## Writes -/

section Writes
variable {value : Value}

theorem setSlot_bounded {i : Nat} (inside : i < l.slots) :
    Bounded l (At c fs) (fun l => (setSlot l i value : Run cfg Value Unit)) fun _ => At c fs :=
  fun _ at_s => ⟨(), _, if_pos inside, ⟨at_s.count, at_s.frames⟩, id,
    .inr fun _ wider => if_pos (inside.trans_le wider.slots)⟩

theorem memmove_bounded {target source count : Nat} (inside : target + count ≤ l.slots) :
    Bounded l (At c fs) (fun l => (memmove l target source count : Run cfg Value Unit)) fun _ => At c fs :=
  fun _ at_s => ⟨(), _, if_pos (.inr inside), ⟨at_s.count, at_s.frames⟩, id,
    .inr fun _ wider => if_pos (.inr (inside.trans wider.slots))⟩

theorem setFrame_bounded (free : fs.length < l.frames) :
    Bounded l (At c fs) (fun l => (setFrame l f : Run cfg Value Unit)) fun _ => At c (f :: fs) := by
  intro s at_s
  rw [← at_s.frames] at free
  exact ⟨(), { s with frames := f :: s.frames }, if_pos free, ⟨at_s.count, congrArg (f :: ·) at_s.frames⟩, id,
    .inr fun _ wider => if_pos (free.trans_le wider.frames)⟩

theorem setCount_bounded (c' : Nat) :
    Bounded l (At c fs) (fun _ => (setCount c' : Run cfg Value Unit)) fun _ => At c' fs :=
  Limited.modify (fun _ at_s => ⟨rfl, at_s.frames⟩) fun _ h => h

theorem runtimeError_bounded : Bounded l (At c fs) (fun _ => (runtimeError : Run cfg Value Unit)) fun _ => At c fs :=
  Limited.modify (fun _ at_s => ⟨at_s.count, at_s.frames⟩) fun _ _ => rfl

/-- A failure is noted. -/
theorem fail_safe : Safe (At c fs) (fail : Run cfg Value Bool) fun ok s => ok = false ∧ At c fs s ∧ Failed s :=
  fun s at_s => ⟨false, { s with error := true }, rfl, rfl, ⟨at_s.count, at_s.frames⟩, rfl⟩

theorem fail_bounded (room : Room l c fs) :
    Bounded l (At c fs) (fun _ => (fail : Run cfg Value Bool)) fun _ => Fits l :=
  runtimeError_bounded.bind fun _ => bounded_pure false room

section Tests
variable {r : Limits → Run cfg Value Bool} (room : Room l c fs)
include room

theorem bounded_test {p : Prop} [Decidable p] (h : ¬ p → Bounded l (At c fs) r fun _ => Fits l) :
    Bounded l (At c fs) (fun l => if p then fail else r l) fun _ => Fits l :=
  Limited.ite (fun _ => fail_bounded room) h

/-- A test of the arrays, which larger ones pass, too. -/
theorem bounded_limit {p : Limits → Prop} [∀ l, Decidable (p l)] (strict : ∀ l', Wider l l' → p l' → p l)
    (h : ¬ p l → Bounded l (At c fs) r fun _ => Fits l) :
    Bounded l (At c fs) (fun l => if p l then fail else r l) fun _ => Fits l :=
  limit strict (fail_safe.weaken (fun _ h => h) fun _ _ h => ⟨h.2.1.fits room, h.2.2⟩) h

end Tests

theorem mayRaise_bounded (raises : Bool) :
    Bounded l (At c fs) (fun _ => (mayRaise raises : Run cfg Value Unit)) fun _ => At c fs :=
  Limited.ite (fun _ => runtimeError_bounded) fun _ => Limited.pure fun _ at_s => at_s

/-- **`push` tests the size of the stack.** -/
theorem push_bounded (room : Room l c fs) :
    Bounded l (At c fs) (fun l => (push l value : Run cfg Value Bool)) fun _ => Fits l := by
  apply bounded_get
  intro s count _
  rw [count]
  apply bounded_limit room fun _ wider full => wider.slots.trans full
  intro free
  refine (setSlot_bounded (by omega)).bind fun _ => (setCount_bounded (c + 1)).bind fun _ => ?_
  exact bounded_pure true ⟨by omega, room.locals, room.frames⟩

theorem pop_bounded (room : Room l c fs) :
    Bounded l (At c fs) (fun _ => (pop : Run cfg Value Unit)) fun _ => Fits l := by
  apply bounded_get
  intro s count _
  rw [count]
  apply Limited.ite
  · intro _
    exact bounded_fits runtimeError_bounded room
  · intro _
    exact bounded_fits (setCount_bounded (c - 1)) (room.smaller (Nat.sub_le c 1))

end Writes

/-! ## Calls -/

section Calls
variable {argumentCount base : Nat}

theorem finishNative_bounded (room : Room l c fs) (inside : base ≤ c) (native : Native Value) :
    Bounded l (At c fs) (fun l => (finishNative l base native : Run cfg Value Bool)) fun _ => Fits l := by
  refine (mayRaise_bounded native.raises).bind fun _ => (setCount_bounded base).bind fun _ => ?_
  cases native.result with
  | none => exact bounded_pure false (room.smaller inside)
  | some value => exact push_bounded (room.smaller inside)

theorem bindCaptures_bounded {start : Nat} {captures : List Value} (inside : start + captures.length ≤ l.slots) :
    Bounded l (At c fs) (fun l => (bindCaptures l start captures : Run cfg Value Unit)) fun _ => At c fs := by
  induction captures generalizing start with
  | nil => exact Limited.pure fun _ at_s => at_s
  | cons value captures ih =>
    rw [List.length_cons] at inside
    exact (setSlot_bounded (by omega)).bind fun _ => ih (by omega)

/-- A frame is entered whose locals lie inside, while there is room for one more. -/
theorem enterFrame_bounded (room : Room l c fs) {callee : Proto cfg} (inside : base + callee.nLocals ≤ l.slots)
    (free : fs.length < l.frames) :
    Bounded l (At c fs) (fun l => (enterFrame l callee base : Run cfg Value Bool)) fun _ => Fits l := by
  refine (setCount_bounded _).bind fun _ => (setFrame_bounded free).bind fun _ => bounded_pure true ⟨inside, ?_, free⟩
  intro f listed
  rcases List.mem_cons.mp listed with rfl | listed
  · exact inside
  · exact room.locals f listed

theorem removeSlot_bounded (room : Room l c fs) {position : Nat} (inside : position + argumentCount ≤ c) :
    Bounded l (At c fs) (fun l => (removeSlot l argumentCount position : Run cfg Value Unit)) fun _ =>
      At (c - 1) fs := by
  have := room.count
  refine (memmove_bounded (by omega)).bind fun _ => Limited.modify (fun s at_s => ⟨?_, at_s.frames⟩) fun _ h => h
  rw [at_s.count]

theorem insertSlot_bounded (inside : base + argumentCount = c) (free : c < l.slots) {object : Value} :
    Bounded l (At c fs) (fun l => (insertSlot l argumentCount base object : Run cfg Value Unit)) fun _ =>
      At (c + 1) fs := by
  refine (memmove_bounded (by omega)).bind fun _ => (setSlot_bounded (by omega)).bind fun _ => ?_
  refine Limited.modify (fun s at_s => ⟨?_, at_s.frames⟩) fun _ h => h
  rw [at_s.count]

variable [Inhabited Value] {rest : Option Value} {callee : Proto cfg}

theorem clearSlots_bounded {start count : Nat} (inside : start + count ≤ l.slots) :
    Bounded l (At c fs) (fun l => (clearSlots l start count : Run cfg Value Unit)) fun _ => At c fs := by
  apply Limited.forM
  intro i listed
  have := List.mem_range.mp listed
  exact setSlot_bounded (by omega)

/-- **`bind_arguments` writes no slot behind the locals of the callee**, which it has tested to lie inside. -/
theorem bindArguments_bounded {targetBase argumentBase localOffset : Nat} :
    Bounded l (At c fs) (fun l => bindArguments l callee targetBase argumentBase argumentCount localOffset rest)
      fun bound s => At c fs s ∧ (bound = true →
        targetBase + callee.nLocals < l.slots ∧ localOffset + callee.nParams.toNat ≤ callee.nLocals) := by
  have refused : Safe (At c fs) (fail : Run cfg Value Bool) fun bound s => (At c fs s ∧ (bound = true →
      targetBase + callee.nLocals < l.slots ∧ localOffset + callee.nParams.toNat ≤ callee.nLocals)) ∧ Failed s := by
    refine fail_safe.weaken (fun _ h => h) fun bound s h => ⟨⟨h.2.1, fun bound_true => ?_⟩, h.2.2⟩
    rw [h.1] at bound_true
    cases bound_true
  unfold bindArguments
  extract_lets +lift nParams fixedCount supplied
  apply limit (fun _ _ h => h) refused
  intro parameters
  apply limit (fun _ wider full => full.imp_left fun full => wider.slots.trans full) refused
  intro limits
  apply limit (fun _ _ h => h) refused
  intro _
  rw [not_or, not_le, not_lt] at limits
  have fixed_le : fixedCount ≤ nParams := by
    simp only [fixedCount]
    split <;> omega
  have moved_le : (if supplied ≠ 0 ∧ targetBase + localOffset ≠ argumentBase then supplied else 0) ≤ supplied := by
    split <;> omega
  have variadic : Bounded l (At c fs) (fun l => (if callee.variadic then
      setSlot l (targetBase + localOffset + fixedCount) (rest.getD default) else pure () : Run cfg Value Unit))
      fun _ => At c fs := by
    apply Limited.ite
    · intro isVariadic
      have some_parameter : nParams ≠ 0 := fun none => parameters ⟨isVariadic, none⟩
      exact setSlot_bounded (by omega)
    · intro _
      exact Limited.pure fun _ at_s => at_s
  refine (memmove_bounded (by omega)).bind fun _ => (clearSlots_bounded (by omega)).bind fun _ => ?_
  refine variadic.bind fun _ => (clearSlots_bounded (by omega)).bind fun _ => ?_
  exact Limited.pure fun _ at_s => ⟨at_s, fun _ => ⟨limits.1, limits.2⟩⟩

theorem enterProto_bounded (room : Room l c fs) {argumentBase localOffset : Nat} :
    Bounded l (At c fs) (fun l => enterProto l callee base argumentBase argumentCount localOffset rest)
      fun _ => Fits l := by
  apply bounded_get
  intro s _ frames
  rw [frames]
  apply bounded_test room
  intro _
  apply bounded_limit room fun _ wider full => wider.frames.trans full
  intro free
  refine bindArguments_bounded.bind fun bound => ?_
  cases bound with
  | false => exact (bounded_pure false room).weaken (fun _ h => h.1) fun _ _ h => h
  | true =>
    refine of_fact fun inside => ?_
    exact enterFrame_bounded room (le_of_lt (inside rfl).1) (not_le.mp free)

theorem callFunction_bounded (room : Room l c fs) {valid : Bool} {function : Function cfg Value} :
    Bounded l (At c fs) (fun l => callFunction l valid argumentCount function) fun _ => Fits l := by
  apply bounded_get
  intro s count _
  rw [count]
  apply bounded_test room
  intro _
  cases function with
  | native native => exact finishNative_bounded room (Nat.sub_le c argumentCount) native
  | undefined => exact fail_bounded room
  | proto callee rest => exact enterProto_bounded room

theorem callNamedValue_bounded (room : Room l c fs) (inside : base ≤ c) {function : Function cfg Value} :
    Bounded l (At c fs) (fun l => callNamedValue l argumentCount base function) fun _ => Fits l := by
  cases function with
  | native native => exact finishNative_bounded room inside native
  | undefined => exact fail_bounded room
  | proto callee rest => exact enterProto_bounded room

variable {method : Method cfg Value}

theorem enterMethod_bounded (room : Room l c fs) {isObject constructor : Bool} :
    Bounded l (At c fs) (fun l => enterMethod l method isObject argumentCount constructor) fun _ => Fits l := by
  apply bounded_get
  intro s count _
  rw [count]
  apply bounded_test room
  intro operands
  rw [not_or, not_lt] at operands
  apply bounded_test room
  intro _
  cases method.body with
  | missing => exact fail_bounded room
  | proto callee rest => exact enterProto_bounded room
  | native native =>
    apply Limited.ite
    · intro _
      refine (mayRaise_bounded native.raises).bind fun _ => (setCount_bounded _).bind fun _ => ?_
      exact bounded_pure _ (room.smaller (by omega))
    · intro _
      exact finishNative_bounded room (by omega) native

theorem enterStaticMethod_bounded (room : Room l c fs) :
    Bounded l (At c fs) (fun l => enterStaticMethod l method argumentCount) fun _ => Fits l := by
  apply bounded_get
  intro s count _
  rw [count]
  apply bounded_test room
  intro _
  cases method.body with
  | missing => exact fail_bounded room
  | proto callee rest => exact enterProto_bounded room
  | native native => exact finishNative_bounded room (Nat.sub_le c argumentCount) native

theorem callValue_bounded (room : Room l c fs) {callable : Callable cfg Value} :
    Bounded l (At c fs) (fun l => callValue l argumentCount callable) fun _ => Fits l := by
  apply bounded_get
  intro s count frames
  rw [count, frames]
  apply bounded_test room
  intro operands
  rw [not_lt] at operands
  have inside := room.count
  cases callable with
  | static method =>
    exact (removeSlot_bounded room (by omega)).bind fun _ => enterStaticMethod_bounded (room.smaller (Nat.sub_le c 1))
  | named function => exact callNamedValue_bounded room (by omega)
  | bound object method => exact (setSlot_bounded (by omega)).bind fun _ => enterMethod_bounded room
  | object method => exact enterMethod_bounded room
  | invalid => exact fail_bounded room
  | closure callee captures rest =>
    apply bounded_test room
    intro _
    apply bounded_limit room fun _ wider full => full.imp_left fun full => wider.frames.trans full
    intro limits
    rw [not_or, not_le, not_lt] at limits
    refine bindArguments_bounded.bind fun bound => ?_
    cases bound with
    | false => exact (bounded_pure false room).weaken (fun _ h => h.1) fun _ _ h => h
    | true =>
      refine of_fact fun inside => ?_
      obtain ⟨end_inside, -⟩ := inside rfl
      have captured : Bounded l (At c fs)
          (fun l => bindCaptures l (c - argumentCount - 1 + callee.nParams.toNat) captures) fun _ => At c fs :=
        bindCaptures_bounded (by omega)
      exact captured.bind fun _ => enterFrame_bounded room (le_of_lt end_inside) limits.1

variable {named : Bool}

theorem invokeNamedMethod_bounded (room : Room l c fs) {found : NamedMethod cfg Value} :
    Bounded l (At c fs) (fun l => invokeNamedMethod l named argumentCount found) fun _ => Fits l := by
  apply bounded_get
  intro s count _
  rw [count]
  apply bounded_test room
  intro _
  cases found with
  | notObject => exact fail_bounded room
  | inaccessible => exact fail_bounded room
  | field value => exact (setCount_bounded _).bind fun _ => push_bounded (room.smaller (by omega))
  | method method => exact enterMethod_bounded room

theorem invokeStaticMethod_bounded (room : Room l c fs) {found : StaticMethod cfg Value} :
    Bounded l (At c fs) (fun l => invokeStaticMethod l named argumentCount found) fun _ => Fits l := by
  apply bounded_get
  intro s count _
  rw [count]
  apply bounded_test room
  intro operands
  rw [not_or, not_lt] at operands
  cases found with
  | missing => exact fail_bounded room
  | notStatic => exact fail_bounded room
  | static method => exact enterStaticMethod_bounded room
  | parent object method =>
    apply bounded_limit room fun _ wider full => wider.slots.trans full
    intro free
    rw [not_le] at free
    refine (insertSlot_bounded (Nat.sub_add_cancel operands.2) free).bind fun _ => ?_
    exact enterMethod_bounded ⟨free, room.locals, room.frames⟩

variable {found : Constructed cfg Value}

theorem runConstructor_bounded (room : Room l c fs) (inside : base + 1 ≤ c) :
    Bounded l (At c fs) (fun l => runConstructor l argumentCount base found) fun _ => Fits l := by
  cases found with
  | missing => exact bounded_pure false room
  | inaccessible object => exact fail_bounded room
  | constructor object method => exact enterMethod_bounded room
  | plain object => exact bounded_test room fun _ => bounded_pure true room
  | throwable object valid =>
    apply bounded_test room
    intro _
    apply Limited.ite
    · intro _
      exact (setCount_bounded _).bind fun _ => bounded_pure true (room.smaller inside)
    · intro _
      exact fail_bounded room

theorem constructObject_bounded (room : Room l c fs) :
    Bounded l (At c fs) (fun l => constructObject l named argumentCount found) fun _ => Fits l := by
  apply bounded_get
  intro s count _
  rw [count]
  apply Limited.ite
  · intro _
    exact bounded_pure false room
  intro operands
  rw [not_or, not_lt] at operands
  cases found.object? with
  | none => exact fail_bounded room
  | some object =>
    apply bounded_limit room fun _ wider full => wider.slots.trans full
    intro free
    rw [not_le] at free
    refine (insertSlot_bounded (Nat.sub_add_cancel operands.2) (by omega)).bind fun _ => ?_
    exact runConstructor_bounded ⟨by omega, room.locals, room.frames⟩ (by omega)

end Calls

/-! ## Loops -/

section Loops

theorem expandEntries_bounded {entries : List (Option Value)} {count : Nat} :
    Bounded l (Fits l) (fun l => (expandEntries l entries count : Run cfg Value (Option Nat))) fun _ => Fits l := by
  have failed : Bounded l (Fits l) (fun _ => (do runtimeError; pure none : Run cfg Value (Option Nat))) fun _ =>
      Fits l :=
    bounded_of_at fun _ _ room => runtimeError_bounded.bind fun _ => bounded_pure none room
  induction entries generalizing count with
  | nil => exact Limited.pure fun _ fits => fits
  | cons entry entries ih =>
    cases entry with
    | none => exact failed
    | some value =>
      apply Limited.ite
      · intro _
        exact failed
      intro _
      refine (bounded_of_at fun _ _ room => push_bounded room).bind fun pushed => ?_
      apply Limited.ite
      · intro _
        exact ih
      · intro _
        exact Limited.pure fun _ fits => fits

theorem expandArgumentArray_bounded {entries : Option (List (Option Value))} :
    Bounded l (Fits l) (fun l => (expandArgumentArray l entries : Run cfg Value (Option Nat))) fun _ => Fits l := by
  refine (bounded_of_at fun _ _ room => pop_bounded room).bind fun _ => ?_
  cases entries with
  | none => exact bounded_of_at fun _ _ room => runtimeError_bounded.bind fun _ => bounded_pure none room
  | some entries => exact expandEntries_bounded

theorem returnFromFunction_bounded (room : Room l c fs) {accepted : Bool} {result : Value} :
    Bounded l (At c fs) (fun l => returnFromFunction l accepted result) fun _ => Fits l := by
  apply bounded_get
  intro s _ frames
  rw [frames]
  cases fs with
  | nil => exact fail_bounded room
  | cons f fs =>
    apply bounded_test room
    intro _
    have left : Room l f.base fs := room.below (by have := room.localsEnd; omega)
    refine Limited.bind (?_ : Bounded l _ _ fun _ => At f.base fs) fun _ => ?_
    · exact Limited.modify (fun _ _ => ⟨rfl, rfl⟩) fun _ h => h
    apply Limited.ite
    · intro _
      exact bounded_pure true left
    · intro _
      exact push_bounded left

theorem runOperands_bounded {script : List (Operand Value)} :
    Bounded l (Fits l) (fun l => (runOperands l script : Run cfg Value Unit)) fun _ => Fits l := by
  induction script with
  | nil => exact Limited.pure fun _ fits => fits
  | cons operand script ih =>
    cases operand with
    | push value => exact (bounded_of_at fun _ _ room => push_bounded room).bind fun _ => ih
    | pop => exact (bounded_of_at fun _ _ room => pop_bounded room).bind fun _ => ih
    | raise => exact (bounded_of_at fun _ _ room => bounded_fits runtimeError_bounded room).bind fun _ => ih

end Loops

/-! ## Exceptions -/

section Exceptions

theorem storeLocal_bounded (inside : f.localsEnd ≤ l.slots) {slot : Nat} (slot_lt : slot < f.proto.nLocals)
    {value : Value} {inFrame raises : Bool} :
    Bounded l (At c fs) (fun l => (storeLocal l f slot value inFrame raises : Run cfg Value Unit)) fun _ =>
      At c fs := by
  rw [Frame.localsEnd] at inside
  apply Limited.ite
  · intro _
    exact setSlot_bounded (by omega)
  · intro _
    exact mayRaise_bounded raises

variable [Inhabited Value] {handler : Handler}

theorem deliver_bounded (room : Room l f.localsEnd (f :: fs)) {entry : PCatch} :
    Bounded l (At f.localsEnd (f :: fs)) (fun l => (deliver l handler f entry : Run cfg Value Bool)) fun _ =>
      Fits l := by
  apply Limited.ite
  · intro slot
    exact (storeLocal_bounded room.localsEnd slot.2).bind fun _ => bounded_pure true room
  · intro _
    exact bounded_test room fun _ => bounded_pure true room

/-- Unwinding only leaves frames, up to one whose locals lie inside. -/
theorem throwException_bounded {frames : List (Frame cfg)} (room : Room l c frames) :
    Bounded l (At c frames) (fun l => (throwException l handler frames : Run cfg Value Bool)) fun _ => Fits l := by
  induction frames generalizing c with
  | nil => exact fail_bounded room
  | cons f frames ih =>
    simp only [throwException]
    cases handler.find frames.length with
    | some entry =>
      have at_handler : Room l f.localsEnd (f :: frames) := ⟨room.localsEnd, room.locals, room.frames⟩
      exact Limited.bind (Limited.modify (fun _ _ => ⟨rfl, rfl⟩) fun _ h => h) fun _ => deliver_bounded at_handler
    | none =>
      have left : Room l f.base frames := room.below (by have := room.localsEnd; omega)
      exact Limited.bind (Limited.modify (fun _ _ => ⟨rfl, rfl⟩) fun _ h => h) fun _ => ih left

theorem convertRuntimeError_safe {handler : Option Handler} :
    Safe (Fits l) (convertRuntimeError l handler : Run cfg Value Unit) fun _ => Fits l := by
  apply Safe.get_bind
  intro s fits
  cases handler with
  | none => exact Safe.pure fun s' same => same ▸ fits
  | some handler =>
    have cleared : Safe (· = s) (modify fun s => { s with error := false } : Run cfg Value PUnit) fun _ =>
        At s.stackCount s.frames := Safe.modify fun s' same => same ▸ ⟨rfl, rfl⟩
    exact cleared.bind fun _ => (bounded_ignore (throwException_bounded fits)).safe

end Exceptions

/-! ## Instructions -/

section Instructions

theorem withArguments_bounded {arguments : Arguments Value} {call : Limits → Nat → Run cfg Value Bool}
    (h : ∀ c fs count, Room l c fs → Bounded l (At c fs) (call · count) fun _ => Fits l) :
    Bounded l (Fits l) (fun l => withArguments l arguments (call l)) fun _ => Fits l := by
  have called (count : Nat) : Bounded l (Fits l) (call · count) fun _ => Fits l :=
    bounded_of_at fun c fs => h c fs count
  cases arguments with
  | count count => exact bounded_ignore (called count.toNat)
  | array entries =>
    refine expandArgumentArray_bounded.bind fun count => ?_
    cases count with
    | none => exact Limited.pure fun _ fits => fits
    | some count => exact bounded_ignore (called count)

theorem onLocal_bounded {slot : UInt8} {touch : Limits → Frame cfg → Run cfg Value Unit}
    (h : ∀ c fs f, Room l c fs → f ∈ fs → slot.toNat < f.proto.nLocals →
      Bounded l (At c fs) (touch · f) fun _ => At c fs) :
    Bounded l (Fits l) (fun l => onLocal slot (touch l)) fun _ => Fits l := by
  refine bounded_of_at fun c fs room => bounded_get fun s _ frames => ?_
  rw [frames]
  cases fs with
  | nil => exact bounded_pure () room
  | cons f fs =>
    apply Limited.ite
    · intro _
      exact bounded_fits runtimeError_bounded room
    · intro slot_lt
      exact bounded_fits (h c (f :: fs) f room (.head _) (not_le.mp slot_lt)) room

theorem withoutName_bounded {isString : Bool} {below argumentCount : Nat} (room : Room l c fs) (operand : 1 ≤ below)
    {call : Limits → Run cfg Value Bool} (h : ∀ c fs, Room l c fs → Bounded l (At c fs) call fun _ => Fits l) :
    Bounded l (At c fs) (fun l => withoutName l isString below argumentCount (call l)) fun _ => Fits l := by
  apply bounded_get
  intro s count _
  rw [count]
  apply bounded_test room
  intro operands
  rw [not_lt] at operands
  apply bounded_test room
  intro _
  exact (removeSlot_bounded room (by omega)).bind fun _ => h _ _ (room.smaller (Nat.sub_le c 1))

variable [Inhabited Value]

/-- **No instruction writes outside**, what it leaves fits, and limits only raise errors. -/
theorem Work.run_bounded (work : Work cfg Value) : Bounded l (Fits l) work.run fun _ => Fits l := by
  have raised : Bounded l (Fits l) (fun _ => (runtimeError : Run cfg Value Unit)) fun _ => Fits l :=
    bounded_of_at fun _ _ room => bounded_fits runtimeError_bounded room
  have raising (raises : Bool) : Bounded l (Fits l) (fun _ => (mayRaise raises : Run cfg Value Unit)) fun _ => Fits l :=
    bounded_of_at fun _ _ room => bounded_fits (mayRaise_bounded raises) room
  have popped : Bounded l (Fits l) (fun _ => (pop : Run cfg Value Unit)) fun _ => Fits l :=
    bounded_of_at fun _ _ room => pop_bounded room
  have stored (slot : UInt8) (value : Value) (inFrame raises : Bool) : Bounded l (Fits l)
      (fun l => (onLocal slot fun f => Stack.storeLocal l f slot.toNat value inFrame raises : Run cfg Value Unit))
      fun _ => Fits l :=
    onLocal_bounded fun _ _ f room listed slot_lt => storeLocal_bounded (room.locals f listed) slot_lt
  cases work with
  | operands script => exact runOperands_bounded
  | swap =>
    refine bounded_of_at fun c fs room => bounded_get fun s count _ => ?_
    have inside := room.count
    rw [count]
    apply Limited.ite
    · intro _
      exact bounded_fits runtimeError_bounded room
    · intro operands
      exact (setSlot_bounded (by omega)).bind fun _ => bounded_fits (setSlot_bounded (by omega)) room
  | storeLocal slot value inFrame raises => exact popped.bind fun _ => stored slot value inFrame raises
  | unsetLocal slot inFrame raises => exact stored slot default inFrame raises
  | bind slot raises =>
    refine onLocal_bounded fun c fs f room listed slot_lt => ?_
    have inside := room.locals f listed
    rw [Frame.localsEnd] at inside
    exact (setSlot_bounded (by omega)).bind fun _ => mayRaise_bounded raises
  | echo count raises =>
    refine bounded_of_at fun c fs room => bounded_get fun s stackCount _ => ?_
    rw [stackCount]
    apply Limited.ite
    · intro _
      exact bounded_fits runtimeError_bounded room
    · intro _
      exact (mayRaise_bounded raises).bind fun _ =>
        bounded_fits (setCount_bounded _) (room.smaller (Nat.sub_le c count.toNat))
  | call valid arguments function =>
    exact (raising _).bind fun _ => withArguments_bounded fun _ _ _ room => callFunction_bounded room
  | callValue arguments callable =>
    simp only [Work.run]
    refine withArguments_bounded fun _ _ _ room => ?_
    exact callValue_bounded room
  | construct named arguments found =>
    exact (raising _).bind fun _ => withArguments_bounded fun _ _ _ room => constructObject_bounded room
  | constructDynamic isString arguments found =>
    simp only [Work.run]
    refine withArguments_bounded fun _ _ _ room => ?_
    exact withoutName_bounded room (le_refl 1) fun _ _ room => constructObject_bounded room
  | method named arguments found =>
    exact (raising _).bind fun _ => withArguments_bounded fun _ _ _ room => invokeNamedMethod_bounded room
  | methodDynamic isString arguments found =>
    simp only [Work.run]
    refine withArguments_bounded fun _ _ _ room => ?_
    exact withoutName_bounded room (Nat.le_succ 1) fun _ _ room => invokeNamedMethod_bounded room
  | staticMethod named arguments found =>
    exact (raising _).bind fun _ => withArguments_bounded fun _ _ _ room => invokeStaticMethod_bounded room
  | clone copy magic isObject =>
    refine popped.bind fun _ => ?_
    cases copy with
    | none => exact raised
    | some copy =>
      refine (bounded_of_at fun _ _ room => push_bounded room).bind fun _ => ?_
      cases magic with
      | none => exact Limited.pure fun _ fits => fits
      | some magic => exact bounded_ignore (bounded_of_at fun _ _ room => enterMethod_bounded room)
  | ret isPopped accepted result =>
    have first : Bounded l (Fits l) (fun _ => (if isPopped then pop else pure () : Run cfg Value Unit)) fun _ =>
        Fits l :=
      Limited.ite (fun _ => popped) fun _ => Limited.pure fun _ fits => fits
    exact first.bind fun _ => bounded_ignore (bounded_of_at fun _ _ room => returnFromFunction_bounded room)
  | throw handler =>
    refine popped.bind fun _ => ?_
    cases handler with
    | none => exact raised
    | some handler =>
      refine bounded_of_at fun c fs room => bounded_get fun s _ frames => ?_
      rw [frames]
      exact bounded_ignore (throwException_bounded room)
  | halt =>
    refine bounded_of_at fun c fs room => bounded_get fun s _ frames => ?_
    apply Limited.ite
    · intro _
      exact bounded_fits runtimeError_bounded room
    · intro _
      have empty : Room l 0 ([] : List (Frame cfg)) :=
        ⟨Nat.zero_le _, fun f listed => absurd listed List.not_mem_nil, Nat.zero_le _⟩
      exact bounded_fits (Limited.modify (fun _ _ => ⟨rfl, rfl⟩) fun _ h => h) empty

theorem round_safe (work : Work cfg Value) (handler : Option Handler) :
    Safe (Fits l) (round l work handler) fun _ => Fits l := by
  refine work.run_bounded.safe.bind fun _ => Safe.get_bind fun s fits => ?_
  refine Safe.ite (fun _ => ?_) fun _ => Safe.pure fun s' same => same ▸ fits
  exact convertRuntimeError_safe.weaken (fun s' same => same ▸ fits) fun _ _ h => h

/-- The locals of an entry fit: their number is a byte. -/
theorem execute_safe (slots : 255 ≤ l.slots) (frames : 1 ≤ l.frames) (entry : Proto cfg) :
    Safe (fun _ => True) (execute l entry : Run cfg Value Unit) fun _ => Fits l := by
  have inside : entry.nLocals ≤ l.slots := entry.locals_le.trans slots
  have room : Room l entry.nLocals [(⟨entry, 0⟩ : Frame cfg)] := by
    refine ⟨inside, ?_, frames⟩
    intro f listed
    rw [List.mem_singleton.mp listed, Frame.localsEnd, zero_add]
    exact inside
  refine Safe.bind (Safe.modify fun s _ => rfl : Safe _ _ fun _ s => s.frames = []) fun _ => ?_
  have counted : Safe (fun s => s.frames = []) (setCount entry.nLocals : Run cfg Value Unit) fun _ =>
      At entry.nLocals [] := Safe.modify fun s none => ⟨rfl, none⟩
  have framed : Bounded l (At entry.nLocals []) (fun l => (setFrame l ⟨entry, 0⟩ : Run cfg Value Unit)) fun _ =>
      At entry.nLocals [⟨entry, 0⟩] := setFrame_bounded frames
  exact counted.bind fun _ => framed.safe.bind fun _ => (bounded_fits (clearSlots_bounded (by omega)) room).safe

end Instructions

/-! ## Runs -/

section Runs
variable [Inhabited Value]

theorem Reaches.fits {started s : State cfg Value} (fits : Fits l started) (reached : Reaches l started s) :
    Fits l s := by
  induction reached with
  | start => exact fits
  | round reached running work handler ran ih =>
    obtain ⟨_, s', ran', fits'⟩ := round_safe work handler _ ih
    rw [ran] at ran'
    cases ran'
    exact fits'

/-- **The stack and the frames stay within their arrays in every run**: the next instruction writes no slot and no
frame outside, what it leaves fits, and it has raised an error unless it does the same with larger arrays. -/
theorem stack_bounds (entry : Proto cfg) (before : State cfg Value) :
    ∃ started, (execute Limits.vm entry).run before = some ((), started) ∧
      ∀ s, Reaches Limits.vm started s → s.stackCount ≤ 384 ∧ s.frames.length ≤ 48 ∧
        ∀ (work : Work cfg Value) (handler : Option Handler),
          (∃ s', (work.run Limits.vm).run s = some ((), s') ∧ s'.stackCount ≤ 384 ∧ s'.frames.length ≤ 48 ∧
            (s'.error = true ∨ ∀ l', Wider Limits.vm l' → (work.run l').run s = some ((), s'))) ∧
          ∃ s', (round Limits.vm work handler).run s = some ((), s') := by
  have slots : 255 ≤ Limits.vm.slots := by decide
  have frames : 1 ≤ Limits.vm.frames := by decide
  obtain ⟨_, started, ran, fits⟩ := execute_safe slots frames entry before trivial
  refine ⟨started, ran, fun s reached => ?_⟩
  have fits_s := reached.fits fits
  refine ⟨fits_s.count, fits_s.frames, fun work handler => ⟨?_, ?_⟩⟩
  · obtain ⟨_, s', ran', fits', -, same⟩ := work.run_bounded s fits_s
    exact ⟨s', ran', fits'.count, fits'.frames, same⟩
  · obtain ⟨_, s', ran', -⟩ := round_safe work handler s fits_s
    exact ⟨s', ran'⟩

end Runs

end PhpPico.Stack
