import PhpPico.Vm.Access

/-!
# The two forms of an access agree

Reading, writing and calling do the same with the name from either place, but for the order in which the operands are
released and the place of the name while arguments are unpacked.
-/

namespace PhpPico.Access
open List
open Members (memberVisible)

variable {ρ : Type}

/-! ## What an access does -/

namespace Runtime

variable (rt : Runtime ρ)

/-- An object is asked for a property. -/
def readMember (f : Frame) (o header : Nat) (bytes : List UInt8) (s : State ρ) : State ρ :=
  match s.world.findProperty (s.world.objects o).classEntry bytes with
  | none =>
    match rt.invokeMagic s o (ascii "__get") [.string header bytes] with
    | .returned value s => rt.push s value
    | .noMethod => s.runtimeError f.line (ascii "undefined property " ++ printed bytes)
    | .failed s => s
  | some p =>
    if memberVisible s.world.classes p.visibility p.owner f.calledScope = false then
      s.runtimeError f.line (ascii "cannot access non-public property " ++ printed bytes)
    else if p.isTyped ∧ p.initialized = false ∧ s.world.propertyWritten o p.slot = false then
      s.runtimeError f.line (ascii "Typed property " ++ s.world.className p.owner ++ ascii "::$" ++
        printed p.name ++ ascii " must not be accessed before initialization")
    else
      let value := s.world.slot o p.slot
      rt.push (s.retain value) value

/-- An object is given a property. The value that is still to be released, and the state. -/
def writeMember (f : Frame) (o header : Nat) (bytes : List UInt8) (value : Value) (s : State ρ) : Value × State ρ :=
  match s.world.findProperty (s.world.objects o).classEntry bytes with
  | none =>
    match rt.invokeMagic s o (ascii "__set") [.string header bytes, value] with
    | .returned ignored s => (.null, rt.push (rt.releases s ignored) value)
    | .noMethod => (value, s.runtimeError f.line (ascii "undefined property " ++ printed bytes))
    | .failed s => (value, s)
  | some p =>
    if memberVisible s.world.classes p.visibility p.owner f.calledScope = false then
      (value, s.runtimeError f.line (ascii "cannot access non-public property " ++ printed bytes))
    else if p.isReadonly ∧ (f.calledScope ≠ some p.owner ∨ s.world.propertyWritten o p.slot) then
      (value, s.runtimeError f.line (ascii "cannot modify readonly property " ++ printed bytes))
    else
      match rt.refuses s.world (s.world.objects o).classEntry p value with
      | some text => (value, s.raiseDeclaredTypeError f.line text)
      | none =>
        let s := rt.releases (s.retain value) (s.world.slot o p.slot)
        (.null, rt.push { s with world := s.world.store o p.slot value } value)

theorem writeMember_released (f : Frame) (o header : Nat) (bytes : List UInt8) (value : Value) (s : State ρ) :
    (rt.writeMember f o header bytes value s).1 = value ∨ (rt.writeMember f o header bytes value s).1 = .null := by
  unfold writeMember
  split
  · split
    · exact .inr rfl
    · exact .inl rfl
    · exact .inl rfl
  · split
    · exact .inl rfl
    · split
      · exact .inl rfl
      · split
        · exact .inl rfl
        · exact .inr rfl

/-- **The forms agree**: they come to the same state but for the references of the operands, which they
release in another order, the name among them; or both have failed, and the name is left where it was. -/
inductive Agree (name : Value) (operands : List Value) : State ρ → State ρ → Prop
  | released {t : State ρ} {static dynamic : List Value} (perm : dynamic.Perm (name :: static))
      (popped : ∀ v ∈ static, v = .null ∨ v ∈ operands) :
      Agree name operands (rt.releaseAll t static) (rt.releaseAll t dynamic)
  | left {s : State ρ} (failed : s.fields.error ≠ []) (above below : List Value) :
      Agree name operands { s with stack := above ++ below } { s with stack := above ++ name :: below }

variable {rt : Runtime ρ} {name : Value} {operands : List Value} {static dynamic : State ρ}

/-! ## The instructions -/

section Forms

variable (rt) (f : Frame) (header : Nat) (bytes : List UInt8) (s : State ρ) (below : List Value)

theorem propGet_agree (receiver : Value) :
    rt.Agree (.string header bytes) [receiver]
      (rt.propGet f (.string header bytes) { s with stack := receiver :: below })
      (rt.propGetDynamic f { s with stack := .string header bytes :: receiver :: below }) := by
  have perm : [Value.string header bytes, receiver].Perm [.string header bytes, receiver] := .refl _
  have popped : ∀ v ∈ [receiver], v = .null ∨ v ∈ [receiver] := fun v mem => .inr mem
  cases receiver with
  | object o =>
    exact .released (t := rt.readMember f o header bytes { s with stack := below }) perm popped
  | _ =>
    exact .released
      (t := State.runtimeError { s with stack := below } f.line (ascii "property access on non-object")) perm popped

theorem propSet_agree (receiver value : Value) :
    rt.Agree (.string header bytes) [receiver, value]
      (rt.propSet f (.string header bytes) { s with stack := value :: receiver :: below })
      (rt.propSetDynamic f { s with stack := value :: .string header bytes :: receiver :: below }) := by
  have perm : ∀ left : Value, [left, .string header bytes, receiver].Perm [.string header bytes, receiver, left] := by
    intro left
    apply (Perm.swap _ _ _).trans
    exact .cons _ (Perm.swap _ _ _)
  cases receiver with
  | object o =>
    have left := rt.writeMember_released f o header bytes value { s with stack := below }
    apply Agree.released (t := (rt.writeMember f o header bytes value { s with stack := below }).2)
      (perm (rt.writeMember f o header bytes value { s with stack := below }).1)
    intro v mem
    rcases mem_cons.mp mem with rfl | mem
    · exact .inr (.head _)
    · rw [mem_singleton.mp mem]
      rcases left with same | none_left
      · rw [same]
        exact .inr (.tail _ (.head _))
      · exact .inl none_left
  | _ =>
    refine .released
      (t := State.runtimeError { s with stack := below } f.line (ascii "property assignment on non-object"))
      (perm value) fun v mem => .inr mem

theorem mcallDynamic_eq (receiver : Value) (arguments : List Value) :
    rt.mcallDynamic f arguments.length { s with stack := arguments ++ Value.string header bytes :: receiver :: below } =
      rt.releases (rt.mcall f (.string header bytes) arguments.length { s with stack := arguments ++ receiver :: below })
        (.string header bytes) := by
  have enough : ¬ (arguments ++ Value.string header bytes :: receiver :: below).length < arguments.length + 2 := by
    simp only [length_append, length_cons]
    omega
  have found : (arguments ++ Value.string header bytes :: receiver :: below)[arguments.length]? =
      some (.string header bytes) := by simp
  have shifted : (arguments ++ Value.string header bytes :: receiver :: below).eraseIdx arguments.length =
      arguments ++ receiver :: below := by simp [eraseIdx_append_of_length_le]
  simp only [mcallDynamic, if_neg enough, found, shifted]
  rfl

theorem mcall_agree (receiver : Value) (arguments : List Value) :
    rt.Agree (.string header bytes) []
      (rt.mcall f (.string header bytes) arguments.length { s with stack := arguments ++ receiver :: below })
      (rt.mcallDynamic f arguments.length
        { s with stack := arguments ++ Value.string header bytes :: receiver :: below }) := by
  rw [mcallDynamic_eq]
  have agree : ∀ t : State ρ, rt.Agree (.string header bytes) [] (rt.releaseAll t [])
      (rt.releaseAll t [.string header bytes]) := by
    intro t
    exact .released (.refl _) fun v mem => absurd mem not_mem_nil
  exact agree _

end Forms

/-! ## Arguments from an array -/

theorem runtimeError_failed (fields : Pending.Fields) (line : Nat) {text : List UInt8} (some_text : clip 256 text ≠ []) :
    (fields.runtimeError line text).error ≠ [] := by
  unfold Pending.Fields.runtimeError
  split
  · next some_error => exact some_error
  · exact some_text

/-- The entries of an array are pushed in the same way whatever is below, if it leaves room. -/
theorem expandEntries_tail (line : Nat) (arrayValue : Value) (entries : List (Value × Value)) (args : List Value)
    (fields : Pending.Fields) (world : World ρ) :
    ∃ (count : Option Nat) (args' : List Value) (fields' : Pending.Fields) (world' : World ρ),
      (count = none → fields'.error ≠ []) ∧ (∀ n, count = some n → args'.length = n) ∧
      ∀ tail : List Value, entries.length + args.length + tail.length ≤ stackSlots →
        rt.expandEntries line arrayValue entries args.length ⟨args ++ tail, fields, world⟩ =
          (count, ⟨args' ++ tail, fields', world'⟩) := by
  induction entries generalizing args fields world with
  | nil =>
    refine ⟨some args.length, args, fields, rt.release arrayValue world, ?_, fun n pushed => Option.some.inj pushed,
      fun tail _ => rfl⟩
    intro none_pushed
    cases none_pushed
  | cons entry rest ih =>
    obtain ⟨key, value⟩ := entry
    let world' := rt.release key ((world.retain key).retain value)
    let released := rt.release arrayValue (rt.release value world')
    cases key with
    | int n =>
      by_cases many : 31 ≤ args.length
      · refine ⟨none, args, fields.runtimeError line (ascii "a call may have at most 31 arguments"), released, ?_, ?_, ?_⟩
        · intro _
          exact runtimeError_failed fields line (by decide)
        · intro n pushed
          cases pushed
        · intro tail _
          exact if_pos many
      · obtain ⟨count, args', fields', world'', failed, counted, pushes⟩ := ih (value :: args) fields world'
        refine ⟨count, args', fields', world'', failed, counted, fun tail room => ?_⟩
        have room' : rest.length + (value :: args).length + tail.length ≤ stackSlots := by
          simp only [length_cons] at room ⊢
          omega
        have not_full : ¬ stackSlots ≤ (args ++ tail).length := by
          simp only [length_cons, length_append] at room' ⊢
          omega
        have pushed : rt.push ⟨args ++ tail, fields, world'⟩ value = ⟨value :: (args ++ tail), fields, world'⟩ :=
          if_neg not_full
        rw [← pushes tail room', length_cons, cons_append, ← pushed]
        exact (if_neg many).trans (if_neg not_full)
    | _ =>
      refine ⟨none, args,
        fields.runtimeError line (ascii "named arguments are not supported in argument unpacking"), released, ?_, ?_, ?_⟩
      · intro _
        exact runtimeError_failed fields line (by decide)
      · intro n pushed
        cases pushed
      · intro tail _
        rfl

/-- The entries a value is unpacked to. -/
def unpacked (w : World ρ) : Value → List (Value × Value)
  | .array a => w.arrays a
  | _ => []

theorem expandArgumentArray_tail (line : Nat) (spread : Value) (s : State ρ) :
    ∃ (count : Option Nat) (args : List Value) (fields : Pending.Fields) (world : World ρ),
      (count = none → fields.error ≠ []) ∧ (∀ n, count = some n → args.length = n) ∧
      ∀ tail : List Value, (unpacked s.world spread).length + tail.length ≤ stackSlots →
        rt.expandArgumentArray line { s with stack := spread :: tail } = (count, ⟨args ++ tail, fields, world⟩) := by
  cases spread with
  | array a =>
    obtain ⟨count, args, fields, world, failed, counted, pushes⟩ :=
      rt.expandEntries_tail line (.array a) (s.world.arrays a) [] s.fields s.world
    refine ⟨count, args, fields, world, failed, counted, fun tail room => ?_⟩
    exact pushes tail room
  | _ =>
    refine ⟨none, [], s.fields.runtimeError line (ascii "only arrays can be unpacked as arguments"),
      rt.release _ s.world, ?_, ?_, fun tail _ => rfl⟩
    · intro _
      exact runtimeError_failed s.fields line (by decide)
    · intro n pushed
      cases pushed

theorem mcallArray_agree (f : Frame) (header : Nat) (bytes : List UInt8) (s : State ρ) (below : List Value)
    (receiver spread : Value) (room : (unpacked s.world spread).length + below.length + 2 ≤ stackSlots) :
    rt.Agree (.string header bytes) []
      (rt.mcallArray f (.string header bytes) { s with stack := spread :: receiver :: below })
      (rt.mcallDynamicArray f { s with stack := spread :: .string header bytes :: receiver :: below }) := by
  obtain ⟨count, args, fields, world, failed, counted, pushes⟩ := rt.expandArgumentArray_tail f.line spread s
  have static := pushes (receiver :: below) (by simp only [length_cons]; omega)
  have dynamic := pushes (.string header bytes :: receiver :: below) (by simp only [length_cons]; omega)
  cases count with
  | none =>
    simp only [mcallArray, mcallDynamicArray, State.constantString, static, dynamic]
    exact .left (s := ⟨[], fields, world⟩) (failed rfl) args (receiver :: below)
  | some n =>
    simp only [mcallArray, mcallDynamicArray, State.constantString, static, dynamic, ← counted n rfl]
    exact rt.mcall_agree f header bytes ⟨[], fields, world⟩ below receiver args

/-- **Constant and computed names give the same access**, for each of reading, writing and calling, up to
the order in which operands are released; a call with unpacked arguments needs the place of the name. -/
theorem member_forms_agree (f : Frame) (header : Nat) (bytes : List UInt8) (s : State ρ)
    (receiver value spread : Value) (arguments below : List Value) :
    let name := Value.string header bytes
    rt.Agree name [receiver] (rt.propGet f name { s with stack := receiver :: below })
        (rt.propGetDynamic f { s with stack := name :: receiver :: below }) ∧
      rt.Agree name [receiver, value] (rt.propSet f name { s with stack := value :: receiver :: below })
        (rt.propSetDynamic f { s with stack := value :: name :: receiver :: below }) ∧
      rt.Agree name [] (rt.mcall f name arguments.length { s with stack := arguments ++ receiver :: below })
        (rt.mcallDynamic f arguments.length { s with stack := arguments ++ name :: receiver :: below }) ∧
      (stackSlots < (unpacked s.world spread).length + below.length + 2 ∨
        rt.Agree name [] (rt.mcallArray f name { s with stack := spread :: receiver :: below })
          (rt.mcallDynamicArray f { s with stack := spread :: name :: receiver :: below })) := by
  refine ⟨rt.propGet_agree f header bytes s below receiver, rt.propSet_agree f header bytes s below receiver value,
    rt.mcall_agree f header bytes s below receiver arguments, ?_⟩
  by_cases room : (unpacked s.world spread).length + below.length + 2 ≤ stackSlots
  · exact .inr (rt.mcallArray_agree f header bytes s below receiver spread room)
  · exact .inl (Nat.lt_of_not_le room)

end Runtime

/-! ## Where the forms differ -/

/-- References are counted, and the objects that lose the last one are listed, each as it is destroyed. A
method without parameters is entered: the arguments go, and the receiver becomes its `$this`. -/
def countingRuntime : Runtime (List Nat) where
  release := fun value w =>
    match value.header with
    | none => w
    | some header =>
      let w' := { w with refcnt := Function.update w.refcnt header (w.refcnt header - 1) }
      if w.refcnt header = 1 then
        match value with
        | .object o => { w' with rest := w.rest ++ [o] }
        | _ => w'
      else w'
  invoke := fun _ _ _ s => (s, none)
  refuses := fun _ _ _ _ => none
  enterMethod := fun _ _ argumentCount s => { s with stack := s.stack.drop argumentCount }

/-- One class `C` with a method, and every other value with one reference. -/
def oneClass : State (List Nat) where
  stack := []
  fields := .cleared
  world :=
    { classes := [⟨ascii "C", false, false, false, false, none, [], [], [],
        [⟨ascii "m", .isPublic, false, false, false, none, 0⟩]⟩]
      properties := fun _ => []
      objects := fun _ => ⟨0, [], []⟩
      arrays := fun _ => [(.int 0, .null), (.int 1, .null)]
      refcnt := fun _ => 1
      rest := [] }

/-- `(new C)->p = new C` destroys the receiver first, `(new C)->$n = new C` the value; and of two slots left for two
unpacked arguments only a constant name leaves both. -/
theorem forms_differ :
    (countingRuntime.propSet ⟨none, 1⟩ (.string 2 (ascii "p"))
        { oneClass with stack := [.object 1, .object 0] }).world.rest = [0, 1] ∧
      (countingRuntime.propSetDynamic ⟨none, 1⟩
        { oneClass with stack := [.object 1, .string 2 (ascii "p"), .object 0] }).world.rest = [1, 0] ∧
      (countingRuntime.mcallArray ⟨none, 1⟩ (.string 2 (ascii "m"))
        { oneClass with stack := .array 3 :: .object 0 :: replicate 381 .null }).fields.error = [] ∧
      (countingRuntime.mcallDynamicArray ⟨none, 1⟩
        { oneClass with stack := .array 3 :: .string 2 (ascii "m") :: .object 0 :: replicate 381 .null }).fields.error =
          ascii "value stack overflow" := by
  refine ⟨by decide +kernel, by decide +kernel, by decide +kernel, by decide +kernel⟩

end PhpPico.Access
