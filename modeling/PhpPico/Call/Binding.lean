import PhpPico.Call.Prologue

/-!
# Arguments reach their parameters

A callable binds its arguments right when every call of it leaves the caller as it was, for want of arguments or room,
or starts the body with each parameter holding what it should. **This is so for exactly the callables whose parameters
have different names**, `$this` among them: parameters of one name get one slot, while the calls count on a slot for
each.
-/

namespace PhpPico.Call
open List

open Compiler (Ast)
open Machine

/-! ## Declarations and calls -/

/-- A callable as the source declares it, with the variables of its body. -/
inductive Declaration where
  | function (parameters : List Parameter) (names : List (List UInt8))
  | method (context : MethodContext) (parameters : List Parameter) (names : List (List UInt8))
  | closure (parameters : List Parameter) (isArrow isStatic : Bool) (uses referenced names : List (List UInt8))

namespace Declaration

/-- The parameters. -/
def parameters : Declaration → List Parameter
  | function parameters _ | method _ parameters _ | closure parameters .. => parameters

/-- The slots in front of the parameters. -/
def start : Declaration → List (List UInt8)
  | method context .. => if context.isStatic then [] else [thisName]
  | _ => []

/-- The promoted parameters, whose properties a constructor sets. -/
def promoted : Declaration → List Parameter
  | method context parameters _ => if context.isConstructor then parameters.filter fun p => p.flags != 0 else []
  | _ => []

/-- What the compiler makes of it, and the variables it captures. -/
def compile : Declaration → Except (List UInt8) (Callable × List (List UInt8))
  | function parameters names => (compileFunction parameters names).map fun c => (c, [])
  | method context parameters names => (compileMethod context parameters names).map fun c => (c, [])
  | closure parameters isArrow isStatic uses referenced names =>
    compileClosure parameters isArrow isStatic uses referenced names

/-- Whether the parameters have names of their own. -/
def Distinct (d : Declaration) : Prop := (d.start ++ d.parameters.map Parameter.variable).Nodup

instance (d : Declaration) : Decidable d.Distinct := inferInstanceAs (Decidable (Nodup _))

/-- The arguments that every call has to supply. -/
def required (d : Declaration) : Nat := (d.parameters.filter Parameter.isRequired).length

end Declaration

/-- A call: the state it is made in, with the arguments on top of the stack, what a closure has captured, and whether
a function is called by a value or a method as a constructor. -/
structure Invocation where
  machine : Machine
  memory : Memory
  program : Program
  name : List UInt8
  argumentCount : Nat
  captured : List Slot
  byValue : Bool
  isConstructor : Bool

namespace Invocation

/-- What stands below the arguments: a callable or an object. -/
def heads (call : Invocation) : Declaration → Nat
  | .function .. => if call.byValue then 1 else 0
  | .method context .. => if context.isStatic then 0 else 1
  | .closure .. => 1

/-- A call of the declaration as the VM makes it. -/
structure Fits (call : Invocation) (d : Declaration) (captures : List (List UInt8)) : Prop where
  count : call.argumentCount ≤ 255
  stack : call.argumentCount + call.heads d ≤ call.machine.stackCount
  captured : call.captured.length = captures.length

/-- The arguments. -/
def arguments (call : Invocation) : List Slot :=
  call.machine.cells (call.machine.stackCount - call.argumentCount) call.argumentCount

/-- The base of the new frame. -/
def base (call : Invocation) (d : Declaration) : Nat := call.machine.stackCount - call.argumentCount - call.heads d

/-- The object that a constructor returns. -/
def returned (call : Invocation) (d : Declaration) : Option Slot :=
  match d with
  | .method context .. =>
    if context.isStatic then none else if call.isConstructor then some (call.machine.stack (call.base d)) else none
  | _ => none

/-- The call. -/
def enter (call : Invocation) (d : Declaration) (c : Callable) : Outcome :=
  match d with
  | .function .. =>
    if call.byValue then callNamedValue call.memory call.machine call.name c call.argumentCount
    else callFunction call.memory call.machine call.name c call.argumentCount
  | .method context .. =>
    if context.isStatic then enterStaticMethod call.memory call.machine call.name c call.argumentCount
    else enterMethod call.memory call.machine call.name c call.argumentCount call.isConstructor
  | .closure .. => callValue call.memory call.machine c call.captured call.argumentCount

end Invocation

/-- The slot of a variable. -/
def Callable.slot (c : Callable) (name : List UInt8) : Nat := (findLocal c.locals name).getD 0

/-! ## What a call should do -/

/-- Unwinding to the frame of the caller that catches an error: what stands above its slots is released. -/
def Machine.catchIn (m : Machine) (caller : Frame) : Machine :=
  let top := caller.base + caller.callee.locals.length
  { m.releaseAll (m.cells top (m.stackCount - top)) with stackCount := top }

/-- The caller is as it was, stack, counts and frames, and when it catches the error its slots are kept and every
reference above them is given up once. -/
structure Restored (before m : Machine) : Prop where
  unchanged : Unchanged before m
  kept : ∀ caller, (m.catchIn caller).stack = before.stack
  released : ∀ caller a, (m.catchIn caller).refcnt a = before.refcnt a -
    references (before.cells (caller.base + caller.callee.locals.length)
      (before.stackCount - (caller.base + caller.callee.locals.length))) a

/-- Why a call may be refused. -/
inductive Refused (call : Invocation) (d : Declaration) (c : Callable) : Prop where
  | tooFew (few : call.argumentCount < d.required)
  | frames (full : frameMax ≤ call.machine.frames.length)
  | scarce (scarce : Scarce call.memory c (call.base d) call.argumentCount)

/-- The locals that the default of parameter `i` sees: the parameters before it as they are in the end, those from it
on that are no lists undefined. -/
def seen (d : Declaration) (c : Callable) (m : Machine) (base i : Nat) (slot : Nat) : Slot :=
  if (d.parameters.drop i).any fun p => !p.variadic && c.slot p.variable == slot then .undefined
  else m.locals c base slot

/-- The body starts as it should. -/
structure Starts (d : Declaration) (c : Callable) (captures : List (List UInt8)) (call : Invocation) (m : Machine)
    (promoted : List (List UInt8 × Slot)) : Prop where
  supplied : ∀ (i : Nat) (p : Parameter) (v : Slot), d.parameters[i]? = some p → p.variadic = false →
    call.arguments[i]? = some v →
    m.stack (call.base d + c.slot p.variable) = v
  missing : ∀ (i : Nat) (p : Parameter), d.parameters[i]? = some p → p.variadic = false → call.argumentCount ≤ i →
    ∃ value, p.defaultValue = some value ∧
      call.program.evaluate (seen d c m (call.base d) i) value = some (m.stack (call.base d + c.slot p.variable))
  rest : ∀ p ∈ d.parameters, p.variadic = true →
    ∃ address, call.memory.rest = some address ∧ m.stack (call.base d + c.slot p.variable) = .heap address ∧
      m.arrays address = call.arguments.drop (d.parameters.length - 1)
  object : ∀ name ∈ d.start, m.stack (call.base d + c.slot name) = call.machine.stack (call.base d)
  captured : ∀ (j : Nat) (name : List UInt8) (v : Slot), captures[j]? = some name → call.captured[j]? = some v →
    m.stack (call.base d + c.slot name) = v
  others : ∀ name ∈ c.locals, name ∉ d.start → name ∉ d.parameters.map Parameter.variable → name ∉ captures →
    m.stack (call.base d + c.slot name) = .undefined
  below : ∀ i < call.base d, m.stack i = call.machine.stack i
  stackCount : m.stackCount = call.base d + c.locals.length
  frames : m.frames = ⟨c, call.base d, call.argumentCount, call.returned d⟩ :: call.machine.frames
  promotions : promoted = d.promoted.map fun (p : Parameter) => (p.variable, m.stack (call.base d + c.slot p.variable))
  owned : ∀ a, m.refcnt a + references (call.machine.cells (call.base d) (call.machine.stackCount - call.base d)) a =
      call.machine.refcnt a + references (m.cells (call.base d) c.locals.length) a +
        references (if c.variadic then call.arguments.drop (d.parameters.length - 1) else []) a +
        references (call.returned d).toList a + references (promoted.map Prod.snd) a

/-- A call does what it should: it is refused with the caller as it was, or enters with enough arguments and starts
the body, unless a default or a declared type raises. -/
def Right (d : Declaration) (c : Callable) (captures : List (List UInt8)) (call : Invocation) : Prop :=
  match call.enter d c with
  | .raised _ m => Restored call.machine m ∧ Refused call d c
  | .entered m =>
    d.required ≤ call.argumentCount ∧
      match runPrologue call.program c (call.base d) call.argumentCount m with
      | .started m promoted => Starts d c captures call m promoted
      | .defaultRaised => ∃ i p value slots, d.parameters[i]? = some p ∧ call.argumentCount ≤ i ∧
          p.defaultValue = some value ∧ call.program.evaluate slots value = none
      | .typeRaised => ∃ type v, call.program.accepts type v = false

/-! ## Compiled declarations -/

section Compiled
variable {d : Declaration} {c : Callable} {captures : List (List UInt8)}

/-- Whether a declaration sets promoted properties. -/
def Declaration.promotes : Declaration → Bool
  | .method context .. => context.isConstructor
  | _ => false

theorem Declaration.compile_callable (accepted : d.compile = .ok (c, captures)) : ∃ texts promotion names,
      compileCallable texts promotion d.start d.promotes d.parameters captures names = .ok c ∧
      Captured d.parameters captures ∧ (d.start = [] ∨ captures = []) := by
  cases d with
  | function parameters names =>
    have made : (compileFunction parameters names).map (fun c => (c, [])) = .ok (c, captures) := accepted
    cases compiled : compileFunction parameters names with
    | error failure =>
      rw [compiled] at made
      cases made
    | ok callable =>
      rw [compiled] at made
      cases made
      exact ⟨_, _, names, compiled, .nil _, .inl rfl⟩
  | method context parameters names =>
    have made : (compileMethod context parameters names).map (fun c => (c, [])) = .ok (c, captures) := accepted
    cases compiled : compileMethod context parameters names with
    | error failure =>
      rw [compiled] at made
      cases made
    | ok callable =>
      rw [compiled] at made
      cases made
      exact ⟨_, _, names, compiled, .nil _, .inr rfl⟩
  | closure parameters isArrow isStatic uses referenced names =>
    replace accepted : compileClosure parameters isArrow isStatic uses referenced names = .ok (c, captures) := accepted
    unfold compileClosure at accepted
    split at accepted
    · cases accepted
    rename_i found capturing
    split at accepted
    · cases accepted
    rename_i callable compiled
    cases accepted
    refine ⟨_, _, names, compiled, ?_, .inl rfl⟩
    cases isArrow with
    | false => exact closureCaptures_captured capturing
    | true => exact arrowCaptures_captured capturing

theorem Declaration.start_length (d : Declaration) : d.start.length ≤ 1 := by
  cases d with
  | method context => cases static : context.isStatic <;> simp [start, static]
  | function | closure => simp [start]

theorem Declaration.counted (accepted : d.compile = .ok (c, captures)) : Counted c d.start d.parameters := by
  obtain ⟨texts, promotion, names, compiled, -, -⟩ := d.compile_callable accepted
  have few := d.start_length
  exact compileCallable_counted compiled (by omega)

theorem Declaration.layout (accepted : d.compile = .ok (c, captures)) (distinct : d.Distinct) :
    Layout c d.start d.promotes d.parameters captures := by
  obtain ⟨texts, promotion, names, compiled, captured, plain⟩ := d.compile_callable accepted
  refine compileCallable_layout compiled (nodup_append.mpr ⟨distinct, captured.nodup, ?_⟩)
  intro name mem other captive
  rintro rfl
  cases plain with
  | inr none => simp [none] at captive
  | inl none =>
    rw [none, nil_append] at mem
    obtain ⟨p, parameter, rfl⟩ := List.mem_map.mp mem
    exact captured.apart p parameter captive

end Compiled

/-! ## The entry of a call -/

namespace Invocation

/-- Where the slots and the arguments of a call are. -/
def entry (call : Invocation) (d : Declaration) : Entry where
  targetBase := call.base d
  argumentBase := call.machine.stackCount - call.argumentCount
  argumentCount := call.argumentCount
  localOffset := d.start.length
  captured := match d with
    | .closure .. => call.captured
    | _ => []
  callable := match d with
    | .function .. => if call.byValue then some (call.machine.stack (call.base d)) else none
    | .method .. => none
    | .closure .. => some (call.machine.stack (call.base d))
  returnOverride := call.returned d

variable {call : Invocation} {d : Declaration} {c : Callable} {captures : List (List UInt8)}

theorem Fits.argumentBase (fits : call.Fits d captures) :
    call.base d + call.heads d = call.machine.stackCount - call.argumentCount := by
  have stack := fits.stack
  unfold base
  omega

/-- **Every kind of call is `enter` on its entry**, full where there is no frame or where a closure has more captured
values than slots. -/
theorem enter_eq (fits : call.Fits d captures) : ∃ full tooFew overflow,
    call.enter d c = Call.enter call.memory call.machine c (call.entry d) full tooFew overflow ∧
    (full = true → frameMax ≤ call.machine.frames.length ∨
      c.locals.length < c.nParams + (call.entry d).captured.length) := by
  have noFrame : call.machine.noFrame = true → frameMax ≤ call.machine.frames.length := by simp [noFrame]
  have stack := fits.stack
  cases d with
  | function parameters names =>
    cases value : call.byValue with
    | true =>
      have code : call.enter (.function parameters names) c =
          callNamedValue call.memory call.machine call.name c call.argumentCount := by simp [enter, value]
      have same : call.entry (.function parameters names) =
          ⟨call.machine.stackCount - call.argumentCount - 1, call.machine.stackCount - call.argumentCount - 1 + 1,
            call.argumentCount, 0, [], some (call.machine.stack (call.machine.stackCount - call.argumentCount - 1)),
            none⟩ := by
        simp only [heads, value, if_true] at stack
        have base : call.machine.stackCount - call.argumentCount =
            call.machine.stackCount - call.argumentCount - 1 + 1 := by omega
        simpa [entry, Invocation.base, heads, value, Declaration.start, returned] using base
      rw [code, same]
      exact ⟨_, _, _, rfl, fun full => .inl (noFrame full)⟩
    | false =>
      have code : call.enter (.function parameters names) c =
          callFunction call.memory call.machine call.name c call.argumentCount := by simp [enter, value]
      have same : call.entry (.function parameters names) =
          ⟨call.machine.stackCount - call.argumentCount, call.machine.stackCount - call.argumentCount,
            call.argumentCount, 0, [], none, none⟩ := by
        simp [entry, Invocation.base, heads, value, Declaration.start, returned]
      rw [code, same]
      exact ⟨_, _, _, rfl, fun full => .inl (noFrame full)⟩
  | method context parameters names =>
    cases static : context.isStatic with
    | true =>
      have code : call.enter (.method context parameters names) c =
          enterStaticMethod call.memory call.machine call.name c call.argumentCount := by simp [enter, static]
      have same : call.entry (.method context parameters names) =
          ⟨call.machine.stackCount - call.argumentCount, call.machine.stackCount - call.argumentCount,
            call.argumentCount, 0, [], none, none⟩ := by
        simp [entry, Invocation.base, heads, static, Declaration.start, returned]
      rw [code, same]
      exact ⟨_, _, _, rfl, fun full => .inl (noFrame full)⟩
    | false =>
      have code : call.enter (.method context parameters names) c =
          enterMethod call.memory call.machine call.name c call.argumentCount call.isConstructor := by
        simp [enter, static]
      have same : call.entry (.method context parameters names) =
          ⟨call.machine.stackCount - call.argumentCount - 1, call.machine.stackCount - call.argumentCount - 1 + 1,
            call.argumentCount, 1, [], none, if call.isConstructor then
              some (call.machine.stack (call.machine.stackCount - call.argumentCount - 1)) else none⟩ := by
        simp only [heads, static, Bool.false_eq_true, if_false] at stack
        have base : call.machine.stackCount - call.argumentCount =
            call.machine.stackCount - call.argumentCount - 1 + 1 := by omega
        simpa [entry, Invocation.base, heads, static, Declaration.start, returned] using base
      rw [code, same]
      exact ⟨_, _, _, rfl, fun full => .inl (noFrame full)⟩
  | closure parameters isArrow isStatic uses referenced names =>
    have same : call.entry (.closure parameters isArrow isStatic uses referenced names) =
        ⟨call.machine.stackCount - call.argumentCount - 1, call.machine.stackCount - call.argumentCount - 1 + 1,
          call.argumentCount, 0, call.captured,
          some (call.machine.stack (call.machine.stackCount - call.argumentCount - 1)), none⟩ := by
      simp only [heads] at stack
      have base : call.machine.stackCount - call.argumentCount =
          call.machine.stackCount - call.argumentCount - 1 + 1 := by omega
      simpa [entry, Invocation.base, heads, Declaration.start, returned] using base
    rw [same]
    refine ⟨_, _, _, rfl, fun full => ?_⟩
    rw [Bool.or_eq_true, decide_eq_true_eq] at full
    exact full.imp_left noFrame

/-- What stands below the arguments is the object of a method, or given up. -/
theorem entry_heads : call.machine.cells (call.base d) (call.heads d) =
      call.machine.cells (call.base d) d.start.length ++ (call.entry d).callable.toList := by
  cases d with
  | function parameters names => cases value : call.byValue <;> simp [heads, entry, value, Declaration.start, cells]
  | method context parameters names =>
    cases static : context.isStatic <;> simp [heads, entry, static, Declaration.start, cells]
  | closure parameters isArrow isStatic uses referenced names => simp [heads, entry, Declaration.start, cells]

theorem entry_fits_of_room (fits : call.Fits d captures) (counted : Counted c d.start d.parameters)
    (room : d.start.length + d.parameters.length + captures.length ≤ c.locals.length) :
    (call.entry d).Fits call.machine c := by
  have base := fits.argumentBase
  have stack := fits.stack
  have few := fits.captured
  have captured : (call.entry d).captured.length ≤ captures.length := by
    cases d <;> simp [entry, few]
  have distance : call.machine.stackCount - call.argumentCount - call.base d = call.heads d := by omega
  refine ⟨?_, ?_, ?_, ?_, ?_, ?_⟩
  · have heads : call.machine.cells (call.base d) (call.heads d) = _ := entry_heads
    simpa [entry, distance] using heads
  · simp only [entry]
    omega
  · have kept : d.start.length ≤ call.heads d := by
      cases d with
      | method context => cases static : context.isStatic <;> simp [Declaration.start, heads, static]
      | function | closure => simp [Declaration.start]
    simp only [entry]
    omega
  · rw [counted.nParams]
    have offset : (call.entry d).localOffset = d.start.length := rfl
    omega
  · cases d <;> simp [entry, Declaration.start]
  · intro variadic none
    rw [counted.nParams, length_eq_zero_iff] at none
    rw [counted.variadic, none] at variadic
    cases variadic

theorem entry_fits (fits : call.Fits d captures) (counted : Counted c d.start d.parameters)
    (layout : Layout c d.start d.promotes d.parameters captures) : (call.entry d).Fits call.machine c := by
  have length := layout.kept.length_le
  simp only [length_append, length_map] at length
  exact entry_fits_of_room fits counted length

end Invocation

/-! ## Slots of a layout -/

section Slots
variable {d : Declaration} {c : Callable} {captures : List (List UInt8)}

theorem Layout.slot_eq (layout : Layout c d.start d.promotes d.parameters captures) {name : List UInt8} {i : Nat}
    (get : (d.start ++ d.parameters.map Parameter.variable ++ captures)[i]? = some name) : c.slot name = i := by
  obtain ⟨more, all⟩ := layout.kept
  have bound := (List.getElem?_eq_some_iff.mp get).1
  have here : c.locals[i]? = some name := by rw [← all, getElem?_append_left bound, get]
  rw [Callable.slot, findLocal_getElem layout.nodup here, Option.getD_some]

theorem Layout.slot_parameter (layout : Layout c d.start d.promotes d.parameters captures) {p : Parameter} {i : Nat}
    (get : d.parameters[i]? = some p) : c.slot p.variable = d.start.length + i := by
  have bound := (List.getElem?_eq_some_iff.mp get).1
  refine layout.slot_eq ?_
  rw [append_assoc, getElem?_append_right (by omega), getElem?_append_left (by simp; omega)]
  simp [get]

theorem Layout.slot_start (layout : Layout c d.start d.promotes d.parameters captures) {name : List UInt8}
    (mem : name ∈ d.start) : d.start.length = 1 ∧ c.slot name = 0 := by
  have few := d.start_length
  obtain ⟨i, get⟩ := mem_iff_getElem?.mp mem
  have bound := (List.getElem?_eq_some_iff.mp get).1
  have first : i = 0 := by omega
  subst first
  refine ⟨by omega, layout.slot_eq ?_⟩
  rw [append_assoc, getElem?_append_left bound, get]

theorem Layout.slot_captured (layout : Layout c d.start d.promotes d.parameters captures) {name : List UInt8} {j : Nat}
    (get : captures[j]? = some name) : c.slot name = d.start.length + d.parameters.length + j := by
  refine layout.slot_eq ?_
  rw [getElem?_append_right (by simp)]
  simpa [Nat.add_sub_cancel_left] using get

theorem Layout.slot_other (layout : Layout c d.start d.promotes d.parameters captures) {name : List UInt8}
    (mem : name ∈ c.locals) (start : name ∉ d.start) (parameter : name ∉ d.parameters.map Parameter.variable)
    (captured : name ∉ captures) :
    d.start.length + d.parameters.length + captures.length ≤ c.slot name ∧ c.slot name < c.locals.length := by
  obtain ⟨i, get⟩ := mem_iff_getElem?.mp mem
  have bound := (List.getElem?_eq_some_iff.mp get).1
  have slot : c.slot name = i := by rw [Callable.slot, findLocal_getElem layout.nodup get, Option.getD_some]
  refine ⟨?_, by omega⟩
  by_contra before
  obtain ⟨more, all⟩ := layout.kept
  rw [← all, getElem?_append_left (by simp only [length_append, length_map]; omega)] at get
  have among := mem_of_getElem? get
  simp only [mem_append] at among
  obtain (early | late) | later := among
  · exact start early
  · exact parameter late
  · exact captured later

end Slots

/-! ## Calls of callables with different names -/

section Starting
variable {d : Declaration} {c : Callable} {captures : List (List UInt8)} {call : Invocation} {entered : Machine}

theorem Counted.fixed (counted : Counted c d.start d.parameters) {p : Parameter} {i : Nat}
    (get : d.parameters[i]? = some p) : p.variadic = false ↔ i < c.fixedCount := by
  have bound := (List.getElem?_eq_some_iff.mp get).1
  cases variadic : p.variadic with
  | true =>
    have last := (counted.last i p get variadic).1
    have one : c.variadic = true := by
      rw [counted.variadic, getLast?_eq_getElem?, ← last, Nat.add_sub_cancel, get]
      exact variadic
    have fixed := counted.nParams ▸ fixedCount_of_variadic one (by rw [counted.nParams]; omega)
    simp
    omega
  | false =>
    cases list : c.variadic with
    | false =>
      rw [fixedCount_of_not list, counted.nParams]
      simpa using bound
    | true =>
      have fixed := counted.nParams ▸ fixedCount_of_variadic list (by rw [counted.nParams]; omega)
      have notLast : i + 1 ≠ d.parameters.length := by
        intro last
        rw [counted.variadic, getLast?_eq_getElem?, ← last, Nat.add_sub_cancel, get] at list
        exact Bool.false_ne_true (variadic.symm.trans list)
      simp
      omega

theorem Invocation.argument {i : Nat} {v : Slot} (get : call.arguments[i]? = some v) :
    i < call.argumentCount ∧ v = call.machine.stack (call.machine.stackCount - call.argumentCount + i) := by
  rw [arguments, cells_getElem?] at get
  split at get
  · cases get
    exact ⟨‹_›, rfl⟩
  · cases get

theorem extraArguments_eq (list : c.variadic = true) (counted : Counted c d.start d.parameters)
    (nonempty : d.parameters.length ≠ 0) :
    extraArguments call.machine c (call.machine.stackCount - call.argumentCount) call.argumentCount =
      call.arguments.drop (d.parameters.length - 1) := by
  have fixed := fixedCount_of_variadic list (by rw [counted.nParams]; exact nonempty)
  rw [counted.nParams] at fixed
  have same : c.fixedCount = d.parameters.length - 1 := by omega
  rw [extraArguments, Invocation.arguments, same]
  refine ext_getElem? fun i => ?_
  rw [getElem?_drop, cells_getElem?, cells_getElem?]
  by_cases bound : i < call.argumentCount - (d.parameters.length - 1)
  · rw [if_pos bound, if_pos (by omega), add_assoc]
  · rw [if_neg bound, if_neg (by omega)]

theorem Layout.default_slot (layout : Layout c d.start d.promotes d.parameters captures) {code : DefaultCode}
    (mem : code ∈ c.defaults) : ∃ p, d.parameters[code.index]? = some p ∧ p.defaultValue = some code.value ∧
      code.slot = d.start.length + code.index := by
  rw [layout.defaults] at mem
  obtain ⟨i, p, get, value, index, slot⟩ := mem_defaultCodes mem
  rw [zero_add] at index slot
  exact ⟨p, index ▸ get, value, by omega⟩

/-- What a default sees is what the body will, apart from the parameters from it on. -/
theorem atDefault_seen (counted : Counted c d.start d.parameters)
    (layout : Layout c d.start d.promotes d.parameters captures)
    (bound : Entered call.memory call.machine c (call.entry d) entered) {m after : Machine}
    (run : runDefaults call.program c (call.base d) call.argumentCount c.defaults entered = some after)
    (same : m.stack = after.stack) {i : Nat} (absent : call.argumentCount ≤ i) :
    atDefault c (call.base d) (d.start.length + i) (d.start.length + d.parameters.length) entered after =
      seen d c m (call.base d) i := by
  have length := layout.kept.length_le
  simp only [length_append, length_map] at length
  funext slot
  unfold atDefault seen
  by_cases inside : d.start.length + i ≤ slot ∧ slot < d.start.length + d.parameters.length
  · have at_k : slot - d.start.length < d.parameters.length := by omega
    have get : d.parameters[slot - d.start.length]? = some d.parameters[slot - d.start.length] :=
      getElem?_eq_getElem at_k
    have own := layout.slot_parameter get
    generalize d.parameters[slot - d.start.length] = q at get own
    rw [if_pos inside]
    cases variadic : q.variadic with
    | false =>
      have fixed := (counted.fixed get).mp variadic
      have missing := bound.missing (slot - d.start.length) (by change call.argumentCount ≤ _; omega) fixed
      have position : call.base d + slot = (call.entry d).targetBase + (call.entry d).localOffset +
          (slot - d.start.length) := by
        change call.base d + slot = call.base d + d.start.length + (slot - d.start.length)
        omega
      have among : q ∈ d.parameters.drop i := by
        refine mem_of_getElem? (i := slot - d.start.length - i) ?_
        rw [getElem?_drop, ← get]
        congr 1
        omega
      rw [if_pos (List.any_eq_true.mpr ⟨q, among, by simp [variadic, own]; omega⟩), Machine.locals,
        if_pos (by omega), position, missing]
    | true =>
      have noOther : ((d.parameters.drop i).any fun p => !p.variadic && c.slot p.variable == slot) = false := by
        rw [List.any_eq_false]
        intro p mem
        obtain ⟨k, got⟩ := mem_iff_getElem?.mp mem
        rw [getElem?_drop] at got
        have slot_p := layout.slot_parameter got
        intro both
        simp only [Bool.and_eq_true, Bool.not_eq_true', beq_iff_eq] at both
        have here : i + k = slot - d.start.length := by omega
        rw [here, get] at got
        cases got
        exact Bool.false_ne_true (both.1.symm.trans variadic)
      rw [noOther, if_neg Bool.false_ne_true, Machine.locals, Machine.locals, same,
        runDefaults_elsewhere run fun code mem _ => ?_]
      obtain ⟨p, got, value, slot_p⟩ := layout.default_slot mem
      intro clash
      have here : code.index = slot - d.start.length := by omega
      rw [here, get] at got
      cases got
      rw [(counted.last _ q get variadic).2] at value
      cases value
  · have none : ((d.parameters.drop i).any fun p => !p.variadic && c.slot p.variable == slot) = false := by
      rw [List.any_eq_false]
      intro p mem
      obtain ⟨k, got⟩ := mem_iff_getElem?.mp mem
      rw [getElem?_drop] at got
      have slot_p := layout.slot_parameter got
      have last := (List.getElem?_eq_some_iff.mp got).1
      intro both
      simp only [Bool.and_eq_true, beq_iff_eq] at both
      omega
    rw [if_neg inside, none, if_neg Bool.false_ne_true, Machine.locals, Machine.locals, same]

/-- **Behind the code in front of the body, everything is in its place.** -/
theorem starts_of_entered (counted : Counted c d.start d.parameters)
    (layout : Layout c d.start d.promotes d.parameters captures) (fits : call.Fits d captures)
    (closure : captures = [] ∨ (call.entry d).captured = call.captured ∧ d.start = [])
    (enough : c.nRequired ≤ call.argumentCount)
    (bound : Entered call.memory call.machine c (call.entry d) entered) {m : Machine}
    {promoted : List (List UInt8 × Slot)}
    (run : runPrologue call.program c (call.base d) call.argumentCount entered = .started m promoted) :
    Starts d c captures call m promoted := by
  have length := layout.kept.length_le
  simp only [length_append, length_map] at length
  unfold runPrologue at run
  split at run
  · cases run
  rename_i after defaults
  split at run
  swap
  · cases run
  cases run
  obtain ⟨stack, stackCount, frames, arrays⟩ := runPromotions_kept (call.base d) c.promotions after
  have values := runPromotions_values (call.base d) c.promotions after
  obtain ⟨keptCount, keptFrames, keptArrays⟩ := runDefaults_kept defaults
  have elsewhere (slot : Nat)
      (other : ∀ code ∈ c.defaults, call.argumentCount ≤ code.index → slot ≠ code.slot) :
      after.stack (call.base d + slot) = entered.stack (call.base d + slot) :=
    runDefaults_elsewhere defaults fun code mem absent same => other code mem absent (by omega)
  refine ⟨?_, ?_, ?_, ?_, ?_, ?_, ?_, ?_, ?_, ?_, ?_⟩
  · intro i p v get fixed given
    obtain ⟨few, rfl⟩ := call.argument given
    rw [stack, layout.slot_parameter get, elsewhere, ← add_assoc]
    · exact bound.supplied i few ((counted.fixed get).mp fixed)
    · intro code mem absent
      obtain ⟨q, -, -, slot⟩ := layout.default_slot mem
      omega
  · intro i p get fixed absent
    obtain ⟨value, default⟩ := Option.isSome_iff_exists.mp (counted.optional i p get fixed (by omega))
    refine ⟨value, default, ?_⟩
    have evaluated := runDefaults_values (layout.defaults ▸ defaults) get default (by omega)
    simp only [zero_add] at evaluated
    rw [stack, layout.slot_parameter get, ← evaluated, atDefault_seen counted layout bound defaults stack absent]
  · intro p mem variadic
    obtain ⟨i, get⟩ := mem_iff_getElem?.mp mem
    obtain ⟨last, noDefault⟩ := counted.last i p get variadic
    have list : c.variadic = true := by
      rw [counted.variadic, getLast?_eq_getElem?, ← last, Nat.add_sub_cancel, get]
      exact variadic
    have fixed := fixedCount_of_variadic list (by rw [counted.nParams]; omega)
    rw [counted.nParams] at fixed
    have here : c.fixedCount = i := by omega
    obtain ⟨address, memory, slot, elements⟩ := bound.rest list
    refine ⟨address, memory, ?_, ?_⟩
    · rw [stack, layout.slot_parameter get, elsewhere, ← add_assoc, ← here]
      · exact slot
      · intro code mem absent
        obtain ⟨q, got, value, slot⟩ := layout.default_slot mem
        intro clash
        have same : code.index = i := by omega
        rw [same, get] at got
        cases got
        rw [noDefault] at value
        cases value
    · rw [arrays, keptArrays, elements]
      exact extraArguments_eq list counted (by omega)
  · intro name mem
    obtain ⟨one, slot⟩ := layout.slot_start mem
    rw [stack, slot, elsewhere]
    · exact bound.below _ (by change call.base d + 0 < call.base d + d.start.length; omega)
    · intro code mem absent
      obtain ⟨q, -, -, slot⟩ := layout.default_slot mem
      omega
  · intro j name v get given
    obtain rfl | ⟨same, noStart⟩ := closure
    · simp at get
    · rw [stack, layout.slot_captured get, elsewhere]
      · have place := bound.captured j v (same ▸ given)
        rw [counted.nParams] at place
        rw [noStart, length_nil, zero_add, ← add_assoc]
        exact place
      · intro code mem absent
        obtain ⟨q, got, -, slot⟩ := layout.default_slot mem
        have := (List.getElem?_eq_some_iff.mp got).1
        omega
  · intro name mem start parameter captured
    obtain ⟨behind, inside⟩ := layout.slot_other mem start parameter captured
    have few : (call.entry d).captured.length ≤ captures.length := by
      have given := fits.captured
      cases d <;> simp [Invocation.entry, given]
    rw [stack, elsewhere]
    · refine bound.others _ ?_ (Nat.add_lt_add_left inside _)
      change call.base d + d.start.length + c.nParams + _ ≤ _
      rw [counted.nParams]
      omega
    · intro code mem absent
      obtain ⟨q, got, -, slot⟩ := layout.default_slot mem
      have := (List.getElem?_eq_some_iff.mp got).1
      omega
  · intro i below
    rw [stack, runDefaults_elsewhere defaults fun code mem _ => by omega]
    exact bound.below i (below.trans_le (Nat.le_add_right _ _))
  · rw [stackCount, keptCount]
    exact bound.stackCount
  · rw [frames, keptFrames]
    exact bound.frames
  · rw [values, stack, layout.promotions]
    cases d with
    | method context =>
      cases constructor' : context.isConstructor with
      | false => simp [Declaration.promotes, Declaration.promoted, constructor']
      | true =>
        simp [Declaration.promotes, Declaration.promoted, constructor', Declaration.parameters, Callable.slot,
          Function.comp_def]
    | function | closure => rfl
  · intro a
    have kept := runDefaults_references defaults (fun code mem => by
      obtain ⟨q, got, -, slot⟩ := layout.default_slot mem
      have := (List.getElem?_eq_some_iff.mp got).1
      omega) a
    have owned := bound.owned a
    have extra : references (if c.variadic then
        extraArguments call.machine c (call.entry d).argumentBase (call.entry d).argumentCount else []) a =
        references (if c.variadic then call.arguments.drop (d.parameters.length - 1) else []) a := by
      cases list : c.variadic with
      | false => rfl
      | true =>
        have nonempty : d.parameters.length ≠ 0 := by
          intro none
          rw [counted.variadic, length_eq_zero_iff.mp none] at list
          cases list
        rw [if_pos rfl, if_pos rfl]
        exact congrArg (references · a) (extraArguments_eq list counted nonempty)
    rw [extra] at owned
    have cells : (runPromotions (call.base d) c.promotions after).1.cells (call.base d) c.locals.length =
        after.cells (call.base d) c.locals.length := cells_congr fun i _ => by rw [stack]
    rw [runPromotions_refcnt, cells]
    change entered.refcnt a + references
      (call.machine.cells (call.base d) (call.machine.stackCount - call.base d)) a = call.machine.refcnt a +
      references (entered.cells (call.base d) _) a + _ + references (call.returned d).toList a at owned
    linarith

end Starting

/-! ## Every call -/

/-- A refused call leaves the caller as it was, also when it catches the error. -/
theorem Unchanged.restored {before m : Machine} (same : Unchanged before m) : Restored before m := by
  refine ⟨same, fun caller => ?_, fun caller a => ?_⟩
  · simp [catchIn, same.stack]
  · simp only [catchIn, releaseAll_refcnt, same.refcnt, same.stackCount]
    rw [cells_congr (n := before) fun i _ => by rw [same.stack]]

theorem Declaration.closure_captures {d : Declaration} {c : Callable} {captures : List (List UInt8)}
    (accepted : d.compile = .ok (c, captures)) (call : Invocation) :
    captures = [] ∨ (call.entry d).captured = call.captured ∧ d.start = [] := by
  cases d with
  | closure => exact .inr ⟨rfl, rfl⟩
  | function parameters names =>
    have made : (compileFunction parameters names).map (fun c => (c, [])) = .ok (c, captures) := accepted
    cases compiled : compileFunction parameters names <;> rw [compiled] at made <;> cases made
    exact .inl rfl
  | method context parameters names =>
    have made : (compileMethod context parameters names).map (fun c => (c, [])) = .ok (c, captures) := accepted
    cases compiled : compileMethod context parameters names <;> rw [compiled] at made <;> cases made
    exact .inl rfl

/-- Calls of a callable whose parameters have different names are right. -/
theorem right_of_distinct {d : Declaration} {c : Callable} {captures : List (List UInt8)}
    (accepted : d.compile = .ok (c, captures)) (distinct : d.Distinct) (call : Invocation)
    (fits : call.Fits d captures) : Right d c captures call := by
  have counted := d.counted accepted
  have required : c.nRequired = d.required := counted.nRequired
  have layout := d.layout accepted distinct
  have entry := Invocation.entry_fits fits counted layout
  obtain ⟨full, tooFew, overflow, code, scarce⟩ := Invocation.enter_eq (c := c) fits
  have spec := enter_spec call.memory entry full tooFew overflow
  unfold Right
  rw [code]
  generalize enter call.memory call.machine c (call.entry d) full tooFew overflow = outcome at spec
  cases outcome with
  | raised text m =>
    obtain ⟨same, reason⟩ := spec
    refine ⟨same.restored, ?_⟩
    obtain few | noRoom | none := reason
    · exact .tooFew (required ▸ few)
    · obtain noFrame | crowded := scarce noRoom
      · exact .frames noFrame
      · have room := entry.room
        omega
    · exact .scarce none
  | entered m =>
    obtain ⟨enough, bound⟩ := spec
    refine ⟨required ▸ enough, ?_⟩
    cases run : runPrologue call.program c (call.base d) call.argumentCount m with
    | started after promoted =>
      exact starts_of_entered counted layout fits (d.closure_captures accepted call) enough bound run
    | defaultRaised =>
      unfold runPrologue at run
      split at run
      · rename_i raised
        obtain ⟨code, mem, absent, slots, none⟩ := runDefaults_raised raised
        obtain ⟨p, get, value, -⟩ := layout.default_slot mem
        exact ⟨code.index, p, code.value, slots, get, absent, value, none⟩
      · split at run <;> cases run
    | typeRaised =>
      unfold runPrologue at run
      split at run
      · cases run
      · split at run
        · cases run
        · rename_i refused
          exact checkArgumentTypes_refused refused

/-! ## Parameters of one name -/

/-- A call with room for everything, and an argument of its own for each parameter. -/
def Declaration.trial (d : Declaration) (captures : List (List UInt8)) : Invocation where
  machine :=
    { stack := fun i => if i = 0 then .heap 7 else .scalar i
      stackCount := d.parameters.length + match d with
        | .function .. => 0
        | .method context .. => if context.isStatic then 0 else 1
        | .closure .. => 1
      frames := []
      refcnt := fun _ => 1
      arrays := fun _ => [] }
  memory := ⟨some 0, fun _ => true⟩
  program := ⟨fun _ _ => some .undefined, fun _ _ => true⟩
  name := ascii "f"
  argumentCount := d.parameters.length
  captured := replicate captures.length .undefined
  byValue := false
  isConstructor := false

section Trial
variable (d : Declaration) {c : Callable} (captures : List (List UInt8))

theorem trial_stackCount :
    (d.trial captures).machine.stackCount = d.parameters.length + (d.trial captures).heads d := by
  cases d <;> rfl

theorem trial_heads : d.start.length ≤ (d.trial captures).heads d := by
  cases d with
  | method context => cases static : context.isStatic <;> simp [Declaration.start, Invocation.heads, static]
  | function | closure => simp [Declaration.start]

theorem trial_base : (d.trial captures).base d = 0 := by
  rw [Invocation.base, trial_stackCount]
  change d.parameters.length + _ - d.parameters.length - _ = 0
  omega

variable {d captures}

theorem trial_fits (counted : Counted c d.start d.parameters) : (d.trial captures).Fits d captures := by
  have bound := counted.bound
  refine ⟨by change d.parameters.length ≤ 255; omega, ?_, by simp [Declaration.trial]⟩
  rw [trial_stackCount]
  exact le_rfl

theorem trial_argument {i : Nat} (bound : i < d.parameters.length) : (d.trial captures).arguments[i]? =
      some ((d.trial captures).machine.stack ((d.trial captures).heads d + i)) := by
  rw [Invocation.arguments, cells_getElem?, trial_stackCount]
  change (if i < d.parameters.length then
    some ((d.trial captures).machine.stack (d.parameters.length + _ - d.parameters.length + i)) else none) = _
  rw [if_pos bound, Nat.add_sub_cancel_left]

theorem trial_holds (counted : Counted c d.start d.parameters) {m : Machine} {promoted : List (List UInt8 × Slot)}
    (right : Starts d c captures (d.trial captures) m promoted) {k : Nat} {name : List UInt8}
    (get : (d.start ++ d.parameters.map Parameter.variable)[k]? = some name) : m.stack (c.slot name) =
        (d.trial captures).machine.stack ((d.trial captures).heads d + k - d.start.length) ∨
      k + 1 = d.start.length + d.parameters.length ∧ m.stack (c.slot name) = .heap 0 := by
  have base := trial_base d captures
  by_cases start : k < d.start.length
  · rw [getElem?_append_left start] at get
    have object := right.object name (mem_of_getElem? get)
    rw [base, zero_add] at object
    have upper : (d.trial captures).heads d ≤ 1 := by
      cases d with
      | method context => cases static : context.isStatic <;> simp [Invocation.heads, static]
      | function | closure => simp [Invocation.heads, Declaration.trial]
    have first : (d.trial captures).heads d + k - d.start.length = 0 := by omega
    rw [first]
    exact .inl object
  · rw [getElem?_append_right (by omega), getElem?_map] at get
    obtain ⟨p, got, rfl⟩ := Option.map_eq_some_iff.mp get
    have bound := (List.getElem?_eq_some_iff.mp got).1
    cases variadic : p.variadic with
    | true =>
      obtain ⟨address, memory, slot, -⟩ := right.rest p (mem_of_getElem? got) variadic
      have last := (counted.last _ p got variadic).1
      cases memory
      rw [base, zero_add] at slot
      exact .inr ⟨by omega, slot⟩
    | false =>
      have slot := right.supplied _ p _ got variadic (trial_argument bound)
      rw [base, zero_add] at slot
      have place : (d.trial captures).heads d + k - d.start.length =
          (d.trial captures).heads d + (k - d.start.length) := by omega
      rw [place]
      exact .inl slot

/-- A callable with two slots of one name goes wrong. -/
theorem trial_wrong (accepted : d.compile = .ok (c, captures)) (clash : ¬ d.Distinct) :
    ¬ Right d c captures (d.trial captures) := by
  have counted := d.counted accepted
  have base := trial_base d captures
  intro right
  unfold Right at right
  split at right
  · obtain few | full | slots | ⟨list, none⟩ | ⟨list, i, bound, none⟩ := right.2
    · have most : d.required ≤ d.parameters.length := length_filter_le _ _
      have : d.parameters.length < d.required := few
      omega
    · have : frameMax ≤ 0 := full
      simp [frameMax] at this
    · have locals := counted.locals
      rw [base] at slots
      simp only [stackSlots] at slots
      omega
    · cases none
    · cases none
  · obtain ⟨-, body⟩ := right
    split at body
    · rename_i m promoted started
      unfold Declaration.Distinct at clash
      rw [nodup_iff_getElem?_ne_getElem?] at clash
      push Not at clash
      obtain ⟨i, j, before, bound, same⟩ := clash
      have get := getElem?_eq_getElem bound
      have first := trial_holds counted body (same.trans get)
      have second := trial_holds counted body get
      have heads := trial_heads d captures
      have size : j < d.start.length + d.parameters.length := by simpa using bound
      obtain one | ⟨last, -⟩ := first
      · obtain two | ⟨-, two⟩ := second
        · have clash := one.symm.trans two
          change (if _ = 0 then Slot.heap 7 else .scalar _) = if _ = 0 then Slot.heap 7 else .scalar _ at clash
          split at clash <;> split at clash <;> simp at clash <;> omega
        · have clash := one.symm.trans two
          change (if _ = 0 then Slot.heap 7 else .scalar _) = Slot.heap 0 at clash
          split at clash <;> simp at clash
      · omega
    · obtain ⟨i, p, value, slots, -, -, -, none⟩ := body
      cases none
    · obtain ⟨type, v, none⟩ := body
      cases none

end Trial

/-- **A callable binds the arguments of every call right exactly when its parameters have different names**, with an
object also different from `$this`. -/
theorem calls_right_iff {d : Declaration} {c : Callable} {captures : List (List UInt8)}
    (accepted : d.compile = .ok (c, captures)) :
    (∀ call : Invocation, call.Fits d captures → Right d c captures call) ↔ d.Distinct := by
  constructor
  · intro right
    by_contra clash
    exact trial_wrong accepted clash (right _ (trial_fits (d.counted accepted)))
  · exact fun distinct call fits => right_of_distinct accepted distinct call fits

/-! ## Two functions -/

/-- A parameter without type and default. -/
def plainParameter (name : String) : Parameter where
  line := 1
  name := ⟨.tVariable, 0, ascii name, 1, 1⟩
  variadic := false
  flags := 0
  type := []
  defaultValue := none

/-- `function f($a, $b) {}` -/
def twoParameters : Declaration := .function [plainParameter "$a", plainParameter "$b"] []

theorem twoParameters_right : ∃ c captures, twoParameters.compile = .ok (c, captures) ∧
    ∀ call : Invocation, call.Fits twoParameters captures → Right twoParameters c captures call := by
  have accepted : twoParameters.compile =
      .ok (⟨[ascii "a", ascii "b"], 2, 2, false, false, [[], []], [], []⟩, []) := rfl
  exact ⟨_, _, accepted, (calls_right_iff accepted).mpr (by decide)⟩

/-- `function g($a, $a) { $b; }` -/
def oneNameTwice : Declaration := .function [plainParameter "$a", plainParameter "$a"] [ascii "b"]

/-- The second argument of `g(0, 1)` ends up in `$b`. -/
theorem oneNameTwice_wrong : ∃ c captures, oneNameTwice.compile = .ok (c, captures) ∧
    ∃ call : Invocation, call.Fits oneNameTwice captures ∧ ¬ Right oneNameTwice c captures call := by
  have accepted : oneNameTwice.compile = .ok (⟨[ascii "a", ascii "b"], 2, 2, false, false, [[], []], [], []⟩, []) := rfl
  exact ⟨_, _, accepted, oneNameTwice.trial [], trial_fits (oneNameTwice.counted accepted),
    trial_wrong accepted (by decide)⟩

end PhpPico.Call
