import PhpPico.Call.Parameters

/-!
# Binding arguments

`bind_arguments` moves the arguments of a call into the slots of the callee, `call_function` and its siblings enter a
frame around it, and the code in front of the body stores defaults, checks types and sets promoted properties.
References are counted; what freeing the last one does is left out.
-/

namespace PhpPico.Call

open Compiler (Ast)

/-- A `pvalue` on the stack: a local that is undefined, a value without references, or one on the heap. -/
inductive Slot where
  | undefined
  | scalar (i : Int)
  | heap (address : Nat)
deriving DecidableEq, Repr

/-- `pframe`. -/
structure Frame where
  callee : Callable
  base : Nat
  argumentCount : Nat
  returnOverride : Option Slot

/-- `pphp_state`: the operand stack, the frames with the newest first, the reference counts by address, and the
elements of arrays. -/
structure Machine where
  stack : Nat → Slot
  stackCount : Nat
  frames : List Frame
  refcnt : Nat → Int
  arrays : Nat → List Slot

/-- `PPHP_STACK_SLOTS`. -/
def stackSlots : Nat := 384

/-- `PPHP_FRAME_MAX`. -/
def frameMax : Nat := 48

namespace Machine

/-- The slots from a position on. -/
def cells (m : Machine) (begin count : Nat) : List Slot := (List.range count).map fun i => m.stack (begin + i)

/-- Counts a reference, or gives one up. -/
def count (m : Machine) (v : Slot) (change : Int) : Machine :=
  match v with
  | .heap address => { m with refcnt := fun a => if a = address then m.refcnt a + change else m.refcnt a }
  | _ => m

/-- `pv_retain`. -/
def retain (m : Machine) (v : Slot) : Machine := m.count v 1

/-- `pv_release`. -/
def release (m : Machine) (v : Slot) : Machine := m.count v (-1)

/-- `pv_release` on each of several values. -/
def releaseAll (m : Machine) : List Slot → Machine
  | [] => m
  | v :: rest => (m.release v).releaseAll rest

/-- Writes one slot. -/
def set (m : Machine) (position : Nat) (v : Slot) : Machine :=
  { m with stack := fun i => if i = position then v else m.stack i }

/-- `memmove` on the stack. -/
def move (m : Machine) (target source count : Nat) : Machine :=
  { m with stack := fun i => if target ≤ i ∧ i < target + count then m.stack (source + (i - target)) else m.stack i }

/-- Slots that become undefined. -/
def clear (m : Machine) (begin count : Nat) : Machine :=
  { m with stack := fun i => if begin ≤ i ∧ i < begin + count then .undefined else m.stack i }

/-- `pa_new`: an array without elements, owned by whoever asked for it. -/
def newArray (m : Machine) (address : Nat) : Machine :=
  { (m.retain (.heap address)) with arrays := fun a => if a = address then [] else m.arrays a }

/-- `pa_push` where there is memory. -/
def push (m : Machine) (address : Nat) (v : Slot) : Machine :=
  { (m.retain v) with arrays := fun a => if a = address then m.arrays a ++ [v] else m.arrays a }

/-- `pv_release` on an array with one owner. -/
def freeArray (m : Machine) (address : Nat) : Machine :=
  { ((m.release (.heap address)).releaseAll (m.arrays address)) with
    arrays := fun a => if a = address then [] else m.arrays a }

/-- Whether all frames are in use. -/
def noFrame (m : Machine) : Bool := decide (frameMax ≤ m.frames.length)

end Machine

/-- What the allocator gives a call: the address of the array of a variadic parameter, and whether each element
finds room there. -/
structure Memory where
  rest : Option Nat
  push : Nat → Bool

/-- How a call goes on: in the frame of the callee, or with an error. -/
inductive Outcome where
  | entered (m : Machine)
  | raised (text : List UInt8) (m : Machine)

/-- The loop of `bind_arguments` over the arguments of a variadic parameter, and whether all are stored. -/
def pushRest (memory : Memory) (address : Nat) : Nat → List Slot → Machine → Machine × Bool
  | _, [], m => (m, true)
  | i, v :: rest, m =>
    if memory.push i then pushRest memory address (i + 1) rest (m.push address v)
    else (m.freeArray address, false)

/-- The parameters that are no lists. -/
def Callable.fixedCount (c : Callable) : Nat := if c.variadic then c.nParams - 1 else c.nParams

/-- What `bind_arguments` writes, with `rest` for the variadic parameter. -/
def layArguments (m : Machine) (callee : Callable) (targetBase argumentBase argumentCount localOffset : Nat)
    (rest : Option Nat) : Machine :=
  let fixedCount := callee.fixedCount
  let supplied := if argumentCount < fixedCount then argumentCount else fixedCount
  let released := m.releaseAll (m.cells (argumentBase + fixedCount) (argumentCount - fixedCount))
  let moved := released.move (targetBase + localOffset) argumentBase supplied
  let missing := moved.clear (targetBase + localOffset + supplied) (fixedCount - supplied)
  let variadic :=
    match rest with
    | some address => missing.set (targetBase + localOffset + fixedCount) (.heap address)
    | none => missing
  variadic.clear (targetBase + localOffset + callee.nParams) (callee.locals.length - (localOffset + callee.nParams))

/-- `bind_arguments`. -/
def bindArguments (memory : Memory) (m : Machine) (callee : Callable)
    (targetBase argumentBase argumentCount localOffset : Nat) : Outcome :=
  if callee.variadic = true ∧ callee.nParams = 0 then .raised (ascii "invalid variadic function metadata") m
  else if stackSlots ≤ targetBase + callee.locals.length ∨ callee.locals.length < localOffset + callee.nParams then
    .raised (ascii "value stack overflow entering function") m
  else if callee.variadic then
    match memory.rest with
    | none => .raised (ascii "out of memory collecting variadic arguments") m
    | some address =>
      let extra := m.cells (argumentBase + callee.fixedCount) (argumentCount - callee.fixedCount)
      match pushRest memory address 0 extra (m.newArray address) with
      | (m, false) => .raised (ascii "out of memory collecting variadic arguments") m
      | (m, true) => .entered (layArguments m callee targetBase argumentBase argumentCount localOffset (some address))
  else .entered (layArguments m callee targetBase argumentBase argumentCount localOffset none)

/-- The loop of `call_value` over the captured values. -/
def putCaptures : Nat → List Slot → Machine → Machine
  | _, [], m => m
  | position, v :: rest, m => putCaptures (position + 1) rest ((m.set position v).retain v)

/-- How a call enters: where its slots and arguments are, what it captured, the callable that it gives up, and the
object a constructor returns. -/
structure Entry where
  targetBase : Nat
  argumentBase : Nat
  argumentCount : Nat
  localOffset : Nat
  captured : List Slot
  callable : Option Slot
  returnOverride : Option Slot

/-- What stands behind `bind_arguments`: captured values, the callable given up, and the frame. -/
def pushFrame (m : Machine) (callee : Callable) (entry : Entry) : Machine :=
  let captured := putCaptures (entry.targetBase + callee.nParams) entry.captured m
  let released := entry.callable.elim captured captured.release
  let owned := entry.returnOverride.elim released released.retain
  { owned with
    stackCount := entry.targetBase + callee.locals.length
    frames := ⟨callee, entry.targetBase, entry.argumentCount, entry.returnOverride⟩ :: m.frames }

/-- What `call_function` and its siblings have in common, from the callee on: `tooFew` and `overflow` are their
texts, `full` says whether they find no room. -/
def enter (memory : Memory) (m : Machine) (callee : Callable) (entry : Entry) (full : Bool)
    (tooFew overflow : List UInt8) : Outcome :=
  if entry.argumentCount < callee.nRequired then .raised tooFew m
  else if full then .raised overflow m
  else
    match bindArguments memory m callee entry.targetBase entry.argumentBase entry.argumentCount entry.localOffset with
    | .raised text m => .raised text m
    | .entered m => .entered (pushFrame m callee entry)

/-- " required, " and so on. -/
def requiredGiven (required given : Nat) : List UInt8 :=
  ascii ", " ++ printUnsigned required ++ ascii " required, " ++ printUnsigned given ++ ascii " given"

/-- `call_function` on a function of the program. -/
def callFunction (memory : Memory) (m : Machine) (name : List UInt8) (callee : Callable) (argumentCount : Nat) :
    Outcome :=
  let base := m.stackCount - argumentCount
  enter memory m callee ⟨base, base, argumentCount, 0, [], none, none⟩ m.noFrame
    (ascii "Too few arguments to function " ++ name ++ ascii "()" ++ requiredGiven callee.nRequired argumentCount)
    (ascii "call stack overflow")

/-- `call_named_value` on a function of the program: its name stands below the arguments. -/
def callNamedValue (memory : Memory) (m : Machine) (name : List UInt8) (callee : Callable) (argumentCount : Nat) :
    Outcome :=
  let base := m.stackCount - argumentCount - 1
  enter memory m callee ⟨base, base + 1, argumentCount, 0, [], some (m.stack base), none⟩ m.noFrame
    (ascii "Too few arguments to function " ++ name ++ ascii "()" ++ requiredGiven callee.nRequired argumentCount)
    (ascii "stack overflow entering callable function")

/-- `call_value` on a closure, which stands below the arguments. -/
def callValue (memory : Memory) (m : Machine) (callee : Callable) (captured : List Slot) (argumentCount : Nat) :
    Outcome :=
  let base := m.stackCount - argumentCount - 1
  enter memory m callee ⟨base, base + 1, argumentCount, 0, captured, some (m.stack base), none⟩
    (m.noFrame || decide (callee.locals.length < callee.nParams + captured.length))
    (ascii "Too few arguments to closure" ++ requiredGiven callee.nRequired argumentCount)
    (ascii "stack overflow entering closure")

/-- `enter_method` on a method of the program: the object stands below the arguments. -/
def enterMethod (memory : Memory) (m : Machine) (name : List UInt8) (callee : Callable) (argumentCount : Nat)
    (isConstructor : Bool) : Outcome :=
  let base := m.stackCount - argumentCount - 1
  enter memory m callee
    ⟨base, base + 1, argumentCount, 1, [], none, if isConstructor then some (m.stack base) else none⟩ m.noFrame
    (ascii "Too few arguments to method " ++ name ++ ascii "()" ++ requiredGiven callee.nRequired argumentCount)
    (ascii "stack overflow entering method")

/-- `enter_static_method` on a method of the program. -/
def enterStaticMethod (memory : Memory) (m : Machine) (name : List UInt8) (callee : Callable) (argumentCount : Nat) :
    Outcome :=
  let base := m.stackCount - argumentCount
  enter memory m callee ⟨base, base, argumentCount, 0, [], none, none⟩ m.noFrame
    (ascii "Too few arguments to static method " ++ name ++ ascii "()") (ascii "stack overflow entering static method")

/-! ## The code in front of a body -/

/-- What the program does besides: the value of a constant expression, given the slots of the frame, and whether a
declared type accepts a value. -/
structure Program where
  evaluate : (Nat → Slot) → Ast → Option Slot
  accepts : List Ast → Slot → Bool

/-- The locals of a frame, by slot. -/
def Machine.locals (m : Machine) (callee : Callable) (base : Nat) : Nat → Slot :=
  fun slot => if slot < callee.locals.length then m.stack (base + slot) else .undefined

/-- `store_local_value`; a new frame has no static or global variables. -/
def Machine.storeLocal (m : Machine) (position : Nat) (v : Slot) : Machine :=
  (m.release (m.stack position)).set position v

/-- The code of `compile_parameter_defaults`. -/
def runDefaults (program : Program) (callee : Callable) (base argumentCount : Nat) :
    List DefaultCode → Machine → Option Machine
  | [], m => some m
  | code :: rest, m =>
    if code.index < argumentCount then runDefaults program callee base argumentCount rest m
    else
      match program.evaluate (m.locals callee base) code.value with
      | none => none
      | some v => runDefaults program callee base argumentCount rest ((m.retain v).storeLocal (base + code.slot) v)

/-- `check_argument_types`. -/
def checkArgumentTypes (program : Program) (callee : Callable) (base : Nat) (m : Machine) : Bool :=
  let localOffset := if callee.isMethod then 1 else 0
  callee.parameterTypes.all List.isEmpty ||
    (List.range callee.fixedCount).all (fun i =>
      program.accepts (callee.parameterTypes.getD i []) (m.stack (base + localOffset + i))) &&
    (!callee.variadic ||
      match m.stack (base + localOffset + callee.fixedCount) with
      | .heap address => (m.arrays address).all (program.accepts (callee.parameterTypes.getD callee.fixedCount []))
      | _ => true)

/-- The code of `compile_method` for promoted properties: the values that are set, each with a reference. -/
def runPromotions (base : Nat) : List (Nat × List UInt8) → Machine → Machine × List (List UInt8 × Slot)
  | [], m => (m, [])
  | (slot, property) :: rest, m =>
    let value := m.stack (base + slot)
    let (m, others) := runPromotions base rest (m.retain value)
    (m, (property, value) :: others)

/-- How the code in front of a body goes: it starts the body, or a default or a type raises. -/
inductive Start where
  | started (m : Machine) (promoted : List (List UInt8 × Slot))
  | defaultRaised
  | typeRaised

/-- The code in front of the body of the newest frame. -/
def runPrologue (program : Program) (callee : Callable) (base argumentCount : Nat) (m : Machine) : Start :=
  match runDefaults program callee base argumentCount callee.defaults m with
  | none => .defaultRaised
  | some m =>
    if checkArgumentTypes program callee base m then
      let (m, promoted) := runPromotions base callee.promotions m
      .started m promoted
    else .typeRaised

end PhpPico.Call
