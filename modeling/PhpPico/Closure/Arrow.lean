import PhpPico.Closure.NewClasses
import PhpPico.Lib.Placed

/-!
# Arrow functions

An arrow function captures the variables of the scope it is created in, and its body is evaluated in a frame of its
own, as it would be in that scope: each variable its code reads is captured with what it held, so the places of the
variables make no difference.
-/

namespace PhpPico.Closure

open Compiler Call

/-! ## The meaning of code -/

/-- What instructions do besides reading and writing variables and jumping: how null is written, what is true, and
what happens to the operands and to a world. A closure that is created gets the values it captures. -/
structure Meaning (σ : Type) where
  null : Int
  isTruthy : Call.Slot → Bool
  perform : Code → List Call.Slot → List Call.Slot → σ → Except (List UInt8) (List Call.Slot × σ)

namespace Meaning
variable {σ : Type} (meaning : Meaning σ)

/-- What `read_local_value` makes of a slot. The warning about an undefined variable is left out. -/
def fetch : Call.Slot → Call.Slot
  | .undefined => .scalar meaning.null
  | v => v

/-- A jump, with what it does to the operands and whether it is taken. -/
def jump (op : JumpOp) : List Call.Slot → Except (List UInt8) (List Call.Slot × Bool)
  | [] =>
    match op with
    | .jmp => .ok ([], true)
    | .jmpIf | .jmpUnless => .error (ascii "bytecode stack underflow")
    | _ => .error (ascii "conditional jump on empty stack")
  | v :: rest =>
    let truth := meaning.isTruthy v
    let isNull := v == .scalar meaning.null
    let keep (taken : Bool) : List Call.Slot × Bool := (if taken then v :: rest else rest, taken)
    match op with
    | .jmp => .ok (v :: rest, true)
    | .jmpIf => .ok (rest, truth)
    | .jmpUnless => .ok (rest, !truth)
    | .jmpIfKeep => .ok (keep truth)
    | .jmpUnlessKeep => .ok (keep !truth)
    | .jmpNotnullKeep => .ok (keep !isNull)
    | .jmpIfnullKeep => .ok (v :: rest, isNull)

/-- One instruction, with the values of the variables that it reads. -/
def act (i : Code) (inputs operands : List Call.Slot) (world : σ) :
    Except (List UInt8) (Placed.Effect Call.Slot Call.Slot σ) :=
  match i with
  | .loadLocal .. => .ok ⟨none, inputs ++ operands, world, 0⟩
  | .storeLocal _ =>
    match operands with
    | [] => .error (ascii "bytecode stack underflow")
    | v :: rest => .ok ⟨some v, rest, world, 0⟩
  | .unsetLocal _ => .ok ⟨some .undefined, operands, world, 0⟩
  | .jump op skipped =>
    (meaning.jump op operands).map fun (rest, taken) => ⟨none, rest, world, if taken then skipped else 0⟩
  | i => (meaning.perform i inputs operands world).map fun (operands, world) => ⟨none, operands, world, 0⟩

/-- The code of expressions as code whose variables have places. -/
def language : Placed.Language Code Name Call.Slot Call.Slot σ (List UInt8) where
  reads := Code.reads
  writes := Code.writes
  fetch := meaning.fetch
  act := meaning.act

/-- Evaluates code with its variables in a memory: the operands and the world in the end, or an error, and the
memory. -/
def evaluate {P : Type} [DecidableEq P] (place : Name → P) (code : List Code) (cells : P → Call.Slot) (world : σ) :
    Except (List UInt8) (List Call.Slot × σ) × (P → Call.Slot) :=
  meaning.language.run place 0 code cells [] world

end Meaning

/-- The variables that code reads. -/
def variablesRead (code : List Code) : List Name := code.flatMap Code.reads

/-- The variables that code writes. -/
def variablesWritten (code : List Code) : List Name := code.filterMap Code.writes

/-! ## Compiled arrow functions -/

/-- An arrow function. -/
structure ArrowFunction where
  parameters : List Ast
  isStatic : Bool
  body : Option Ast

namespace ArrowFunction

/-- Whether a name is the one of a parameter. -/
def IsParameter (arrow : ArrowFunction) (x : Name) : Prop := x ∈ (parametersOf arrow.parameters).map Parameter.variable

instance (arrow : ArrowFunction) (x : Name) : Decidable (arrow.IsParameter x) := inferInstanceAs (Decidable (_ ∈ _))

/-- The declaration of an arrow function with the variables that `collect_captures` finds, and the names of the
variables and temporary slots of its code. -/
def declaration (arrow : ArrowFunction) (found names : List Name) : Declaration :=
  .closure (parametersOf arrow.parameters) true arrow.isStatic [] found names

end ArrowFunction

/-- An arrow function that `compile_closure_expression` accepts. -/
structure CompiledArrow (cfg : Config) (arrow : ArrowFunction) where
  found : List Name
  code : List Code
  names : List Name
  callable : Callable
  captures : List Name
  collected : captureNames (parametersOf arrow.parameters) [] true arrow.isStatic arrow.body = .ok found
  generated : compileExpression cfg arrow.body = .ok code
  named : ∀ x ∈ variablesRead code ++ variablesWritten code, x ∈ names
  accepted : (arrow.declaration found names).compile = .ok (callable, captures)

namespace CompiledArrow
variable {cfg : Config} {arrow : ArrowFunction}

/-- The declaration of the arrow function. -/
def declaration (compiled : CompiledArrow cfg arrow) : Declaration := arrow.declaration compiled.found compiled.names

/-- Where a variable is in a frame. -/
def place (compiled : CompiledArrow cfg arrow) (base : Nat) (x : Name) : Nat := base + compiled.callable.slot x

/-! ## What an arrow function should do -/

/-- `OP_CLOSURE`: the values of the captured variables, in the scope that creates the closure. -/
def create {σ : Type} (compiled : CompiledArrow cfg arrow) (meaning : Meaning σ) (scope : Name → Call.Slot) :
    List Call.Slot :=
  compiled.captures.map fun x => meaning.fetch (scope x)

/-- The scope that creates the closure, with the parameters of a call besides. -/
def around (compiled : CompiledArrow cfg arrow) (base : Nat) (m : Machine) (scope : Name → Call.Slot) (x : Name) :
    Call.Slot :=
  if arrow.IsParameter x then m.stack (compiled.place base x) else scope x

/-- The body is evaluated as in the scope: the variables that are no parameters hold what they held there, the result
is the same, and what the body assigns stays in its frame. -/
structure Evaluates {σ : Type} (compiled : CompiledArrow cfg arrow) (meaning : Meaning σ) (scope : Name → Call.Slot)
    (base : Nat) (before m : Machine) : Prop where
  held : ∀ x ∈ variablesRead compiled.code, ¬ arrow.IsParameter x →
    m.stack (compiled.place base x) = meaning.fetch (scope x)
  same : ∀ world, (meaning.evaluate (compiled.place base) compiled.code m.stack world).1 =
    (meaning.evaluate id compiled.code (compiled.around base m scope) world).1
  apart : ∀ world, ∀ i < base, (meaning.evaluate (compiled.place base) compiled.code m.stack world).2 i = before.stack i

/-- A call evaluates the body as in the scope, unless there are too few arguments or no room, or a default or a
declared type raises. -/
def Answers {σ : Type} (compiled : CompiledArrow cfg arrow) (meaning : Meaning σ) (scope : Name → Call.Slot)
    (call : Invocation) : Prop :=
  match call.enter compiled.declaration compiled.callable with
  | .raised _ _ => Refused call compiled.declaration compiled.callable
  | .entered m =>
    match runPrologue call.program compiled.callable (call.base compiled.declaration) call.argumentCount m with
    | .started m _ => compiled.Evaluates meaning scope (call.base compiled.declaration) call.machine m
    | .defaultRaised => ∃ slots value, call.program.evaluate slots value = none
    | .typeRaised => ∃ type v, call.program.accepts type v = false

/-- **An arrow function captures every variable**: those its code reads, parameters apart, are in the list, and each
call evaluates the body as in the scope that created the closure, whatever the code means. -/
structure CapturesAll (compiled : CompiledArrow cfg arrow) : Prop where
  listed : ∀ x ∈ variablesRead compiled.code, arrow.IsParameter x ∨ x ∈ compiled.captures
  answers : ∀ (σ : Type) (meaning : Meaning σ) (scope : Name → Call.Slot) (call : Invocation),
    call.Fits compiled.declaration compiled.captures → call.captured = compiled.create meaning scope →
    compiled.Answers meaning scope call

/-! ## When it does so -/

/-- Every variable that is the class of a `new` is a parameter, or occurs elsewhere too. -/
def ClassesOccur (_ : CompiledArrow cfg arrow) : Prop :=
  ∀ x ∈ newClassesOf arrow.body, arrow.IsParameter x ∨ x ∈ referencesOf arrow.body

/-- The code reads only parameters, and there are as many slots as parameters and captured variables. -/
structure Spares (compiled : CompiledArrow cfg arrow) : Prop where
  parameters : ∀ x ∈ variablesRead compiled.code, arrow.IsParameter x
  room : (parametersOf arrow.parameters).length + compiled.captures.length ≤ compiled.callable.locals.length

end CompiledArrow

end PhpPico.Closure
