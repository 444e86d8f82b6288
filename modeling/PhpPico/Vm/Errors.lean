import PhpPico.Vm.Machine

/-!
# Errors between executions

An execution that an exception leaves ends with a text in the `error` buffer of its state. The state it was started
from takes the text over, and `convert_runtime_error` makes an exception of it again.
-/

namespace PhpPico
open List Option

/-! ## Texts -/

/-- `ps_contains_cstr`. -/
def psContainsCstr : List UInt8 → List UInt8 → Bool
  | [], needle => needle.isEmpty
  | byte :: rest, needle => needle.isPrefixOf (byte :: rest) || psContainsCstr rest needle

/-- `pphp_runtime_error`: the first error of an instruction stays. -/
def runtimeError (error text : List UInt8) : List UInt8 := if error ≠ [] then error else clip 256 text

theorem foldl_runtimeError {error : List UInt8} (some_error : error ≠ []) (texts : List (List UInt8)) :
    texts.foldl runtimeError error = error := by
  induction texts with
  | nil => rfl
  | cons text rest ih =>
    rw [foldl_cons, runtimeError, if_pos some_error]
    exact ih

/-! ## Exceptions -/

/-- An exception with its class and the fields the runtime reads and writes; `none` for a value of another type. The
trace is left out. -/
structure Exception where
  className : List UInt8
  message : Option (List UInt8)
  code : Option Int
  file : Option (List UInt8)
  line : Option Int
deriving DecidableEq, Repr

/-- The objects made so far by address, and the `oom_exception` that all states share. -/
structure Objects where
  made : List Exception
  oomException : Option Nat
deriving DecidableEq, Repr

/-- The line an uncaught exception reports: a `uint32_t`. -/
def Exception.reportedLine (e : Exception) : Nat :=
  match e.line with
  | some line => if 0 ≤ line then line.toNat % 2 ^ 32 else 0
  | none => 0

/-- The text an uncaught exception leaves. -/
def Exception.fatalText (e : Exception) : List UInt8 :=
  runtimeError [] (ascii "PHP Fatal error: Uncaught " ++ printed e.className ++ ascii ": " ++
    printed (e.message.getD []) ++ ascii " in " ++ printed (e.file.getD (ascii "<source>")) ++
    ascii ":" ++ printUnsigned e.reportedLine)

/-- The class `convert_runtime_error` gives to an error. -/
def classForError (raisedClass message : List UInt8) : List UInt8 :=
  if raisedClass ≠ [] then raisedClass
  else if psContainsCstr message (ascii "Division by zero") || psContainsCstr message (ascii "Modulo by zero") then
    ascii "DivisionByZeroError"
  else if psContainsCstr message (ascii "out of memory") || psContainsCstr message (ascii "Out of memory") then
    ascii "OutOfMemoryError"
  else if psContainsCstr message (ascii "Too few arguments") || psContainsCstr message (ascii "Too many arguments") ||
      psContainsCstr message (ascii "expects exactly") ||
      psContainsCstr message (ascii "expects at most") then
    ascii "ArgumentCountError"
  else if psContainsCstr message (ascii "expects") || psContainsCstr message (ascii "unsupported operand") then
    ascii "TypeError"
  else ascii "Error"

/-! ## Executions -/

variable {cfg : Config}

/-- How an execution was started: by `pphp_vm_invoke` for a builtin or a magic method, by
`pphp_exec_include`, or by `pobject_run_destructor`. -/
inductive StartedBy where
  | invoke
  | includeFile
  | destructor
deriving DecidableEq, Repr

/-- An execution at an instruction, as far as errors are concerned. -/
structure Execution (cfg : Config) where
  startedBy : StartedBy
  /-- Innermost first. -/
  frames : List (Frame cfg)
  running : frames ≠ []
  /-- Where the instruction starts. -/
  instructionPc : Nat
  /-- The line of the innermost frame. -/
  line : Nat
  chunkName : Option (List UInt8)
  raisedClass : List UInt8
  /-- What `pobject_new` makes of the class `pphp_find_class` finds, when there is memory. -/
  instantiate : List UInt8 → Option Exception
  /-- The exception is an instance of the class `pphp_find_class` finds. -/
  isA : Exception → PString → Bool
  /-- What is reported behind a failed nested execution before the instruction ends. -/
  reports : List (List UInt8)

/-- How `throw_exception` ends. -/
inductive Unwound (cfg : Config) where
  | handled (entry : PCatch) (frame : Frame cfg) (below : List (Frame cfg))
  /-- A `finally` takes the exception, but has no slot for it: the execution fails with an error of
  its own. -/
  | noSlot
  | uncaught

/-- The frames loop of `throw_exception`. -/
def unwind (isA : PString → Bool) : Nat → List (Frame cfg) → Unwound cfg
  | _, [] => .uncaught
  | throwPc, f :: rest =>
    match f.proto.catchFor isA throwPc with
    | some entry =>
      if entry.classConstant = 0xffff ∧ f.proto.nLocals ≤ entry.variableSlot.toNat then .noSlot
      else .handled entry f rest
    | none => unwind isA (callerPc rest) rest

namespace Execution

/-- An exception thrown by the instruction. -/
def unwinds (x : Execution cfg) (e : Exception) : Unwound cfg := unwind (x.isA e) x.instructionPc x.frames

/-- `pphp_exception_new`. -/
def pphpExceptionNew (x : Execution cfg) (className message : List UInt8) (errorLine : Nat) : Option Exception :=
  (x.instantiate className).map fun e =>
    { e with
      message := some message
      file := some (x.chunkName.getD (ascii "<source>"))
      line := some errorLine }

/-- `convert_runtime_error`: the address of the exception it throws, the exception, and the objects
there are then. -/
def convertRuntimeError (x : Execution cfg) (w : Objects) (error : List UInt8) (errorLine : Nat) :
    Option (Nat × Exception × Objects) :=
  match w.oomException.filter fun _ => classForError x.raisedClass error = ascii "OutOfMemoryError" with
  | some oom => (w.made[oom]?).map fun e => (oom, e, w)
  | none =>
    (x.pphpExceptionNew (classForError x.raisedClass error) error (if errorLine = 0 then x.line else errorLine)).map
      fun e => (w.made.length, e, { w with made := w.made ++ [e] })

/-- What an execution throws when one it has started was left by the exception `e`. The state that
started it takes the text over; `pobject_run_destructor` puts the old text back. -/
def receives (y : Execution cfg) (w : Objects) (startedBy : StartedBy) (e : Exception) :
    Option (Nat × Exception × Objects) :=
  match startedBy with
  | .destructor => none
  | .invoke | .includeFile => y.convertRuntimeError w (y.reports.foldl runtimeError e.fatalText) e.reportedLine

/-- The exception `e` is thrown in the execution `x`: what the executions around it throw, as long as
nothing takes it. -/
def received (w : Objects) (e : Exception) (x : Execution cfg) :
    List (Execution cfg) → List (Option (Nat × Exception × Objects))
  | [] => []
  | y :: rest =>
    match x.unwinds e with
    | .uncaught =>
      match y.receives w x.startedBy e with
      | none => [none]
      | some (b, e', w') => some (b, e', w') :: received w' e' y rest
    | _ => []

/-- The handler that runs in the end, with its frame and the address it gets. -/
def caught (w : Objects) (a : Nat) (e : Exception) (x : Execution cfg) :
    List (Execution cfg) → Option (Nat × PCatch × Frame cfg)
  | [] =>
    match x.unwinds e with
    | .handled entry f _ => some (a, entry, f)
    | _ => none
  | y :: rest =>
    match x.unwinds e with
    | .handled entry f _ => some (a, entry, f)
    | .noSlot => none
    | .uncaught =>
      match y.receives w x.startedBy e with
      | none => none
      | some (b, e', w') => caught w' b e' y rest

/-- The handler an exception finds that is passed on as it is. -/
def catcher (e : Exception) (x : Execution cfg) : List (Execution cfg) → Option (PCatch × Frame cfg)
  | [] =>
    match x.unwinds e with
    | .handled entry f _ => some (entry, f)
    | _ => none
  | y :: rest =>
    match x.unwinds e with
    | .handled entry f _ => some (entry, f)
    | .noSlot => none
    | .uncaught => catcher e y rest

/-! ## What gets through -/

/-- All executions that an exception reaches throw the same object, and the handler that runs is
the one for it. -/
structure PassesUnchanged (w : Objects) (a : Nat) (e : Exception) (x : Execution cfg)
    (outer : List (Execution cfg)) : Prop where
  same : ∀ r ∈ received w e x outer, ∃ w', r = some (a, e, w')
  caught : caught w a e x outer = (catcher e x outer).map (a, ·)

/-- The exception is the preallocated one for exhausted memory, and wherever it leaves an execution
its text reads so. -/
def PassesAsOom (w : Objects) (a : Nat) (e : Exception) (x : Execution cfg) : List (Execution cfg) → Prop
  | [] => True
  | y :: rest =>
    match x.unwinds e with
    | .uncaught =>
      x.startedBy ≠ .destructor ∧ w.oomException = some a ∧
        classForError y.raisedClass e.fatalText = ascii "OutOfMemoryError" ∧ PassesAsOom w a e y rest
    | _ => True

section Passing
variable {w w' : Objects} {a b : Nat} {e e' : Exception} {x y : Execution cfg} {startedBy : StartedBy}
  {outer : List (Execution cfg)}

theorem fatalText_ne_nil (e : Exception) : e.fatalText ≠ [] := by
  unfold Exception.fatalText runtimeError
  rw [if_neg (not_not_intro rfl), clip]
  have start : ascii "PHP Fatal error: Uncaught " = 80 :: (ascii "PHP Fatal error: Uncaught ").tail := by decide
  rw [start]
  exact cons_ne_nil _ _

/-- The conversion of an error gives an exception that was there before only when that is the one for
exhausted memory. -/
theorem convertRuntimeError_same {error : List UInt8} {errorLine : Nat} (thrown : w.made[a]? = some e) :
    (∃ w', y.convertRuntimeError w error errorLine = some (a, e, w')) ↔
      w.oomException = some a ∧ classForError y.raisedClass error = ascii "OutOfMemoryError" := by
  have lt : a < w.made.length := (List.getElem?_eq_some_iff.mp thrown).1
  unfold convertRuntimeError
  cases oom : w.oomException.filter fun _ => classForError y.raisedClass error = ascii "OutOfMemoryError" with
  | some b =>
    simp only
    obtain ⟨is_oom, reads⟩ := filter_eq_some_iff.mp oom
    constructor
    · rintro ⟨w', eq⟩
      obtain ⟨o, -, eq⟩ := map_eq_some_iff.mp eq
      cases eq
      exact ⟨is_oom, of_decide_eq_true reads⟩
    · rintro ⟨same, -⟩
      rw [is_oom] at same
      cases same
      exact ⟨w, by rw [thrown, map_some]⟩
  | none =>
    simp only
    constructor
    · rintro ⟨w', eq⟩
      obtain ⟨o, -, eq⟩ := map_eq_some_iff.mp eq
      have here : w.made.length = a := congrArg Prod.fst eq
      omega
    · rintro ⟨same, reads⟩
      rw [same, filter_some, if_pos (decide_eq_true reads)] at oom
      cases oom

theorem receives_same (thrown : w.made[a]? = some e) : (∃ w', y.receives w startedBy e = some (a, e, w')) ↔
      startedBy ≠ .destructor ∧ w.oomException = some a ∧
        classForError y.raisedClass e.fatalText = ascii "OutOfMemoryError" := by
  unfold receives
  rw [foldl_runtimeError (fatalText_ne_nil e)]
  cases startedBy with
  | destructor =>
    refine ⟨fun ⟨_, eq⟩ => ?_, fun h => absurd rfl h.1⟩
    cases eq
  | invoke =>
    rw [convertRuntimeError_same thrown]
    exact ⟨fun h => ⟨nofun, h⟩, And.right⟩
  | includeFile =>
    rw [convertRuntimeError_same thrown]
    exact ⟨fun h => ⟨nofun, h⟩, And.right⟩

/-- The preallocated exception makes no new object. -/
theorem convertRuntimeError_oom {error : List UInt8} {errorLine : Nat} (thrown : w.made[a]? = some e)
    (oom : w.oomException = some a) (reads : classForError y.raisedClass error = ascii "OutOfMemoryError") :
    y.convertRuntimeError w error errorLine = some (a, e, w) := by
  have filtered : w.oomException.filter (fun _ => classForError y.raisedClass error = ascii "OutOfMemoryError") =
      some a := by
    rw [oom, filter_some, if_pos (decide_eq_true reads)]
  unfold convertRuntimeError
  simp only [filtered, thrown, map_some]

theorem receives_oom (thrown : w.made[a]? = some e) (code : startedBy ≠ .destructor)
    (oom : w.oomException = some a) (reads : classForError y.raisedClass e.fatalText = ascii "OutOfMemoryError") :
    y.receives w startedBy e = some (a, e, w) := by
  unfold receives
  rw [foldl_runtimeError (fatalText_ne_nil e)]
  cases startedBy with
  | destructor => exact absurd rfl code
  | invoke => exact convertRuntimeError_oom thrown oom reads
  | includeFile => exact convertRuntimeError_oom thrown oom reads

/-- Around an execution that an exception leaves, the next one throws it. -/
theorem PassesUnchanged.arrives (unchanged : PassesUnchanged w a e x (y :: outer)) (ends : x.unwinds e = .uncaught) :
    ∃ w', y.receives w x.startedBy e = some (a, e, w') := by
  have same := unchanged.same
  simp only [received, ends] at same
  cases arrives : y.receives w x.startedBy e with
  | none =>
    rw [arrives] at same
    obtain ⟨w', eq⟩ := same none (mem_singleton_self _)
    cases eq
  | some r =>
    rw [arrives] at same
    exact same (some r) (.head _)

/-- **Exceptions do not pass nested executions** unless they are the preallocated one for exhausted memory: all
executions throw the same object up to the one that handles it if and only if each one it leaves is left with that
object. -/
theorem exceptions_pass_iff (x : Execution cfg) (outer : List (Execution cfg)) (thrown : w.made[a]? = some e) :
    PassesUnchanged w a e x outer ↔ PassesAsOom w a e x outer := by
  induction outer generalizing x with
  | nil =>
    refine iff_of_true ⟨fun r hr => (nomatch hr), ?_⟩ trivial
    unfold caught catcher
    cases x.unwinds e <;> rfl
  | cons y rest ih =>
    unfold PassesAsOom
    cases ends : x.unwinds e with
    | handled entry f below =>
      refine iff_of_true ⟨fun r hr => ?_, ?_⟩ trivial
      · simp only [received, ends, not_mem_nil] at hr
      · simp only [caught, catcher, ends, map_some]
    | noSlot =>
      refine iff_of_true ⟨fun r hr => ?_, ?_⟩ trivial
      · simp only [received, ends, not_mem_nil] at hr
      · simp only [caught, catcher, ends, map_none]
    | uncaught =>
      constructor
      · intro unchanged
        obtain ⟨code, oom, reads⟩ := (receives_same thrown).mp (unchanged.arrives ends)
        refine ⟨code, oom, reads, (ih y).mp ?_⟩
        have arrives := receives_oom (y := y) thrown code oom reads
        obtain ⟨same, handler⟩ := unchanged
        simp only [received, ends, arrives, mem_cons] at same
        simp only [caught, catcher, ends, arrives] at handler
        exact ⟨fun r hr => same r (.inr hr), handler⟩
      · rintro ⟨code, oom, reads, later⟩
        obtain ⟨same, handler⟩ := (ih y).mpr later
        have arrives := receives_oom (y := y) thrown code oom reads
        constructor
        · intro r hr
          simp only [received, ends, arrives, mem_cons] at hr
          rcases hr with rfl | hr
          · exact ⟨w, rfl⟩
          · exact same r hr
        · simp only [caught, catcher, ends, arrives]
          exact handler

end Passing

/-- A frame of a function that catches exceptions of a class, or none. -/
def frameCatching (className : Option PString) : Frame cfg where
  module := ⟨[]⟩
  proto :=
    { (Proto.new ⟨[], by decide⟩ : Proto cfg) with
      constants := className.toList.map .string
      locals := [⟨[], by decide⟩]
      locals_le := by decide
      catches := className.toList.map fun _ => ⟨0, 16, 16, 0, 0⟩ }
  pc := 8
  base := 0

/-- An execution with one frame and without classes of its own. -/
def executionCatching (startedBy : StartedBy) (className : Option PString) : Execution cfg where
  startedBy := startedBy
  frames := [frameCatching className]
  running := cons_ne_nil _ _
  instructionPc := 4
  line := 1
  chunkName := none
  raisedClass := []
  instantiate := fun name => some ⟨name, none, some 0, none, none⟩
  isA := fun e name => e.className == name.bytes
  reports := [ascii "array callback invocation failed"]

/-- A callback runs out of memory, and the script catches that. -/
theorem exceptions_pass_iff_oom :
    PassesUnchanged ⟨[⟨ascii "OutOfMemoryError", some (ascii "Out of memory"), some 0, none, some 1⟩], some 0⟩ 0
      ⟨ascii "OutOfMemoryError", some (ascii "Out of memory"), some 0, none, some 1⟩
      (executionCatching .invoke none : Execution ⟨true, true, true, true, true⟩)
      [executionCatching .invoke (psNew (ascii "OutOfMemoryError"))] := by
  refine (exceptions_pass_iff _ _ rfl).mpr ⟨nofun, rfl, ?_, trivial⟩
  decide +kernel

/-- A callback throws an exception of a class of its own, for which the script has a handler: the
script gets another object. -/
theorem callback_exception_replaced : ¬ ∀ (w : Objects) (a : Nat) (e : Exception)
    (x : Execution ⟨true, true, true, true, true⟩) (outer : List (Execution ⟨true, true, true, true, true⟩)),
    w.made[a]? = some e → PassesUnchanged w a e x outer := by
  intro claimed
  have thrown : (⟨[⟨ascii "OutOfMemoryError", some (ascii "Out of memory"), some 0, none, some 1⟩,
      ⟨ascii "MyException", some (ascii "stop"), some 7, none, some 3⟩], some 0⟩ : Objects).made[1]? =
      some ⟨ascii "MyException", some (ascii "stop"), some 7, none, some 3⟩ := rfl
  have arrives := (claimed _ 1 _ (executionCatching .invoke none)
    [executionCatching .invoke (psNew (ascii "MyException"))] thrown).arrives rfl
  cases ((receives_same thrown).mp arrives).2.1

end Execution

end PhpPico
