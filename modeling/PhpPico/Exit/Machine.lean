import PhpPico.Proto

/-!
# exit in nested interpreters

`exit` sets a flag that the interpreter looks at before each instruction. Code called from an instruction (callbacks,
magic methods, included files, handlers of events) runs in an interpreter of its own, whose flag is copied to the one
that waits. A program is any sequence of actions; what comes between two callbacks is as in `vm.c`, `arrays.c` and
`pgems.c`. Destructors and failures of the allocator are left out.
-/

namespace PhpPico.Exit

/-- What a callback returns: the sign of the number it reads as and its bytes if it is a string. -/
structure Returned where
  sign : Option Int
  text : Option (List UInt8)

/-- `pv_null()`. -/
def Returned.null : Returned := ⟨some 0, none⟩

/-- What is turned into a string: bytes, an object with `__toString`, or a value without a text. -/
inductive Operand where
  | text (bytes : List UInt8)
  | object
  | other
  deriving DecidableEq

/-- What an instruction is in the middle of while a callback runs. -/
inductive Task where
  /-- `array_map`, `array_filter`, `array_reduce`: how many entries are left. -/
  | entries (left : Nat)
  /-- `usort`, `uasort`, `uksort`: entry `i` is compared with the one in front of `insert`. -/
  | sort (i insert used : Nat)
  /-- `OP_ECHO`: the operands behind. -/
  | echo (rest : List Operand)
  /-- `OP_CONCAT`, the left operand. -/
  | concatLeft (right : Operand)
  /-- `OP_CONCAT`, the right operand; `leftOk` says whether the left one is a string. -/
  | concatRight (leftOk : Bool)
  /-- `__get` and `__set`. -/
  | magic
  | includeFile
  /-- `pphp_poll_pgems`, in front of an instruction: the handlers left, and whether one has failed. -/
  | poll (left : Nat) (failed : Bool)

/-- What comes next: another callback, the end of the instruction, or of the handlers of events. -/
inductive Next where
  | call (task : Task) (out : List UInt8)
  | done (raises : Bool) (out : List UInt8)
  | polled (failed : Bool)

/-- Bytes that are written first. -/
def Next.prepend (bytes : List UInt8) : Next → Next
  | .call task out => .call task (bytes ++ out)
  | .done raises out => .done raises (bytes ++ out)
  | .polled failed => .polled failed

/-- The loop of `OP_ECHO`. -/
def echoFrom : List Operand → Next
  | [] => .done false []
  | .text bytes :: rest => (echoFrom rest).prepend bytes
  | .object :: rest => .call (.echo rest) []
  | .other :: _ => .done true []

/-- The outer loop of `call_array_sort`, from entry `i` on. -/
def sortFrom (i used : Nat) : Next := if i < used then .call (.sort i i used) [] else .done false []

/-- What an instruction does that calls code of the program. -/
inductive Op where
  | arrayCallback (entries : Nat)
  | userSort (entries : Nat)
  | echo (operands : List Operand)
  | concat (left right : Operand)
  | magic
  | includeFile

/-- How the instruction begins. -/
def Op.first : Op → Next
  | .arrayCallback 0 => .done false []
  | .arrayCallback (left + 1) => .call (.entries left) []
  | .userSort used => sortFrom 1 used
  | .echo operands => echoFrom operands
  | .concat .object right => .call (.concatLeft right) []
  | .concat left .object => .call (.concatRight (left ≠ .other)) []
  | .concat left right => .done (left = .other || right = .other) []
  | .magic => .call .magic []
  | .includeFile => .call .includeFile []

/-- How it goes on when a callback has ended. `failed` says that the callback left an error. -/
def Task.after (failed : Bool) (r : Returned) : Task → Next
  | .entries left =>
    if failed then .done true []
    else
      match left with
      | 0 => .done false []
      | left + 1 => .call (.entries left) []
  | .sort i insert used =>
    if failed then .done true []
    else
      match r.sign with
      | none => .done true []
      | some compared =>
        if compared ≤ 0 ∨ insert ≤ 1 then sortFrom (i + 1) used else .call (.sort i (insert - 1) used) []
  | .echo rest =>
    if failed then .done true []
    else
      match r.text with
      | none => .done true []
      | some bytes => (echoFrom rest).prepend bytes
  | .concatLeft right =>
    match right with
    | .text _ => .done (failed || r.text.isNone) []
    | .object => .call (.concatRight (!failed && r.text.isSome)) []
    | .other => .done true []
  | .concatRight leftOk => .done (!leftOk || failed || r.text.isNone) []
  | .magic => .done failed []
  | .includeFile => .done failed []
  | .poll 0 failed' => .polled (failed' || failed)
  | .poll (left + 1) failed' => .call (.poll left (failed' || failed)) []

/-- An interpreter that waits for the one above it: its flag, what it is in the middle of, and
whether an error of the instruction finds a handler. -/
structure Frame where
  exit : Bool
  task : Task
  handled : Bool

inductive Event where
  | instruction
  | output (bytes : List UInt8)
  | exited
  deriving DecidableEq

/-- The interpreter that runs, with those that wait, innermost first. `polled` says that the events
have been looked at and the instruction follows without another look at the flags. -/
structure State where
  below : List Frame
  error : Bool
  exit : Bool
  polled : Bool
  events : List Event

/-- `pphp_output`. -/
def wrote (bytes : List UInt8) : List Event := if bytes = [] then [] else [.output bytes]

namespace State

/-- The condition of the loop of `pphp_vm_execute`. -/
def loops (s : State) : Bool := !s.error && !s.exit

/-- An instruction is executed. -/
def fetches (s : State) : Bool := s.polled || s.loops

/-- `pphp_vm_invoke` and `pphp_exec_include` start an interpreter with cleared flags; an error is converted to an
exception where there is a handler. An error that a handler of events leaves ends the loop. -/
def proceed (s : State) (handled : Bool) : Next → State
  | .call task out =>
    { below := ⟨s.exit, task, handled⟩ :: s.below, error := false, exit := false, polled := false,
      events := s.events ++ wrote out }
  | .done raises out =>
    { s with error := raises && !handled, polled := false, events := s.events ++ wrote out }
  | .polled failed => { s with error := failed, polled := !failed }

/-- The end of `pphp_vm_invoke` and `pphp_exec_include`: the flag is copied to the interpreter that has
waited. (An include sets the flag of the outermost interpreter, too, which gets it anyway.) -/
def resume (s : State) (frame : Frame) (rest : List Frame) (failed : Bool) (r : Returned) : State :=
  ({ s with below := rest, error := false, exit := frame.exit || s.exit } : State).proceed frame.handled
    (frame.task.after failed r)

end State

/-- What the program does next. -/
inductive Action where
  /-- An instruction that calls no code in another interpreter. -/
  | plain (out : List UInt8) (raises handled : Bool)
  /-- `exit` or `die`. -/
  | exit (message : List UInt8)
  | start (op : Op) (handled : Bool)
  /-- Events are pending in front of an instruction, for this many handlers and one more. -/
  | poll (left : Nat)
  /-- `hal_interrupt_requested`. -/
  | interrupt
  /-- `OP_HALT`; `invalid` is what `validate_class_signatures` says of the classes. -/
  | halt (r : Returned) (invalid : Bool)
  /-- The loop ends because of the flags. -/
  | stop (invalid : Bool)

/-- The classes are validated when a file ends, not when a callback does. -/
def Task.validates : Task → Bool
  | .includeFile => true
  | _ => false

namespace State

def step (s : State) : Action → Option State
  | .plain out raises handled =>
    if s.fetches then
      some { s with error := raises && !handled, polled := false, events := s.events ++ Event.instruction :: wrote out }
    else none
  | .exit message =>
    if s.fetches then
      some { s with exit := true, polled := false, events := s.events ++ Event.instruction :: (wrote message ++ [Event.exited]) }
    else none
  | .start op handled =>
    if s.fetches then
      some (({ s with polled := false, events := s.events ++ [Event.instruction] } : State).proceed handled op.first)
    else none
  | .poll left => if !s.polled && s.loops then some (s.proceed false (.call (.poll left false) [])) else none
  | .interrupt => if !s.polled && s.loops then some { s with error := true } else none
  | .halt r invalid =>
    match s.below with
    | [] => none
    | frame :: rest =>
      if s.fetches then
        some (({ s with polled := false, events := s.events ++ [Event.instruction] } : State).resume frame rest
          (invalid && frame.task.validates) r)
      else none
  | .stop invalid =>
    match s.below with
    | [] => none
    | frame :: rest =>
      if !s.polled && !s.loops then
        some (s.resume frame rest (s.error || invalid && frame.task.validates) .null)
      else none

def run (s : State) (actions : List Action) : Option State := actions.foldlM step s

/-- The program begins. -/
def start : State := ⟨[], false, false, false, []⟩

end State

end PhpPico.Exit
