import Mathlib.Data.List.Induction
import PhpPico.State.Temporaries

/-!
# Where locals live

The locals of a function are slots of its frame, those of top-level code entries of `state->globals`, which all files
of a program share, as do locals that `global` binds; `static` binds to `state->statics`. A program is any sequence of
actions: calls, included files, callbacks on a stack of their own, and leaving them, be it by an exception. NULL
stands for undefined locals, too; failures of the allocator are left out.
-/

namespace PhpPico.Locals
open List Function

variable {V : Type}

/-- The names of the locals of a proto. -/
structure LocalTable where
  names : List LocalName
  allocated : Allocated names

/-- `pframe`, and for each made-up local what a statement has stored in it and will read. -/
structure Frame (V : Type) where
  function : List UInt8
  locals : LocalTable
  base : Nat
  allGlobals : Bool
  globalMask : Nat → Bool
  staticMask : Nat → Bool
  kept : Nat → Option (Option V)

/-- A stack and its frames, the running one first. -/
structure Interpreter (V : Type) where
  stack : Nat → Option V
  count : Nat
  frames : List (Frame V)

/-- The interpreter that runs and those that wait for it. -/
structure Machine (V : Type) where
  running : Interpreter V
  waiting : List (Interpreter V)
  globals : List UInt8 → Option V
  statics : List UInt8 → Option V

/-- Where a local lives. -/
inductive Storage where
  | stack (index : Nat)
  | global (key : List UInt8)
  | static (key : List UInt8)
deriving DecidableEq

namespace Frame

def nLocals (f : Frame V) : Nat := f.locals.names.length

def nameAt (f : Frame V) (slot : Nat) : Option LocalName := f.locals.names[slot]?

def key (f : Frame V) (slot : Nat) : List UInt8 := (f.nameAt slot).elim [] LocalName.bytes

/-- `slot_storage`. -/
def slotStorage (f : Frame V) (slot : Nat) : Storage :=
  if f.staticMask slot then .static (staticSlotKey f.function (f.key slot))
  else if f.allGlobals || f.globalMask slot then .global (f.key slot)
  else .stack (f.base + slot)

/-- A statement keeps a value in a slot, or nothing any longer. -/
def keep (f : Frame V) (slot : Nat) (value : Option (Option V)) : Frame V :=
  { f with kept := update f.kept slot value }

/-- The masks behind `OP_BIND_GLOBAL`. -/
def bindGlobal (f : Frame V) (slot : Nat) : Frame V :=
  { f with
    globalMask := update f.globalMask slot true
    staticMask := update f.staticMask slot false }

/-- The masks behind `OP_STATIC_INIT`. -/
def staticInit (f : Frame V) (slot : Nat) : Frame V :=
  { f with
    globalMask := update f.globalMask slot false
    staticMask := update f.staticMask slot true }

/-- A frame of `call_function`, or of `pphp_vm_execute`. -/
def enter (function : List UInt8) (locals : LocalTable) (base : Nat) (allGlobals : Bool) : Frame V where
  function := function
  locals := locals
  base := base
  allGlobals := allGlobals
  globalMask := fun _ => false
  staticMask := fun _ => false
  kept := fun _ => none

end Frame

/-- What an instruction does, or the end of what runs. -/
inductive Action (V : Type) where
  | push (value : Option V)
  | pop
  | load (slot : Nat)
  /-- `emit_store_slot`. -/
  | store (slot : Nat)
  /-- `clear_temporary_slot`. -/
  | clear (slot : Nat)
  /-- A statement is over, or has been left by an exception, and reads the local no more. -/
  | forget (slot : Nat)
  | unset (slot : Nat)
  | bindGlobal (slot : Nat)
  | staticInit (slot : Nat)
  | call (function : List UInt8) (locals : LocalTable) (base : Nat) (values : Nat → Option V)
  | leave
  /-- `pphp_vm_execute`, for a file or for a callback. -/
  | execute (function : List UInt8) (locals : LocalTable)
  | finish

namespace Machine

def interpreters (m : Machine V) : List (Interpreter V) := m.running :: m.waiting

/-- `read_local_value`, with the stack of an interpreter. -/
def read (m : Machine V) (stack : Nat → Option V) : Storage → Option V
  | .stack index => stack index
  | .global key => m.globals key
  | .static key => m.statics key

/-- `store_local_value` and `unset_local_value`. -/
def write (m : Machine V) (value : Option V) : Storage → Machine V
  | .stack index => { m with running := { m.running with stack := update m.running.stack index value } }
  | .global key => { m with globals := update m.globals key value }
  | .static key => { m with statics := update m.statics key value }

/-- The top of the stack. -/
def top (m : Machine V) : Option V := m.running.stack (m.running.count - 1)

def push (m : Machine V) (value : Option V) : Machine V :=
  { m with running := { m.running with
      stack := update m.running.stack m.running.count value
      count := m.running.count + 1 } }

def pop (m : Machine V) : Machine V := { m with running := { m.running with count := m.running.count - 1 } }

def withFrames (m : Machine V) (frames : List (Frame V)) : Machine V :=
  { m with running := { m.running with frames := frames } }

/-- The frame above starts at a base with its locals. -/
def call (m : Machine V) (f : Frame V) (values : Nat → Option V) : Machine V :=
  { m with running := {
      stack := fun i => if f.base ≤ i then values (i - f.base) else m.running.stack i
      count := f.base + f.nLocals
      frames := f :: m.running.frames } }

def execute (m : Machine V) (f : Frame V) : Machine V :=
  { m with
    running := { stack := fun _ => none, count := f.nLocals, frames := [f] }
    waiting := m.running :: m.waiting }

/-- The operands of a frame lie above its locals. -/
def hasOperand (m : Machine V) (f : Frame V) : Bool := f.base + f.nLocals < m.running.count

/-- One action of the running frame; `none` where the compiler does not generate it. -/
def act (m : Machine V) (f : Frame V) (frames : List (Frame V)) : Action V → Option (Machine V)
  | .push value => some (m.push value)
  | .pop => if m.hasOperand f then some m.pop else none
  | .load slot => if slot < f.nLocals then some (m.push (m.read m.running.stack (f.slotStorage slot))) else none
  | .store slot =>
    match f.nameAt slot with
    | some name =>
      if m.hasOperand f then
        some ((m.pop.write m.top (f.slotStorage slot)).withFrames
          ((if name.isKept then f.keep slot (some m.top) else f) :: frames))
      else none
    | none => none
  | .clear slot =>
    match f.nameAt slot with
    | some name =>
      if name.isKept then some ((m.write none (f.slotStorage slot)).withFrames (f.keep slot none :: frames)) else none
    | none => none
  | .forget slot => some (m.withFrames (f.keep slot none :: frames))
  | .unset slot =>
    match f.nameAt slot with
    | some (.program _) => some (m.write none (f.slotStorage slot))
    | _ => none
  | .bindGlobal slot =>
    match f.nameAt slot with
    | some (.program _) => some ((m.write none (.stack (f.base + slot))).withFrames (f.bindGlobal slot :: frames))
    | _ => none
  | .staticInit slot =>
    match f.nameAt slot with
    | some (.program _) => some ((m.write none (.stack (f.base + slot))).withFrames (f.staticInit slot :: frames))
    | _ => none
  | .call function locals base values =>
    if f.base + f.nLocals ≤ base ∧ base ≤ m.running.count then
      some (m.call (Frame.enter function locals base false) values)
    else none
  | .leave => some { m with running := { m.running with count := f.base, frames := frames } }
  | .execute function locals => some (m.execute (Frame.enter function locals 0 true))
  | .finish => none

def step (m : Machine V) (action : Action V) : Option (Machine V) :=
  match action, m.waiting, m.running.frames with
  | .finish, i :: waiting, _ => some { m with running := i, waiting := waiting }
  | action, _, f :: frames => m.act f frames action
  | _, _, [] => none

def run (m : Machine V) (actions : List (Action V)) : Option (Machine V) := actions.foldlM step m

/-- A program starts, with what earlier programs of a session have left. -/
def start (locals : LocalTable) (globals statics : List UInt8 → Option V) : Machine V where
  running := {
    stack := fun _ => none
    count := locals.names.length
    frames := [Frame.enter (ascii "\x7bmain\x7d") locals 0 true] }
  waiting := []
  globals := globals
  statics := statics

/-- A frame reads from its made-up locals what its statements have stored in them. -/
def Holds (m : Machine V) (stack : Nat → Option V) (f : Frame V) : Prop :=
  ∀ slot value, f.kept slot = some value → m.read stack (f.slotStorage slot) = value

/-- The running frame does. -/
def ReadsBack (m : Machine V) : Prop := ∀ f ∈ m.running.frames.head?, m.Holds m.running.stack f

/-- All frames do, those that wait, too. -/
def Intact (m : Machine V) : Prop := ∀ i ∈ m.interpreters, ∀ f ∈ i.frames, m.Holds i.stack f

/-- No variable of the program lives where a made-up local does; slots are told apart by the number of
their interpreter. -/
def Unaliased (m : Machine V) : Prop :=
  ∀ (k l : Nat) (i j : Interpreter V), m.interpreters[k]? = some i → m.interpreters[l]? = some j →
    ∀ f ∈ i.frames, ∀ g ∈ j.frames, ∀ slot made name, f.nameAt slot = some (.program name) →
      (∀ name, g.nameAt made ≠ some (.program name)) → made < g.nLocals →
        f.slotStorage slot = g.slotStorage made → k ≠ l ∧ ∃ index, f.slotStorage slot = .stack index

/-- What an action stores in a local that the compiler has made up, or that is visible. -/
def stores (m : Machine V) : Action V → Option (Nat × Option V)
  | .store slot => some (slot, m.top)
  | .clear slot => some (slot, none)
  | _ => none

/-- An action does not store a value in a local of top-level code while a statement of other top-level
code, which waits, keeps another value in a local of that name. -/
def Harmless (m : Machine V) (action : Action V) : Prop :=
  ∀ f frames, m.running.frames = f :: frames → f.allGlobals = true →
    ∀ slot value, m.stores action = some (slot, value) →
      ∀ g, g ∈ frames ∨ (∃ i ∈ m.waiting, g ∈ i.frames) → g.allGlobals = true →
        ∀ s kept, g.nameAt s = f.nameAt slot → g.kept s = some kept → kept = value

end Machine

/-! ## Frames -/

namespace Frame
variable {f g : Frame V} {slot : Nat}

/-- Only variables are bound, and only made-up locals are kept. -/
structure Ok (f : Frame V) : Prop where
  masked : ∀ slot, f.globalMask slot = true ∨ f.staticMask slot = true → ∃ name, f.nameAt slot = some (.program name)
  keeps : ∀ slot value, f.kept slot = some value → ∃ name, f.nameAt slot = some name ∧ name.isKept = true

theorem ok_enter (function : List UInt8) (locals : LocalTable) (base : Nat) (allGlobals : Bool) :
    (enter function locals base allGlobals : Frame V).Ok := by
  constructor
  · rintro slot (bound | bound) <;> cases bound
  · intro slot value kept
    cases kept

variable {name : LocalName} {t : Nat} {value : Option V}

theorem nameAt_lt (named : f.nameAt slot = some name) : slot < f.nLocals :=
  (List.getElem?_eq_some_iff.mp named).1

/-- Names tell the slots of a frame apart. -/
theorem nameAt_inj (there : f.nameAt t = some name) (here : f.nameAt slot = some name) : t = slot :=
  (getElem?_inj (nameAt_lt there) f.locals.allocated.nodup).mp (there.trans here.symm)

/-- Keys are equal for equal names. -/
theorem key_eq_iff {name' : LocalName} (there : g.nameAt t = some name') (here : f.nameAt slot = some name) :
    g.key t = f.key slot ↔ g.nameAt t = f.nameAt slot := by
  rw [key, key, there, here, Option.some.injEq]
  exact ⟨LocalName.bytes_injective, congrArg LocalName.bytes⟩

theorem Ok.slotStorage_madeUp (ok : f.Ok) (made : ∀ name, f.nameAt slot ≠ some (.program name)) :
    f.slotStorage slot = if f.allGlobals then .global (f.key slot) else .stack (f.base + slot) := by
  have unbound : ∀ mask : Bool, (mask = true → ∃ name, f.nameAt slot = some (.program name)) → mask = false := by
    intro mask bound
    cases mask with
    | false => rfl
    | true =>
      obtain ⟨name, named⟩ := bound rfl
      exact absurd named (made name)
  rw [slotStorage, unbound _ fun bound => ok.masked slot (.inr bound), unbound _ fun bound => ok.masked slot (.inl bound),
    Bool.or_false]
  rfl

theorem Ok.kept_madeUp (ok : f.Ok) (kept : f.kept slot = some value) (name : Identifier) :
    f.nameAt slot ≠ some (.program name) := by
  intro named
  obtain ⟨made, there, isKept⟩ := ok.keeps slot value kept
  rw [named] at there
  cases there
  cases isKept

theorem Ok.slotStorage_kept (ok : f.Ok) (kept : f.kept slot = some value) :
    f.slotStorage slot = if f.allGlobals then .global (f.key slot) else .stack (f.base + slot) :=
  ok.slotStorage_madeUp (ok.kept_madeUp kept)

/-- A kept local does not live where another local of its frame does. -/
theorem Ok.slotStorage_ne (ok : f.Ok) (kept : f.kept t = some value) (named : f.nameAt slot = some name)
    (apart : t ≠ slot) : f.slotStorage t ≠ f.slotStorage slot := by
  obtain ⟨made, there, -⟩ := ok.keeps t value kept
  have keys : f.key t ≠ f.key slot := by
    intro same
    rw [key_eq_iff there named, there] at same
    exact apart (nameAt_inj there same.symm)
  rw [ok.slotStorage_kept kept, slotStorage]
  cases f.allGlobals with
  | true =>
    rw [if_pos rfl, Bool.true_or, if_pos rfl]
    split
    · exact Storage.noConfusion
    · intro same
      exact keys (Storage.global.inj same)
  | false =>
    rw [if_neg Bool.false_ne_true]
    split
    · exact Storage.noConfusion
    · split
      · exact Storage.noConfusion
      · intro same
        have := Storage.stack.inj same
        omega

theorem keep_kept (f : Frame V) (slot : Nat) (value : Option (Option V)) :
    (f.keep slot value).kept = update f.kept slot value := rfl

theorem Ok.keep_some (ok : f.Ok) (named : f.nameAt slot = some name) (isKept : name.isKept = true)
    (value : Option V) : (f.keep slot (some value)).Ok := by
  refine ⟨ok.masked, ?_⟩
  intro t value' kept
  by_cases here : t = slot
  · rw [here]
    exact ⟨name, named, isKept⟩
  · rw [keep_kept, update_of_ne here] at kept
    exact ok.keeps t value' kept

theorem kept_of_keep_none (kept : (f.keep slot none).kept t = some value) : t ≠ slot ∧ f.kept t = some value := by
  by_cases here : t = slot
  · rw [keep_kept, here, update_self] at kept
    cases kept
  · rw [keep_kept, update_of_ne here] at kept
    exact ⟨here, kept⟩

theorem Ok.keep_none (ok : f.Ok) (slot : Nat) : (f.keep slot none).Ok :=
  ⟨ok.masked, fun t value kept => ok.keeps t value (kept_of_keep_none kept).2⟩

theorem Ok.bindGlobal (ok : f.Ok) {name : Identifier} (named : f.nameAt slot = some (.program name)) :
    (f.bindGlobal slot).Ok := by
  refine ⟨?_, ok.keeps⟩
  intro t bound
  by_cases here : t = slot
  · rw [here]
    exact ⟨name, named⟩
  · apply ok.masked t
    simpa only [Frame.bindGlobal, update_of_ne here] using bound

theorem Ok.staticInit (ok : f.Ok) {name : Identifier} (named : f.nameAt slot = some (.program name)) :
    (f.staticInit slot).Ok := by
  refine ⟨?_, ok.keeps⟩
  intro t bound
  by_cases here : t = slot
  · rw [here]
    exact ⟨name, named⟩
  · apply ok.masked t
    simpa only [Frame.staticInit, update_of_ne here] using bound

end Frame

/-- The locals of a frame lie below its operands and above those of the frame that has called it. -/
def Layout : Nat → List (Frame V) → Prop
  | _, [] => True
  | limit, f :: frames => f.base + f.nLocals ≤ limit ∧ Layout f.base frames

theorem Layout.below {limit : Nat} {frames : List (Frame V)} (layout : Layout limit frames) {g : Frame V}
    (listed : g ∈ frames) : g.base + g.nLocals ≤ limit := by
  induction frames generalizing limit with
  | nil => cases listed
  | cons f frames ih =>
    obtain ⟨room, layout⟩ := layout
    rcases mem_cons.mp listed with rfl | listed
    · exact room
    · have := ih layout listed
      omega

theorem Layout.apart {limit : Nat} {frames : List (Frame V)} (layout : Layout limit frames) {f g : Frame V}
    (f_listed : f ∈ frames) (g_listed : g ∈ frames) :
    f = g ∨ f.base + f.nLocals ≤ g.base ∨ g.base + g.nLocals ≤ f.base := by
  induction frames generalizing limit with
  | nil => cases f_listed
  | cons h frames ih =>
    rcases mem_cons.mp f_listed with rfl | f_below
    · rcases mem_cons.mp g_listed with rfl | g_below
      · exact .inl rfl
      · exact .inr (.inr (layout.2.below g_below))
    · rcases mem_cons.mp g_listed with rfl | g_below
      · exact .inr (.inl (layout.2.below f_below))
      · exact ih layout.2 f_below g_below

structure Interpreter.Ok (i : Interpreter V) : Prop where
  frames : ∀ f ∈ i.frames, f.Ok
  layout : Layout i.count i.frames

/-! ## Steps -/

namespace Machine
variable {m m' : Machine V} {f g : Frame V} {frames : List (Frame V)} {slot : Nat} {value : Option V}
  {name : LocalName}

def Ok (m : Machine V) : Prop := ∀ i ∈ m.interpreters, i.Ok

theorem Ok.running (ok : m.Ok) : m.running.Ok := ok _ (.head _)

theorem Ok.waiting (ok : m.Ok) {i : Interpreter V} (listed : i ∈ m.waiting) : i.Ok :=
  ok i (.tail _ listed)

theorem Ok.of_running (ok : m.Ok) (waiting : m'.waiting = m.waiting) (running : m'.running.Ok) : m'.Ok := by
  intro i listed
  rcases mem_cons.mp listed with rfl | listed
  · exact running
  · rw [waiting] at listed
    exact ok.waiting listed

@[simp] theorem write_waiting (m : Machine V) (value : Option V) (place : Storage) :
    (m.write value place).waiting = m.waiting := by
  cases place <;> rfl

@[simp] theorem write_frames (m : Machine V) (value : Option V) (place : Storage) :
    (m.write value place).running.frames = m.running.frames := by
  cases place <;> rfl

@[simp] theorem write_count (m : Machine V) (value : Option V) (place : Storage) :
    (m.write value place).running.count = m.running.count := by
  cases place <;> rfl

theorem withFrames_self (running : m.running.frames = frames) : m.withFrames frames = m := by
  rw [← running]
  rfl

theorem read_write_self (m : Machine V) (value : Option V) (place : Storage) :
    (m.write value place).read (m.write value place).running.stack place = value := by
  cases place with
  | stack index => exact update_self ..
  | global key => exact update_self ..
  | static key => exact update_self ..

theorem read_write_ne (m : Machine V) (value : Option V) {place other : Storage} (apart : other ≠ place) :
    (m.write value place).read (m.write value place).running.stack other = m.read m.running.stack other := by
  cases place with
  | stack index =>
    cases other with
    | stack j => exact update_of_ne (fun same => apart (congrArg _ same)) ..
    | global key => rfl
    | static key => rfl
  | global key =>
    cases other with
    | stack j => rfl
    | global key' => exact update_of_ne (fun same => apart (congrArg _ same)) ..
    | static key' => rfl
  | static key =>
    cases other with
    | stack j => rfl
    | global key' => rfl
    | static key' => exact update_of_ne (fun same => apart (congrArg _ same)) ..

theorem Holds.congr {stack stack' : Nat → Option V} (holds : m.Holds stack f) (ok : f.Ok)
    (globals : m'.globals = m.globals) (same : ∀ j, f.base ≤ j → j < f.base + f.nLocals → stack' j = stack j) :
    m'.Holds stack' f := by
  intro s value kept
  rw [← holds s value kept, ok.slotStorage_kept kept]
  obtain ⟨name, named, -⟩ := ok.keeps s value kept
  have := Frame.nameAt_lt named
  split
  · exact congrFun globals _
  · exact same _ (by omega) (by omega)

theorem Intact.of_running (intact : m.Intact) (ok : m.Ok) (globals : m'.globals = m.globals)
    (waiting : m'.waiting = m.waiting) (running : ∀ g ∈ m'.running.frames, m'.Holds m'.running.stack g) :
    m'.Intact := by
  intro i listed g g_listed
  rcases mem_cons.mp listed with rfl | listed
  · exact running g g_listed
  · rw [waiting] at listed
    exact (intact i (.tail _ listed) g g_listed).congr ((ok.waiting listed).frames g g_listed) globals
      fun _ _ _ => rfl

theorem Intact.above (intact : m.Intact) (ok : m.Ok) (globals : m'.globals = m.globals)
    (waiting : m'.waiting = m.waiting) {limit : Nat} (same : ∀ j, j < limit → m'.running.stack j = m.running.stack j)
    (running : ∀ g ∈ m'.running.frames, (∀ slot, g.kept slot = none) ∨
      (g ∈ m.running.frames ∧ g.base + g.nLocals ≤ limit)) : m'.Intact := by
  refine intact.of_running ok globals waiting fun g listed => ?_
  rcases running g listed with fresh | ⟨old, below⟩
  · intro s value kept
    rw [fresh s] at kept
    cases kept
  · refine (intact _ (.head _) g old).congr (ok.running.frames g old) globals fun j _ high => ?_
    exact same j (high.trans_le below)

/-- What a frame finds in a made-up local behind a write of the running frame to one of its own. -/
theorem read_write_kept (f_ok : f.Ok) (named : f.nameAt slot = some name) (g_ok : g.Ok) {s : Nat} {kept : Option V}
    (g_kept : g.kept s = some kept) {stack stack' : Nat → Option V}
    (same : ∀ j, g.base ≤ j → j < g.base + g.nLocals → stack' j = stack j) :
    (m.write value (f.slotStorage slot)).read stack' (g.slotStorage s) =
      if f.allGlobals = true ∧ g.allGlobals = true ∧ g.nameAt s = f.nameAt slot then value
      else m.read stack (g.slotStorage s) := by
  obtain ⟨made, there, isKept⟩ := g_ok.keeps s kept g_kept
  have in_range := Frame.nameAt_lt there
  rw [g_ok.slotStorage_kept g_kept]
  by_cases g_globals : g.allGlobals = true
  · rw [if_pos g_globals]
    -- a variable that is bound is none of the made-up locals
    have bound : (f.globalMask slot = true ∨ f.staticMask slot = true) → g.nameAt s ≠ f.nameAt slot := by
      intro bound
      obtain ⟨x, here⟩ := f_ok.masked slot bound
      rw [here]
      exact g_ok.kept_madeUp g_kept x
    have keys : g.nameAt s ≠ f.nameAt slot → g.key s ≠ f.key slot := fun apart same =>
      apart ((Frame.key_eq_iff there named).mp same)
    rw [Frame.slotStorage]
    by_cases static : f.staticMask slot = true
    · rw [if_pos static, if_neg fun all => bound (.inr static) all.2.2]
      rfl
    · rw [if_neg static]
      by_cases f_globals : f.allGlobals = true
      · rw [f_globals, Bool.true_or, if_pos rfl]
        by_cases names : g.nameAt s = f.nameAt slot
        · rw [if_pos ⟨rfl, g_globals, names⟩, (Frame.key_eq_iff there named).mpr names]
          exact update_self ..
        · rw [if_neg fun all => names all.2.2]
          exact update_of_ne (keys names) ..
      · have apart : ¬ (f.allGlobals = true ∧ g.allGlobals = true ∧ g.nameAt s = f.nameAt slot) :=
          fun all => f_globals all.1
        rw [if_neg apart, (Bool.not_eq_true _).mp f_globals, Bool.false_or]
        split
        · next global => exact update_of_ne (keys (bound (.inl global))) ..
        · rfl
  · rw [if_neg g_globals, if_neg fun all => g_globals all.2.1]
    exact same _ (by omega) (by omega)

variable {action : Action V}

theorem Ok.act (ok : m.Ok) (running : m.running.frames = f :: frames)
    (h : m.act f frames action = some m') : m'.Ok := by
  have f_ok : f.Ok := ok.running.frames f (by rw [running]; exact .head _)
  have rest_ok : ∀ g ∈ frames, g.Ok := fun g listed =>
    ok.running.frames g (by rw [running]; exact .tail _ listed)
  have layout := ok.running.layout
  rw [running] at layout
  -- the same frames but for the first, which keeps its place
  have same : ∀ {m' : Machine V} {f' : Frame V}, m'.waiting = m.waiting → m'.running.frames = f' :: frames → f'.Ok →
      f'.base = f.base → f'.nLocals = f.nLocals → f.base + f.nLocals ≤ m'.running.count → m'.Ok := by
    intro m' f' waiting frames' f'_ok base nLocals room
    refine ok.of_running waiting ⟨?_, ?_⟩
    · intro g listed
      rw [frames'] at listed
      rcases mem_cons.mp listed with rfl | listed
      · exact f'_ok
      · exact rest_ok g listed
    · rw [frames', Layout, base, nLocals]
      exact ⟨room, layout.2⟩
  cases action with
  | push value =>
    cases h
    exact same rfl running f_ok rfl rfl (Nat.le_succ_of_le layout.1)
  | pop =>
    obtain ⟨operand, h⟩ := Option.ite_none_right_eq_some.mp h
    cases h
    rw [hasOperand, decide_eq_true_eq] at operand
    exact same rfl running f_ok rfl rfl (Nat.le_sub_one_of_lt operand)
  | load slot =>
    obtain ⟨-, h⟩ := Option.ite_none_right_eq_some.mp h
    cases h
    exact same rfl running f_ok rfl rfl (Nat.le_succ_of_le layout.1)
  | store slot =>
    simp only [Machine.act] at h
    split at h
    · next name named =>
      obtain ⟨operand, h⟩ := Option.ite_none_right_eq_some.mp h
      cases h
      rw [hasOperand, decide_eq_true_eq] at operand
      have room : f.base + f.nLocals ≤ (m.pop.write m.top (f.slotStorage slot)).running.count := by
        rw [write_count]
        exact Nat.le_sub_one_of_lt operand
      split
      · next isKept => exact same (write_waiting ..) rfl (f_ok.keep_some named isKept _) rfl rfl room
      · exact same (write_waiting ..) rfl f_ok rfl rfl room
    · cases h
  | clear slot =>
    simp only [Machine.act] at h
    split at h
    · next name named =>
      obtain ⟨-, h⟩ := Option.ite_none_right_eq_some.mp h
      cases h
      refine same (write_waiting ..) rfl (f_ok.keep_none slot) rfl rfl ?_
      exact layout.1.trans (le_of_eq (write_count ..).symm)
    · cases h
  | forget slot =>
    cases h
    exact same rfl rfl (f_ok.keep_none slot) rfl rfl layout.1
  | unset slot =>
    simp only [Machine.act] at h
    split at h
    · cases h
      refine same (write_waiting ..) ((write_frames ..).trans running) f_ok rfl rfl ?_
      exact layout.1.trans (le_of_eq (write_count ..).symm)
    · cases h
  | bindGlobal slot =>
    simp only [Machine.act] at h
    split at h
    · next name named =>
      cases h
      exact same rfl rfl (f_ok.bindGlobal named) rfl rfl layout.1
    · cases h
  | staticInit slot =>
    simp only [Machine.act] at h
    split at h
    · next name named =>
      cases h
      exact same rfl rfl (f_ok.staticInit named) rfl rfl layout.1
    · cases h
  | call function locals base values =>
    obtain ⟨room, h⟩ := Option.ite_none_right_eq_some.mp h
    cases h
    refine ok.of_running rfl ⟨?_, ?_⟩
    · intro g listed
      rcases mem_cons.mp listed with rfl | listed
      · exact Frame.ok_enter ..
      · exact ok.running.frames g listed
    · refine ⟨le_rfl, ?_⟩
      rw [running]
      exact ⟨room.1, layout.2⟩
  | leave =>
    cases h
    exact ok.of_running rfl ⟨rest_ok, layout.2⟩
  | execute function locals =>
    cases h
    intro i listed
    rcases mem_cons.mp listed with rfl | listed
    · refine ⟨?_, le_of_eq (zero_add _), trivial⟩
      intro g listed
      rw [mem_singleton.mp listed]
      exact Frame.ok_enter ..
    · exact ok i listed
  | finish => cases h

/-- An action is one of the running frame, or the interpreter that has waited longest goes on. -/
theorem step_cases (h : m.step action = some m') :
    (∃ i waiting, action = .finish ∧ m.waiting = i :: waiting ∧ m' = { m with running := i, waiting := waiting }) ∨
      ∃ f frames, m.running.frames = f :: frames ∧ m.act f frames action = some m' := by
  unfold step at h
  split at h
  · next below =>
    cases h
    exact .inl ⟨_, _, rfl, below, rfl⟩
  · next f frames running _ => exact .inr ⟨f, frames, running, h⟩
  · cases h

theorem Ok.step (ok : m.Ok) (h : m.step action = some m') : m'.Ok := by
  rcases step_cases h with ⟨i, waiting, -, below, rfl⟩ | ⟨f, frames, running, h⟩
  · intro j listed
    apply ok.waiting
    rw [below]
    exact listed
  · exact ok.act running h

/-- What a frame keeps outlasts a write of the running frame exactly if it keeps no other value in a global
under the written name. -/
theorem holds_write_iff (f_ok : f.Ok) (named : f.nameAt slot = some name) (g_ok : g.Ok) {stack stack' : Nat → Option V}
    (holds : m.Holds stack g) (same : ∀ j, g.base ≤ j → j < g.base + g.nLocals → stack' j = stack j) :
    (m.write value (f.slotStorage slot)).Holds stack' g ↔
      (f.allGlobals = true → g.allGlobals = true → ∀ s kept, g.nameAt s = f.nameAt slot → g.kept s = some kept →
        kept = value) := by
  have written : ∀ s kept, g.kept s = some kept → _ := fun s kept g_kept =>
    @read_write_kept _ m f g slot value name f_ok named g_ok s kept g_kept stack stack' same
  constructor
  · intro holds' f_globals g_globals s kept names g_kept
    rw [← holds' s kept g_kept, written s kept g_kept, if_pos ⟨f_globals, g_globals, names⟩]
  · intro harmless s kept g_kept
    rw [written s kept g_kept]
    split
    · next clash => exact (harmless clash.1 clash.2.1 s kept clash.2.2 g_kept).symm
    · exact holds s kept g_kept

/-- What all other frames keep outlasts a write of the running frame exactly if none keeps another value in a
global under the written name. -/
theorem intact_write_iff (ok : m.Ok) (intact : m.Intact) (running : m.running.frames = f :: frames)
    (named : f.nameAt slot = some name) {f' : Frame V}
    (holds : (m.write value (f.slotStorage slot)).Holds (m.write value (f.slotStorage slot)).running.stack f') :
    ((m.write value (f.slotStorage slot)).withFrames (f' :: frames)).Intact ↔
      (f.allGlobals = true → ∀ g, g ∈ frames ∨ (∃ i ∈ m.waiting, g ∈ i.frames) → g.allGlobals = true →
        ∀ s kept, g.nameAt s = f.nameAt slot → g.kept s = some kept → kept = value) := by
  have f_listed : f ∈ m.running.frames := by
    rw [running]
    exact .head _
  have f_ok := ok.running.frames f f_listed
  have layout := ok.running.layout
  rw [running] at layout
  -- the frames of the same interpreter lie below what is written to the stack
  have below : ∀ g ∈ frames, ∀ j, g.base ≤ j → j < g.base + g.nLocals →
      (m.write value (f.slotStorage slot)).running.stack j = m.running.stack j := by
    intro g listed j _ high
    have := layout.2.below listed
    rw [Frame.slotStorage]
    split
    · rfl
    · split
      · rfl
      · exact update_of_ne (by omega) ..
  have of_frames : ∀ g ∈ frames, _ := fun g listed =>
    have g_listed : g ∈ m.running.frames := running ▸ mem_cons_of_mem f listed
    @holds_write_iff _ m f g slot value name f_ok named (ok.running.frames g g_listed) _ _
      (intact _ (.head _) g g_listed) (below g listed)
  have of_waiting : ∀ i ∈ m.waiting, ∀ g ∈ i.frames, _ := fun i waits g listed =>
    @holds_write_iff _ m f g slot value name f_ok named ((ok.waiting waits).frames g listed) i.stack i.stack
      (intact i (.tail _ waits) g listed) fun _ _ _ => rfl
  constructor
  · intro intact' f_globals g listed g_globals
    rcases listed with listed | ⟨i, waits, listed⟩
    · exact (of_frames g listed).mp (intact' _ (.head _) g (.tail _ listed)) f_globals g_globals
    · have waits' : i ∈ ((m.write value (f.slotStorage slot)).withFrames (f' :: frames)).interpreters := by
        apply mem_cons_of_mem
        exact (write_waiting m value (f.slotStorage slot)).symm ▸ waits
      exact (of_waiting i waits g listed).mp (intact' i waits' g listed) f_globals g_globals
  · intro harmless i listed g g_listed
    rcases mem_cons.mp listed with rfl | listed
    · rcases mem_cons.mp g_listed with rfl | g_listed
      · exact holds
      · exact (of_frames g g_listed).mpr fun f_globals g_globals => harmless f_globals g (.inl g_listed) g_globals
    · have waits : i ∈ m.waiting := (write_waiting m value (f.slotStorage slot)) ▸ listed
      exact (of_waiting i waits g g_listed).mpr fun f_globals g_globals =>
        harmless f_globals g (.inr ⟨i, waits, g_listed⟩) g_globals

theorem Holds.write_ne (holds : m.Holds m.running.stack f) (f_ok : f.Ok) (named : f.nameAt slot = some name) {t : Nat}
    {kept : Option V} (f_kept : f.kept t = some kept) (apart : t ≠ slot) :
    (m.write value (f.slotStorage slot)).read (m.write value (f.slotStorage slot)).running.stack (f.slotStorage t) =
      kept :=
  (read_write_ne m value (f_ok.slotStorage_ne f_kept named apart)).trans (holds t kept f_kept)

theorem Holds.write (holds : m.Holds m.running.stack f) (f_ok : f.Ok) (named : f.nameAt slot = some name)
    (visible : name.isKept = false) :
    (m.write value (f.slotStorage slot)).Holds (m.write value (f.slotStorage slot)).running.stack f := by
  intro t kept f_kept
  apply holds.write_ne f_ok named f_kept
  rintro rfl
  obtain ⟨made, there, isKept⟩ := f_ok.keeps t kept f_kept
  rw [named, Option.some.injEq] at there
  rw [there, isKept] at visible
  cases visible

theorem Holds.write_keep (holds : m.Holds m.running.stack f) (f_ok : f.Ok) (named : f.nameAt slot = some name) :
    (m.write value (f.slotStorage slot)).Holds (m.write value (f.slotStorage slot)).running.stack
      (f.keep slot (some value)) := by
  intro t kept f_kept
  rw [Frame.keep_kept] at f_kept
  by_cases here : t = slot
  · rw [here, update_self, Option.some.injEq] at f_kept
    rw [here, ← f_kept]
    exact read_write_self m value (f.slotStorage slot)
  · rw [update_of_ne here] at f_kept
    exact holds.write_ne f_ok named f_kept here

theorem Holds.write_forget (holds : m.Holds m.running.stack f) (f_ok : f.Ok) (named : f.nameAt slot = some name) :
    (m.write value (f.slotStorage slot)).Holds (m.write value (f.slotStorage slot)).running.stack (f.keep slot none) := by
  intro t kept f_kept
  obtain ⟨here, f_kept⟩ := Frame.kept_of_keep_none f_kept
  exact holds.write_ne f_ok named f_kept here

theorem harmless_iff (running : m.running.frames = f :: frames) (stores : m.stores action = some (slot, value)) :
    m.Harmless action ↔ (f.allGlobals = true → ∀ g, g ∈ frames ∨ (∃ i ∈ m.waiting, g ∈ i.frames) → g.allGlobals = true →
        ∀ s kept, g.nameAt s = f.nameAt slot → g.kept s = some kept → kept = value) := by
  constructor
  · intro harmless f_globals
    exact harmless f frames running f_globals slot value stores
  · intro harmless f' frames' running' f_globals slot' value' stores'
    obtain ⟨rfl, rfl⟩ := cons.inj (running.symm.trans running')
    obtain ⟨rfl, rfl⟩ := Prod.mk.inj (Option.some.inj (stores.symm.trans stores'))
    exact harmless f_globals

theorem harmless_of_none (stores : m.stores action = none) : m.Harmless action := by
  intro f frames _ _ slot value stores'
  rw [stores] at stores'
  cases stores'

theorem Intact.pop (intact : m.Intact) (ok : m.Ok) : m.pop.Intact :=
  intact.of_running ok rfl rfl fun g listed => intact _ (.head _) g listed

theorem Ok.unkept (ok : m.Ok) (running : m.running.frames = f :: frames) {x : Identifier}
    (named : f.nameAt slot = some (.program x)) (g : Frame V)
    (listed : g ∈ frames ∨ (∃ i ∈ m.waiting, g ∈ i.frames)) (_ : g.allGlobals = true) (s : Nat) (kept : Option V)
    (names : g.nameAt s = f.nameAt slot) (g_kept : g.kept s = some kept) : kept = value := by
  have g_ok : g.Ok := by
    rcases listed with listed | ⟨i, waits, listed⟩
    · exact ok.running.frames g (running ▸ mem_cons_of_mem f listed)
    · exact (ok.waiting waits).frames g listed
  exact absurd (names.trans named) (g_ok.kept_madeUp g_kept x)

theorem Intact.bind (intact : m.Intact) (ok : m.Ok) (running : m.running.frames = f :: frames) {x : Identifier}
    (named : f.nameAt slot = some (.program x)) {f' : Frame V} (f'_ok : f'.Ok) (locals : f'.locals = f.locals)
    (base : f'.base = f.base) (allGlobals : f'.allGlobals = f.allGlobals) (kept : f'.kept = f.kept) :
    ((m.write none (.stack (f.base + slot))).withFrames (f' :: frames)).Intact := by
  have f_listed : f ∈ m.running.frames := by
    rw [running]
    exact .head _
  have layout := ok.running.layout
  rw [running] at layout
  refine intact.of_running ok rfl rfl fun g listed => ?_
  rcases mem_cons.mp listed with rfl | listed
  · intro t value f_kept
    rw [kept] at f_kept
    have f_ok := ok.running.frames f f_listed
    have apart : t ≠ slot := by
      rintro rfl
      exact f_ok.kept_madeUp f_kept x named
    have same : g.slotStorage t = f.slotStorage t := by
      rw [f'_ok.slotStorage_kept (kept ▸ f_kept), f_ok.slotStorage_kept f_kept, Frame.key, Frame.nameAt, allGlobals,
        base, locals]
      rfl
    have elsewhere : f.slotStorage t ≠ .stack (f.base + slot) := by
      rw [f_ok.slotStorage_kept f_kept]
      split
      · exact Storage.noConfusion
      · intro same
        have := Storage.stack.inj same
        omega
    rw [same]
    exact (read_write_ne m none elsewhere).trans (intact _ (.head _) f f_listed t value f_kept)
  · have g_listed : g ∈ m.running.frames := running ▸ mem_cons_of_mem f listed
    refine (intact _ (.head _) g g_listed).congr (ok.running.frames g g_listed) rfl fun j _ high => ?_
    have := layout.2.below listed
    exact update_of_ne (by omega) ..

/-- **One action leaves everything kept in place exactly if it is harmless.** -/
theorem Intact.act_iff (intact : m.Intact) (ok : m.Ok) (running : m.running.frames = f :: frames)
    (h : m.act f frames action = some m') : m'.Intact ↔ m.Harmless action := by
  have f_listed : f ∈ m.running.frames := by
    rw [running]
    exact .head _
  have f_ok := ok.running.frames f f_listed
  have holds : m.Holds m.running.stack f := intact _ (.head _) f f_listed
  have layout := ok.running.layout
  -- frames of the interpreter that runs, below its operands
  have old : ∀ g ∈ m.running.frames, g.base + g.nLocals ≤ m.running.count := fun g listed => layout.below listed
  have rest : ∀ g ∈ frames, g ∈ m.running.frames := fun g listed => running ▸ mem_cons_of_mem f listed
  rw [running] at layout
  have above : ∀ value, ∀ j, j < m.running.count →
      update m.running.stack m.running.count value j = m.running.stack j :=
    fun value j low => update_of_ne (ne_of_lt low) ..
  cases action with
  | push value =>
    cases h
    refine iff_of_true ?_ (harmless_of_none rfl)
    exact intact.above ok rfl rfl (above value) fun g listed => .inr ⟨listed, old g listed⟩
  | pop =>
    obtain ⟨-, h⟩ := Option.ite_none_right_eq_some.mp h
    cases h
    exact iff_of_true (intact.pop ok) (harmless_of_none rfl)
  | load slot =>
    obtain ⟨-, h⟩ := Option.ite_none_right_eq_some.mp h
    cases h
    refine iff_of_true ?_ (harmless_of_none rfl)
    exact intact.above ok rfl rfl (above _) fun g listed => .inr ⟨listed, old g listed⟩
  | store slot =>
    simp only [Machine.act] at h
    split at h
    · next name named =>
      obtain ⟨operand, h⟩ := Option.ite_none_right_eq_some.mp h
      have popped : m.act f frames .pop = some m.pop := if_pos operand
      rw [harmless_iff running rfl]
      cases h
      apply intact_write_iff (ok.act running popped) (intact.pop ok) running named
      split
      · exact Holds.write_keep holds f_ok named
      · next visible => exact Holds.write holds f_ok named ((Bool.not_eq_true _).mp visible)
    · cases h
  | clear slot =>
    simp only [Machine.act] at h
    split at h
    · next name named =>
      obtain ⟨-, h⟩ := Option.ite_none_right_eq_some.mp h
      rw [harmless_iff running rfl]
      cases h
      exact intact_write_iff ok intact running named (holds.write_forget f_ok named)
    · cases h
  | forget slot =>
    cases h
    refine iff_of_true ?_ (harmless_of_none rfl)
    refine intact.of_running ok rfl rfl fun g listed => ?_
    rcases mem_cons.mp listed with rfl | listed
    · intro t kept f_kept
      exact holds t kept (Frame.kept_of_keep_none f_kept).2
    · exact intact _ (.head _) g (rest g listed)
  | unset slot =>
    simp only [Machine.act] at h
    split at h
    · next x named =>
      cases h
      refine iff_of_true ?_ (harmless_of_none rfl)
      rw [← withFrames_self ((write_frames ..).trans running)]
      exact (intact_write_iff ok intact running named (holds.write f_ok named rfl)).mpr fun _ => ok.unkept running named
    · cases h
  | bindGlobal slot =>
    simp only [Machine.act] at h
    split at h
    · next x named =>
      cases h
      exact iff_of_true (intact.bind ok running named (f_ok.bindGlobal named) rfl rfl rfl rfl) (harmless_of_none rfl)
    · cases h
  | staticInit slot =>
    simp only [Machine.act] at h
    split at h
    · next x named =>
      cases h
      exact iff_of_true (intact.bind ok running named (f_ok.staticInit named) rfl rfl rfl rfl) (harmless_of_none rfl)
    · cases h
  | call function locals base values =>
    obtain ⟨room, h⟩ := Option.ite_none_right_eq_some.mp h
    cases h
    refine iff_of_true ?_ (harmless_of_none rfl)
    have room' : Layout base (f :: frames) := ⟨room.1, layout.2⟩
    have stays : ∀ j, j < base →
        (m.call (Frame.enter function locals base false) values).running.stack j = m.running.stack j :=
      fun j low => if_neg (Nat.not_le_of_lt low)
    refine intact.above ok rfl rfl stays fun g listed => ?_
    rcases mem_cons.mp listed with rfl | listed
    · exact .inl fun _ => rfl
    · exact .inr ⟨listed, room'.below (running ▸ listed)⟩
  | leave =>
    cases h
    refine iff_of_true ?_ (harmless_of_none rfl)
    exact intact.above ok rfl rfl (fun _ _ => rfl) fun g listed => .inr ⟨rest g listed, old g (rest g listed)⟩
  | execute function locals =>
    cases h
    refine iff_of_true ?_ (harmless_of_none rfl)
    intro i listed g g_listed
    rcases mem_cons.mp listed with rfl | listed
    · rw [mem_singleton.mp g_listed]
      intro s kept g_kept
      cases g_kept
    · exact intact i listed g g_listed
  | finish => cases h

theorem Intact.step_iff (intact : m.Intact) (ok : m.Ok) (h : m.step action = some m') :
    m'.Intact ↔ m.Harmless action := by
  rcases step_cases h with ⟨i, waiting, rfl, below, rfl⟩ | ⟨f, frames, running, h⟩
  · refine iff_of_true ?_ (harmless_of_none rfl)
    intro j listed
    apply intact j
    apply mem_cons_of_mem
    rw [below]
    exact listed
  · exact intact.act_iff ok running h

/-! ## Variables -/

/-- Where two locals live in one place, one of them made up, they are one local of one frame or globals
of one name. -/
theorem Ok.unaliased (ok : m.Ok) : m.Unaliased := by
  intro k l i j i_at j_at f f_listed g g_listed slot made x named hidden in_range same
  have g_ok := (ok j (mem_of_getElem? j_at)).frames g g_listed
  obtain ⟨name, there⟩ : ∃ name, g.nameAt made = some name := ⟨_, getElem?_eq_getElem in_range⟩
  have keys : g.key made ≠ f.key slot := by
    intro equal
    rw [Frame.key_eq_iff there named, named] at equal
    exact hidden x equal
  rw [g_ok.slotStorage_madeUp hidden, Frame.slotStorage] at same
  by_cases static : f.staticMask slot = true
  · rw [if_pos static] at same
    split at same <;> cases same
  rw [if_neg static] at same
  by_cases global : (f.allGlobals || f.globalMask slot) = true
  · rw [if_pos global] at same
    split at same
    · exact absurd (Storage.global.inj same).symm keys
    · cases same
  rw [if_neg global] at same
  split at same
  · cases same
  have index := Storage.stack.inj same
  refine ⟨?_, f.base + slot, by rw [Frame.slotStorage, if_neg static, if_neg global]⟩
  rintro rfl
  rw [i_at, Option.some.injEq] at j_at
  subst j_at
  have slot_range := Frame.nameAt_lt named
  rcases (ok i (mem_of_getElem? i_at)).layout.apart f_listed g_listed with rfl | apart
  · have one : slot = made := by omega
    rw [one] at named
    exact hidden x named
  · omega

end Machine

/-! ## Runs -/

namespace Machine
variable {m m' : Machine V}

theorem ok_start (locals : LocalTable) (globals statics : List UInt8 → Option V) :
    (start locals globals statics).Ok := by
  intro i listed
  rw [mem_singleton.mp listed]
  refine ⟨?_, le_of_eq (zero_add _), trivial⟩
  intro f f_listed
  rw [mem_singleton.mp f_listed]
  exact Frame.ok_enter ..

theorem intact_start (locals : LocalTable) (globals statics : List UInt8 → Option V) :
    (start locals globals statics).Intact := by
  intro i listed f f_listed slot value kept
  rw [mem_singleton.mp listed] at f_listed
  rw [mem_singleton.mp f_listed] at kept
  cases kept

theorem run_append (m : Machine V) (before after : List (Action V)) :
    m.run (before ++ after) = (m.run before).bind fun m' => m'.run after :=
  foldlM_append

theorem run_singleton (m : Machine V) (action : Action V) : m.run [action] = m.step action := by
  rw [run, foldlM_cons]
  exact bind_pure (m.step action)

theorem Ok.run (ok : m.Ok) {actions : List (Action V)} (ran : m.run actions = some m') : m'.Ok := by
  induction actions generalizing m with
  | nil =>
    cases ran
    exact ok
  | cons action actions ih =>
    rw [Machine.run, foldlM_cons] at ran
    obtain ⟨m₁, stepped, ran⟩ := Option.bind_eq_some_iff.mp ran
    exact ih (ok.step stepped) ran

theorem Intact.reads_back (intact : m.Intact) : m.ReadsBack := by
  intro f first
  exact intact _ (.head _) f (mem_of_mem_head? first)

/-- What is kept stays in place along a run exactly if all its actions are harmless. -/
theorem Intact.run_iff (ok : m.Ok) (intact : m.Intact) {actions : List (Action V)} (ran : m.run actions = some m') :
    (∀ before m₁, before <+: actions → m.run before = some m₁ → m₁.Intact) ↔
      ∀ before action m₁, before ++ [action] <+: actions → m.run before = some m₁ → m₁.Harmless action := by
  constructor
  · intro stays before action m₁ more ran₁
    obtain ⟨after, rfl⟩ := more
    rw [append_assoc, run_append, ran₁, Option.bind_some, run_append] at ran
    obtain ⟨m₂, stepped, -⟩ := Option.bind_eq_some_iff.mp ran
    rw [run_singleton] at stepped
    have intact₁ := stays before m₁ ⟨[action] ++ after, (append_assoc ..).symm⟩ ran₁
    apply (intact₁.step_iff (ok.run ran₁) stepped).mp
    apply stays (before ++ [action]) m₂ ⟨after, rfl⟩
    rw [run_append, ran₁, Option.bind_some, run_singleton, stepped]
  · intro harmless before
    induction before using List.reverseRecOn with
    | nil =>
      intro m₁ _ ran₁
      cases ran₁
      exact intact
    | append_singleton before action ih =>
      intro m₁ more ran₁
      rw [run_append] at ran₁
      obtain ⟨m₀, ran₀, stepped⟩ := Option.bind_eq_some_iff.mp ran₁
      rw [run_singleton] at stepped
      have intact₀ := ih m₀ ((prefix_append _ _).trans more) ran₀
      exact (intact₀.step_iff (ok.run ran₀) stepped).mpr (harmless before action m₀ more ran₀)

end Machine

/-- **The compiler's locals are private along a run exactly if no top-level code stores into one that other top-level
code keeps**; and no variable ever shares one. -/
theorem temporaries_private_iff {locals : LocalTable} {globals statics : List UInt8 → Option V}
    {actions : List (Action V)} {m : Machine V} (ran : (Machine.start locals globals statics).run actions = some m) :
    (∀ before m₁, before <+: actions → (Machine.start locals globals statics).run before = some m₁ →
      m₁.Intact ∧ m₁.ReadsBack ∧ m₁.Unaliased) ↔ ∀ before action m₁, before ++ [action] <+: actions →
        (Machine.start locals globals statics).run before = some m₁ → m₁.Harmless action := by
  have ok := Machine.ok_start locals globals statics
  rw [← Machine.Intact.run_iff ok (Machine.intact_start locals globals statics) ran]
  constructor
  · intro all before m₁ more ran₁
    exact (all before m₁ more ran₁).1
  · intro stays before m₁ more ran₁
    have intact := stays before m₁ more ran₁
    exact ⟨intact, intact.reads_back, (ok.run ran₁).unaliased⟩

/-- The locals of a file that first assigns to an entry of an array: the variable, its key, the value and, in nested
arrays, the inner array. -/
def assignmentLocals (name : Identifier) : LocalTable where
  names := [.program name, .temporary 1, .temporary 2, .temporary 3]
  allocated :=
    have array := Allocated.empty.program name not_mem_nil (by simp)
    ((array.temporary (by simp)).temporary (by simp)).temporary (by simp)

/-- The hypothesis is met: a key is kept, and read. -/
theorem temporaries_private_iff_key :
    let actions : List (Action Nat) := [.push (some 10), .store 1, .load 1]
    let start := Machine.start (assignmentLocals ⟨97, [], by decide, by decide⟩) (fun _ => none) (fun _ => none)
    ∃ m, start.run actions = some m ∧
      ((∀ before m₁, before <+: actions → start.run before = some m₁ → m₁.Intact ∧ m₁.ReadsBack ∧ m₁.Unaliased) ↔
        ∀ before action m₁, before ++ [action] <+: actions → start.run before = some m₁ → m₁.Harmless action) :=
  ⟨_, rfl, temporaries_private_iff rfl⟩

/-- `$a['k'] = include 'b.php'` where the file is `$b['j'] = 1;`: the included file has cleared the key. -/
theorem include_clears_key : ¬ ∀ (locals : LocalTable) (globals statics : List UInt8 → Option Nat)
    (actions : List (Action Nat)) (m : Machine Nat),
      (Machine.start locals globals statics).run actions = some m → m.ReadsBack := by
  intro claimed
  have reads := claimed (assignmentLocals ⟨97, [], by decide, by decide⟩) (fun _ => none) (fun _ => none)
    [.push (some 10), .store 1, .execute (ascii "\x7bmain\x7d") (assignmentLocals ⟨98, [], by decide, by decide⟩),
      .push (some 20), .store 1, .push (some 1), .store 2, .load 0, .load 1, .load 2, .pop, .pop, .pop,
      .push (some 30), .store 0, .clear 3, .load 2, .clear 1, .clear 2, .pop, .leave, .finish] _ rfl
  exact absurd (reads _ rfl 1 (some 10) rfl) (by decide)

end PhpPico.Locals
