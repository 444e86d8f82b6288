import PhpPico.Lib.FrameStack
import PhpPico.Pbc.Load
import PhpPico.Vm.Machine

/-!
# Operand heights of running code

The virtual machine, reduced to stack heights. When every proto of the program has operand heights, no instruction of
any run takes an operand from below the operand base of its frame. The loader does not ask for heights: it accepts an
image whose first instruction pops a local.
-/

namespace PhpPico
open List
open FrameStack (Machine)

variable {cfg : Config} {Value : Type}

/-- The virtual machine without its values. -/
def stackMachine (cfg : Config) : Machine (Proto cfg) where
  locals := Proto.nLocals
  takes p pc :=
    match fetch cfg p.code pc with
    | .ok (i, _) => some i.takes
    | .error _ => none
  moves p pc :=
    match fetch cfg p.code pc with
    | .ok (i, next) => i.moves.filterMap fun (leaves, jumps) =>
        (i.target p.code next jumps).map (leaves, ·)
    | .error _ => []
  calls p pc :=
    match fetch cfg p.code pc with
    | .ok (i, next) => if i.calls then some next else none
    | .error _ => none
  handlers p pc := ∃ entry ∈ p.catches, entry.handlerPc.toNat = pc

/-- A height assignment of a proto. -/
abbrev Proto.Heights (p : Proto cfg) (h : Nat → Option Nat) : Prop :=
  (stackMachine cfg).Assigned p h

def Frame.shape (f : Frame cfg) : FrameStack.Frame (Proto cfg) := ⟨f.proto, f.pc, f.base⟩

def Vm.shape (s : Vm cfg Value) : FrameStack.State (Proto cfg) := ⟨s.count, s.frames.map Frame.shape⟩

/-- The protos of a program. -/
def protosOf (program : Module cfg → Prop) (p : Proto cfg) : Prop :=
  ∃ m, program m ∧ p ∈ m.protos

variable {program : Module cfg → Prop} {i : Instr} {next : Nat}

variable {p : Proto cfg} {pc : Nat} {s s' : Vm cfg Value}

theorem takes_of_fetch (fetched : fetch cfg p.code pc = .ok (i, next)) :
    (stackMachine cfg).takes p pc = some i.takes := by
  simp only [stackMachine, fetched]

theorem mem_moves_of_fetch {leaves target : Nat} {jumps : Bool} (fetched : fetch cfg p.code pc = .ok (i, next))
    (mem : (leaves, jumps) ∈ i.moves) (leads : i.target p.code next jumps = some target) :
    (leaves, target) ∈ (stackMachine cfg).moves p pc := by
  simp only [stackMachine, fetched]
  apply mem_filterMap.mpr
  exact ⟨(leaves, jumps), mem, by rw [leads]; rfl⟩

theorem calls_of_fetch (fetched : fetch cfg p.code pc = .ok (i, next))
    (calls : i.calls = true) : (stackMachine cfg).calls p pc = some next := by
  simp only [stackMachine, fetched, calls, if_true]

/-- A handler found belongs to some frame, and the frames inside it are given up. -/
theorem throwException_eq_some {isA : PString → Bool} {throwPc : Nat} {frames outer : List (Frame cfg)}
    {entry : PCatch} {g : Frame cfg} (thrown : throwException isA throwPc frames = some (entry, g, outer)) :
    entry ∈ g.proto.catches ∧ ∃ inner, frames = inner ++ g :: outer := by
  induction frames generalizing throwPc with
  | nil => cases thrown
  | cons f rest ih =>
    simp only [throwException] at thrown
    split at thrown
    · rename_i found hfound
      split at thrown
      · cases thrown
      · cases thrown
        exact ⟨mem_of_find?_eq_some hfound, [], rfl⟩
    · obtain ⟨mem, inner, rfl⟩ := ih thrown
      exact ⟨mem, f :: inner, rfl⟩

/-! ## Simulation -/

theorem Effect.shape {f : Frame cfg} {rest : List (Frame cfg)} (top : s.frames = f :: rest)
    (fetched : f.fetch = .ok (i, next)) (effect : Effect program i next s s') :
    FrameStack.Step (stackMachine cfg) (protosOf program) s.shape s'.shape := by
  cases effect with
  | move mem target enough same =>
    cases top
    exact .move (takes_of_fetch fetched) (mem_moves_of_fetch fetched mem target)
  | enter calls known mem enough same =>
    cases top
    exact .call (takes_of_fetch fetched) (calls_of_fetch fetched calls) ⟨_, known, mem⟩
  | leave returns enough same =>
    cases top
    exact .ret

theorem Delivered.shape {throwPc : Nat} (delivered : Delivered throwPc s s') :
    FrameStack.Step (stackMachine cfg) (protosOf program) s.shape s'.shape := by
  obtain ⟨thrown, same⟩ := delivered
  obtain ⟨mem, inner, rfl⟩ := throwException_eq_some thrown
  simp only [Vm.shape, map_append, map_cons]
  exact .unwind ⟨_, mem, rfl⟩

/-- **A step of the virtual machine is steps of the machine of frames.** -/
theorem Step.shape (step : Step program s s') :
    Relation.ReflTransGen (FrameStack.Step (stackMachine cfg) (protosOf program)) s.shape s'.shape := by
  cases step with
  | run top fetched effect => exact .single (effect.shape top fetched)
  | raise top fetched partly delivered =>
    have last : FrameStack.Step (stackMachine cfg) (protosOf program) _ _ := delivered.shape
    cases partly with
    | cut same => exact .single last
    | done effect => exact .tail (.single (effect.shape top fetched)) last
  | fault top fetched delivered => exact .single (Delivered.shape delivered)
  | stop => exact .single .stop

theorem Vm.Run.shape (run : Vm.Run program s s') :
    Relation.ReflTransGen (FrameStack.Step (stackMachine cfg) (protosOf program)) s.shape s'.shape := by
  induction run with
  | refl => exact .refl
  | tail _ last ih => exact ih.trans last.shape

theorem Vm.Initial.heights {H : Proto cfg → Nat → Option Nat}
    (assigned : ∀ p, protosOf program p → p.Heights (H p)) (start : Vm.Initial program s) :
    (∀ f ∈ s.shape.frames, protosOf program f.code) ∧
      FrameStack.Heights (stackMachine cfg) H s.shape.count s.shape.frames := by
  obtain ⟨slots, m, p, known, mem, rfl⟩ := start
  have entry := (assigned p ⟨m, known, mem⟩).entry
  refine ⟨fun f hf => ?_, ⟨0, ?_, entry⟩, trivial⟩
  · cases mem_singleton.mp hf
    exact ⟨m, known, mem⟩
  · show p.nLocals = 0 + p.nLocals + 0
    omega

/-- **No instruction of a program with operand heights takes operands from below the operand base
of its frame**, in any state of any run. -/
theorem takes_above_locals (heights : ∀ m, program m → ∀ p ∈ m.protos, ∃ h, p.Heights h) {s s' : Vm cfg Value}
    (start : Vm.Initial program s) (run : Vm.Run program s s') {f : Frame cfg}
    {rest : List (Frame cfg)} (top : s'.frames = f :: rest) (fetched : f.fetch = .ok (i, next)) :
    f.operandBase + i.takes ≤ s'.count := by
  classical
  have each : ∀ p, ∃ h, protosOf program p → p.Heights h := by
    intro p
    by_cases known : protosOf program p
    · obtain ⟨m, hm, mem⟩ := known
      obtain ⟨h, assigned⟩ := heights m hm p mem
      exact ⟨h, fun _ => assigned⟩
    · exact ⟨fun _ => none, fun hp => absurd hp known⟩
  choose H assigned using each
  obtain ⟨codes, initial⟩ := start.heights assigned
  obtain ⟨known, reached⟩ := initial.run assigned codes run.shape
  have shape : s'.shape.frames = f.shape :: rest.map Frame.shape := by
    simp only [Vm.shape, top, map_cons]
  rw [shape] at known reached
  exact reached.takes assigned (known _ (.head _)) (takes_of_fetch fetched)

/-! ## Two images -/

/-- A build with 32-bit integers and neither floats, line tables nor type checks. -/
def plainBuild : Config where
  int64 := false
  useDouble := false
  enableFloat := false
  lineInfo := false
  typecheck := false

/-- An entry proto with one local. -/
def entryProto (instrs : List Instr) : Proto plainBuild :=
  { (Proto.new ⟨ascii "m", Nat.le_of_ble_eq_true rfl⟩ : Proto plainBuild) with
    role := .main
    code := encodeAll instrs
    locals := [⟨ascii "a", Nat.le_of_ble_eq_true rfl⟩]
    locals_le := Nat.le_of_ble_eq_true rfl }

def imageOf (p : Proto plainBuild) : List UInt8 := (writeImage ⟨[p]⟩).getD []

/-- Code that pushes a value before it pops one. -/
def balancedProto : Proto plainBuild := entryProto [.plain .loadNull, .plain .pop, .plain .halt]

theorem balancedProto_fetch : fetch plainBuild balancedProto.code 0 = .ok (.plain .loadNull, 1) ∧
      fetch plainBuild balancedProto.code 1 = .ok (.plain .pop, 2) ∧
      fetch plainBuild balancedProto.code 2 = .ok (.plain .halt, 3) := by
  decide +kernel

theorem balancedProto_heights : balancedProto.Heights fun pc => [0, 1, 0][pc]? := by
  obtain ⟨f0, f1, f2⟩ := balancedProto_fetch
  have low (pc n : Nat) (assigned : [0, 1, 0][pc]? = some n) : pc = 0 ∨ pc = 1 ∨ pc = 2 := by
    have := (List.getElem?_eq_some_iff.mp assigned).1
    simp only [length_cons, length_nil] at this
    omega
  constructor
  · exact .inl rfl
  · rintro pc ⟨entry, mem, -⟩
    cases mem
  · intro pc n taken assigned takes
    rcases low pc n assigned with rfl | rfl | rfl <;> cases assigned <;>
      simp only [takes_of_fetch f0, takes_of_fetch f1, takes_of_fetch f2, Option.some.injEq] at takes <;>
      subst takes <;> decide
  · intro pc n taken leaves target assigned takes mem
    rcases low pc n assigned with rfl | rfl | rfl <;> cases assigned
    · simp only [stackMachine, f0] at mem takes
      cases takes
      cases mem_singleton.mp mem
      exact .inl rfl
    · simp only [stackMachine, f1] at mem takes
      cases takes
      cases mem_singleton.mp mem
      exact .inl rfl
    · simp only [stackMachine, f2] at mem
      cases mem
  · intro pc n taken target assigned takes calls
    rcases low pc n assigned with rfl | rfl | rfl
    · simp only [stackMachine, f0] at calls
      cases calls
    · simp only [stackMachine, f1] at calls
      cases calls
    · simp only [stackMachine, f2] at calls
      cases calls

theorem balanced_first : Step (· = ⟨[balancedProto]⟩) (Vm.start (fun _ => ()) ⟨[balancedProto]⟩ balancedProto)
      ⟨fun _ => (), 2, [⟨⟨[balancedProto]⟩, balancedProto, 1, 0⟩]⟩ := by
  refine .run rfl balancedProto_fetch.1 ?_
  show Effect _ _ _ ⟨_, 1, [⟨⟨[balancedProto]⟩, balancedProto, 0, 0⟩]⟩
    ⟨_, 1 - 0 + 1, [{ (⟨⟨[balancedProto]⟩, balancedProto, 0, 0⟩ : Frame plainBuild) with pc := 1 }]⟩
  exact .move (mem_singleton.mpr rfl) rfl (Nat.zero_le _) fun _ _ _ => rfl

theorem takes_above_locals_balanced : load plainBuild (imageOf balancedProto) = .ok ⟨[balancedProto]⟩ ∧
      (⟨⟨[balancedProto]⟩, balancedProto, 1, 0⟩ : Frame plainBuild).operandBase + (Instr.plain .pop).takes ≤ 2 := by
  obtain ⟨f0, f1, -⟩ := balancedProto_fetch
  let s : Vm plainBuild Unit := Vm.start (fun _ => ()) ⟨[balancedProto]⟩ balancedProto
  have start : Vm.Initial (· = ⟨[balancedProto]⟩) s := ⟨_, _, balancedProto, rfl, mem_singleton.mpr rfl, rfl⟩
  refine ⟨by decide +kernel, ?_⟩
  apply takes_above_locals (fun m' hm p hp => ?_) start (.single balanced_first) rfl f1
  subst hm
  cases mem_singleton.mp hp
  exact ⟨_, balancedProto_heights⟩

/-- Code that pops its local. -/
def poppingProto : Proto plainBuild := entryProto [.plain .pop, .plain .halt]

/-- **The loader accepts code that pops a local**: its first instruction takes an operand its frame
does not have. -/
theorem accepted_image_pops_local : load plainBuild (imageOf poppingProto) = .ok ⟨[poppingProto]⟩ ∧
      ∃ f : Frame plainBuild, f.fetch = .ok (.plain .pop, 1) ∧
        (Vm.start (fun _ => ()) ⟨[poppingProto]⟩ poppingProto).frames = [f] ∧
        ¬ f.operandBase + (Instr.plain .pop).takes ≤ (Vm.start (fun _ => ()) ⟨[poppingProto]⟩ poppingProto).count :=
  ⟨by decide +kernel, ⟨⟨[poppingProto]⟩, poppingProto, 0, 0⟩, by decide +kernel, rfl, show ¬ 0 + 1 + 1 ≤ 1 by decide⟩

end PhpPico
