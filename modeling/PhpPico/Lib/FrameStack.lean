import Mathlib.Logic.Relation
import Mathlib.Tactic.Common

/-!
# Frames on one operand stack

Call frames share one operand stack: each has its locals at its base and its operands above them. `Assigned` gives
each position of a code the number of operands it is reached with; when all codes have such heights, no step takes
more operands than its frame has.
-/

namespace FrameStack

variable {Code : Type}

structure Machine (Code : Type) where
  locals : Code → Nat
  /-- The operands the instruction at a position takes; none where there is no instruction. -/
  takes : Code → Nat → Option Nat
  /-- Steps within the frame: how many operands are left in place of those taken, and where the
  frame goes on. -/
  moves : Code → Nat → List (Nat × Nat)
  /-- A call hands the operands taken to the callee and leaves its result; the frame goes on at
  the position given. -/
  calls : Code → Nat → Option Nat
  /-- Where an exception may be delivered. -/
  handlers : Code → Nat → Prop

structure Frame (Code : Type) where
  code : Code
  pc : Nat
  base : Nat

/-- The height of the stack and the frames, innermost first. -/
structure State (Code : Type) where
  count : Nat
  frames : List (Frame Code)

/-- One step; callees are codes of the program `P`. -/
inductive Step (m : Machine Code) (P : Code → Prop) : State Code → State Code → Prop where
  | move {count taken leaves target : Nat} {f : Frame Code} {rest : List (Frame Code)}
      (takes : m.takes f.code f.pc = some taken) (mem : (leaves, target) ∈ m.moves f.code f.pc) :
      Step m P ⟨count, f :: rest⟩ ⟨count - taken + leaves, { f with pc := target } :: rest⟩
  | call {count taken target : Nat} {f : Frame Code} {rest : List (Frame Code)} {callee : Code}
      (takes : m.takes f.code f.pc = some taken) (calls : m.calls f.code f.pc = some target)
      (known : P callee) :
      Step m P ⟨count, f :: rest⟩
        ⟨count - taken + m.locals callee,
          ⟨callee, 0, count - taken⟩ :: { f with pc := target } :: rest⟩
  | ret {count : Nat} {f g : Frame Code} {rest : List (Frame Code)} :
      Step m P ⟨count, f :: g :: rest⟩ ⟨f.base + 1, g :: rest⟩
  | unwind {count handler : Nat} {f : Frame Code} {inner rest : List (Frame Code)}
      (delivered : m.handlers f.code handler) :
      Step m P ⟨count, inner ++ f :: rest⟩
        ⟨f.base + m.locals f.code, { f with pc := handler } :: rest⟩
  | stop {s : State Code} : Step m P s ⟨0, []⟩

/-- The position `pc` has the height `n`, or no instruction stands there. -/
def Machine.Agrees (m : Machine Code) (h : Nat → Option Nat) (c : Code) (pc n : Nat) : Prop :=
  h pc = some n ∨ m.takes c pc = none

/-- A height for every position of a code that is reached: none on entry and where exceptions are
delivered, enough for each instruction, and the same along all ways to a position. -/
structure Machine.Assigned (m : Machine Code) (c : Code) (h : Nat → Option Nat) : Prop where
  entry : m.Agrees h c 0 0
  handler : ∀ pc, m.handlers c pc → m.Agrees h c pc 0
  takes : ∀ pc n taken, h pc = some n → m.takes c pc = some taken → taken ≤ n
  move : ∀ pc n taken leaves target, h pc = some n → m.takes c pc = some taken →
    (leaves, target) ∈ m.moves c pc → m.Agrees h c target (n - taken + leaves)
  call : ∀ pc n taken target, h pc = some n → m.takes c pc = some taken →
    m.calls c pc = some target → m.Agrees h c target (n - taken + 1)

/-- The frames below a base wait for a result: with it, each has the height of its position. -/
def Suspended (m : Machine Code) (H : Code → Nat → Option Nat) : Nat → List (Frame Code) → Prop
  | _, [] => True
  | base, g :: more =>
    (∃ n, base = g.base + m.locals g.code + n ∧ m.Agrees (H g.code) g.code g.pc (n + 1)) ∧ Suspended m H g.base more

/-- The running frame has the height of its position, and the others wait for results. -/
def Heights (m : Machine Code) (H : Code → Nat → Option Nat) : Nat → List (Frame Code) → Prop
  | _, [] => True
  | count, f :: rest =>
    (∃ n, count = f.base + m.locals f.code + n ∧ m.Agrees (H f.code) f.code f.pc n) ∧ Suspended m H f.base rest

variable {m : Machine Code} {P : Code → Prop} {H : Code → Nat → Option Nat}

/-- Where an instruction stands, agreeing is having the height. -/
theorem Machine.Agrees.assigned {h : Nat → Option Nat} {c : Code} {pc n taken : Nat}
    (agrees : m.Agrees h c pc n) (takes : m.takes c pc = some taken) : h pc = some n := by
  rcases agrees with assigned | nothing
  · exact assigned
  · rw [takes] at nothing
    cases nothing

theorem Suspended.resume {base : Nat} {g : Frame Code} {more : List (Frame Code)}
    (waiting : Suspended m H base (g :: more)) : Heights m H (base + 1) (g :: more) := by
  obtain ⟨⟨n, rfl, agrees⟩, below⟩ := waiting
  exact ⟨⟨n + 1, by omega, agrees⟩, below⟩

theorem Suspended.of_append {inner rest : List (Frame Code)} {f : Frame Code} {base : Nat}
    (waiting : Suspended m H base (inner ++ f :: rest)) : Suspended m H f.base rest := by
  induction inner generalizing base with
  | nil => exact waiting.2
  | cons g inner ih => exact ih waiting.2

theorem Heights.of_append {inner rest : List (Frame Code)} {f : Frame Code} {count : Nat}
    (heights : Heights m H count (inner ++ f :: rest)) : Suspended m H f.base rest := by
  cases inner with
  | nil => exact heights.2
  | cons g inner => exact heights.2.of_append

theorem Heights.takes (assigned : ∀ c, P c → m.Assigned c (H c)) {count taken : Nat}
    {f : Frame Code} {rest : List (Frame Code)} (known : P f.code)
    (heights : Heights m H count (f :: rest)) (takes : m.takes f.code f.pc = some taken) :
    f.base + m.locals f.code + taken ≤ count := by
  obtain ⟨⟨n, rfl, agrees⟩, -⟩ := heights
  have := (assigned _ known).takes _ _ _ (agrees.assigned takes) takes
  omega

/-- **One step keeps the heights.** -/
theorem Heights.step (assigned : ∀ c, P c → m.Assigned c (H c)) {s s' : State Code}
    (codes : ∀ f ∈ s.frames, P f.code) (heights : Heights m H s.count s.frames) (step : Step m P s s') :
    (∀ f ∈ s'.frames, P f.code) ∧ Heights m H s'.count s'.frames := by
  cases step with
  | @move count taken leaves target f rest takes mem =>
    have known : P f.code := codes f (.head _)
    have enough := heights.takes assigned known takes
    obtain ⟨⟨n, hcount, agrees⟩, waiting⟩ := heights
    have next := (assigned _ known).move _ _ _ _ _ (agrees.assigned takes) takes mem
    refine ⟨fun g hg => ?_, ⟨n - taken + leaves, ?_, next⟩, waiting⟩
    · rcases List.mem_cons.mp hg with rfl | hg
      · exact known
      · exact codes g (.tail _ hg)
    · dsimp only at hcount enough ⊢
      omega
  | @call count taken target f rest callee takes calls knownCallee =>
    have known : P f.code := codes f (.head _)
    have enough := heights.takes assigned known takes
    obtain ⟨⟨n, hcount, agrees⟩, waiting⟩ := heights
    have next := (assigned _ known).call _ _ _ _ (agrees.assigned takes) takes calls
    have suspended : Suspended m H (count - taken) ({ f with pc := target } :: rest) := by
      refine ⟨⟨n - taken, ?_, next⟩, waiting⟩
      dsimp only at hcount enough ⊢
      omega
    constructor
    · intro g hg
      rcases List.mem_cons.mp hg with rfl | hg
      · exact knownCallee
      · rcases List.mem_cons.mp hg with rfl | hg
        · exact known
        · exact codes g (.tail _ hg)
    · exact ⟨⟨0, rfl, (assigned _ knownCallee).entry⟩, suspended⟩
  | ret => exact ⟨fun g hg => codes g (.tail _ hg), heights.2.resume⟩
  | @unwind count handler f inner rest delivered =>
    have known : P f.code := codes f (List.mem_append_right _ (.head _))
    refine ⟨fun g hg => ?_, ⟨0, rfl, (assigned _ known).handler _ delivered⟩, heights.of_append⟩
    rcases List.mem_cons.mp hg with rfl | hg
    · exact known
    · exact codes g (List.mem_append_right _ (.tail _ hg))
  | stop => exact ⟨fun g hg => (nomatch hg), trivial⟩

/-- **Every run keeps the heights.** -/
theorem Heights.run (assigned : ∀ c, P c → m.Assigned c (H c)) {s s' : State Code}
    (codes : ∀ f ∈ s.frames, P f.code) (heights : Heights m H s.count s.frames)
    (run : Relation.ReflTransGen (Step m P) s s') : (∀ f ∈ s'.frames, P f.code) ∧ Heights m H s'.count s'.frames := by
  induction run with
  | refl => exact ⟨codes, heights⟩
  | tail _ last ih => exact Heights.step assigned ih.1 ih.2 last

end FrameStack
