import PhpPico.Proto
import PhpPico.Vm.Machine

/-!
# Jumps and their displacements

The compiler emits a jump with an empty displacement, counted from behind the instruction, and patches it when the
target is known. `record_loop_jump` looks whether the table of loop exits is full before it compiles the `finally`
blocks that are left, which may fill it.
-/

namespace PhpPico.Jumps
open List ByteLayout

/-! ## The code -/

/-- The instructions with a displacement. -/
inductive Kind where
  | jump (op : JumpOp)
  | staticInit (slot : UInt8)
  | feNext (hasKey : UInt8)

def Kind.instr : Kind → Int16 → Instr
  | .jump op, rel => .jump op rel
  | .staticInit slot, rel => .staticInit slot rel
  | .feNext hasKey, rel => .feNext rel hasKey

/-- What is emitted before the displacement. -/
def Kind.head : Kind → List UInt8
  | .jump op => [(Opcode.jump op).toByte]
  | .staticInit slot => [Opcode.staticInit.toByte, slot]
  | .feNext _ => [Opcode.feNext.toByte]

/-- What is emitted behind it. -/
def Kind.tail : Kind → List UInt8
  | .feNext hasKey => [hasKey]
  | _ => []

/-- `patch_foreach_jump`. -/
def patchForeachJump (code : List UInt8) (operand target : Nat) : Option (List UInt8) :=
  if operand + 3 ≤ code.length then
    let relative : Int := (target : Int) - (operand + 3 : Nat)
    if -32768 ≤ relative ∧ relative ≤ 32767 then some (blit code operand (lei16 (Int16.ofInt relative))) else none
  else none

/-- The function that patches a placeholder. -/
def Kind.patch : Kind → List UInt8 → Nat → Nat → Option (List UInt8)
  | .feNext _ => patchForeachJump
  | _ => patchI16

/-- A placeholder. -/
structure Placed where
  kind : Kind
  start : Nat

/-- The position of the displacement. -/
def Placed.operand (p : Placed) : Nat := p.start + p.kind.head.length

/-- The position behind the instruction. -/
def Placed.next (p : Placed) : Nat := p.operand + 2 + p.kind.tail.length

/-- `jump_record`; the source names the placeholder by its operand. -/
structure JumpRecord where
  place : Nat
  loopIndex : Nat
  isContinue : Bool
  patched : Bool

/-- The generator of a function: its code, its loop exits, the calls of `record_loop_jump` in progress, all its
placeholders, and the targets that were meant. -/
structure Generator where
  code : List UInt8
  failed : Bool
  jumps : List JumpRecord
  exits : List (Nat × Bool)
  placed : List Placed
  meant : Nat → Option Nat

/-- What the compiler does with its code. Targets are positions that the code has reached. -/
inductive Event where
  | bytes (bytes : List UInt8) (memory : Bool)
  | place (kind : Kind) (memory : Bool)
  | patch (place target : Nat)
  /-- `record_loop_jump` is called, and looks at the table. -/
  | exit (index : Nat) (isContinue : Bool)
  /-- It has compiled the `finally` blocks, and makes the record. -/
  | record (memory : Bool)
  | loopEnd (index : Nat) (isSwitch : Bool) (breakTarget continueTarget : Nat)

/-- The virtual machine reads the instruction and, where it jumps, goes on at the target. -/
def Placed.LeadsTo (cfg : Config) (code : List UInt8) (p : Placed) (target : Nat) : Prop :=
  ∃ rel, fetch cfg code p.start = .ok (p.kind.instr rel, p.next) ∧
    (p.kind.instr rel).target code p.next true = some target

namespace Generator

def new : Generator := ⟨[], false, [], [], [], fun _ => none⟩

/-- Emit bytes; `memory` says whether there is room for them. -/
def emit (g : Generator) (bytes : List UInt8) (memory : Bool) : Generator :=
  if g.failed then g else if memory then { g with code := g.code ++ bytes } else { g with failed := true }

/-- `emit_jump`, and what emits the others. -/
def place (g : Generator) (kind : Kind) (memory : Bool) : Generator :=
  if g.failed then g
  else if memory then
    { g with
      code := g.code ++ (kind.head ++ ([0, 0] ++ kind.tail))
      placed := g.placed ++ [⟨kind, g.code.length⟩]
      meant := Function.update g.meant g.placed.length none }
  else { g with failed := true }

/-- `patch_jump`, or `patch_foreach_jump`. -/
def patch (g : Generator) (place target : Nat) : Generator :=
  if g.failed then g
  else match g.placed[place]? with
    | none => g
    | some p =>
      match p.kind.patch g.code p.operand target with
      | none => { g with failed := true }
      | some code => { g with code := code, meant := Function.update g.meant place (some target) }

/-- `patch_loop_jumps`. -/
def patchLoopJumps (g : Generator) (index : Nat) (isSwitch : Bool) (breakTarget continueTarget : Nat) : Generator :=
  let due := g.jumps.filter fun r => !r.patched && r.loopIndex == index
  { due.foldl (fun g r => g.patch r.place (if r.isContinue && !isSwitch then continueTarget else breakTarget)) g with
    jumps := g.jumps.map fun r => if r.loopIndex = index then { r with patched := true } else r }

/-- One event, nothing when it writes behind the table. -/
def step (g : Generator) : Event → Option Generator
  | .bytes bytes memory => some (g.emit bytes memory)
  | .place kind memory => some (g.place kind memory)
  | .patch place target => some (if target ≤ g.code.length then g.patch place target else g)
  | .exit index isContinue =>
    some (if 256 ≤ g.jumps.length then { g with failed := true }
      else { g with exits := (index, isContinue) :: g.exits })
  | .record memory =>
    match g.exits with
    | [] => some g
    | (index, isContinue) :: exits =>
      if 256 ≤ g.jumps.length then none
      else some { g.place (.jump .jmp) memory with
        jumps := g.jumps ++ [⟨g.placed.length, index, isContinue, false⟩], exits := exits }
  | .loopEnd index isSwitch breakTarget continueTarget =>
    some (if breakTarget ≤ g.code.length ∧ continueTarget ≤ g.code.length then
      g.patchLoopJumps index isSwitch breakTarget continueTarget else g)

/-! ## What is promised -/

/-- Compilation has failed, or all patched placeholders lead where they should. Patching fails only out of the
range of displacements. -/
structure Exact (cfg : Config) (g : Generator) : Prop where
  leads : g.failed = true ∨ ∀ place p target, g.placed[place]? = some p → g.meant place = some target →
    p.LeadsTo cfg g.code target
  range : ∀ place p target, g.placed[place]? = some p → g.failed = false →
    ((g.patch place target).failed = true ↔ ¬ (-32768 ≤ (target : Int) - p.next ∧ (target : Int) - p.next ≤ 32767))

/-- There is room in the table for the record of a loop exit. -/
def Fits (g : Generator) : Event → Prop
  | .record _ => g.exits = [] ∨ g.jumps.length < 256
  | _ => True

/-- That holds whenever a loop exit is recorded. -/
def Roomy (g : Generator) : List Event → Prop
  | [] => True
  | event :: events => g.Fits event ∧ ∀ g', g.step event = some g' → g'.Roomy events

end Generator

/-! ## Bytes -/

section Bytes
variable {code data new : List UInt8} {offset place : Nat}

theorem hasAt_blit_self (inside : place ≤ code.length) : HasAt (blit code place new) place new := by
  intro i x hi
  have lt := (List.getElem?_eq_some_iff.mp hi).1
  rw [blit, append_assoc, getElem?_append_right (by rw [length_take]; omega), length_take, Nat.min_eq_left inside,
    Nat.add_sub_cancel_left, getElem?_append_left lt, hi]

/-- What stands apart from what is written stays. -/
theorem hasAt_blit (h : HasAt code offset data) (inside : place + new.length ≤ code.length)
    (apart : offset + data.length ≤ place ∨ place + new.length ≤ offset) : HasAt (blit code place new) offset data := by
  intro i x hi
  have lt := (List.getElem?_eq_some_iff.mp hi).1
  rw [← h i x hi, blit, append_assoc]
  rcases apart with before | behind
  · rw [getElem?_append_left (by rw [length_take]; omega), getElem?_take, if_pos (by omega)]
  · rw [getElem?_append_right (by rw [length_take]; omega), length_take, Nat.min_eq_left (by omega),
      getElem?_append_right (by omega), getElem?_drop]
    congr 1
    omega

theorem length_blit (inside : place + new.length ≤ code.length) : (blit code place new).length = code.length := by
  simp only [blit, length_append, length_take, length_drop]
  omega

end Bytes

/-! ## Placeholders -/

theorem Kind.encode (k : Kind) (rel : Int16) : (k.instr rel).encode = k.head ++ (lei16 rel ++ k.tail) := by
  cases k <;> rfl

/-- Both functions that patch count from behind the instruction. -/
theorem Placed.patch_eq (p : Placed) {code : List UInt8} (inside : p.next ≤ code.length) (target : Nat) :
    p.kind.patch code p.operand target =
      if -32768 ≤ (target : Int) - p.next ∧ (target : Int) - p.next ≤ 32767 then
        some (blit code p.operand (lei16 (Int16.ofInt ((target : Int) - p.next))))
      else none := by
  obtain ⟨kind, start⟩ := p
  cases kind <;> exact if_pos inside

theorem Placed.next_eq (p : Placed) (rel : Int16) : p.next = p.start + (p.kind.instr rel).encode.length := by
  rw [Kind.encode]
  simp only [Placed.next, Placed.operand, length_append, lei16_length]
  omega

/-- A placeholder stands in the code, and its displacement leads to the target that was meant. -/
def Placed.Stands (code : List UInt8) (meant : Option Nat) (p : Placed) : Prop :=
  ∃ rel, HasAt code p.start (p.kind.instr rel).encode ∧
    ∀ target, meant = some target → target ≤ code.length ∧ (p.next : Int) + rel.toInt = target

variable {cfg : Config} {p : Placed} {code : List UInt8} {meant : Option Nat}

theorem Placed.Stands.le (h : p.Stands code meant) : p.next ≤ code.length := by
  obtain ⟨rel, at_start, -⟩ := h
  rw [p.next_eq rel]
  exact at_start.end_le (Instr.encode_ne_nil _)

/-- **An instruction that stands leads where it should.** -/
theorem Placed.Stands.leadsTo {target : Nat} (h : p.Stands code (some target)) : p.LeadsTo cfg code target := by
  obtain ⟨rel, at_start, leads⟩ := h
  obtain ⟨le, eq⟩ := leads target rfl
  refine ⟨rel, fetch_eq_ok.mpr ⟨at_start, ?_, p.next_eq rel⟩, ?_⟩
  · cases p.kind <;> trivial
  · have displacement : (p.kind.instr rel).displacement = rel := by cases p.kind <;> rfl
    rw [Instr.target, if_pos rfl, displacement, jumpRelative, eq, if_pos ⟨by omega, by omega⟩, Int.toNat_natCast]

theorem Placed.Stands.append (h : p.Stands code meant) (more : List UInt8) : p.Stands (code ++ more) meant := by
  obtain ⟨rel, at_start, leads⟩ := h
  refine ⟨rel, fun i x hi => ?_, fun target at_target => ?_⟩
  · have found := at_start i x hi
    rw [getElem?_append_left (List.getElem?_eq_some_iff.mp found).1, found]
  · obtain ⟨le, eq⟩ := leads target at_target
    exact ⟨by rw [length_append]; omega, eq⟩

/-! ## Runs -/

namespace Generator

/-- The placeholders stand in the code one behind the other. -/
structure Ok (g : Generator) : Prop where
  stands : ∀ place (p : Placed), g.placed[place]? = some p → p.Stands g.code (g.meant place)
  apart : g.placed.Pairwise fun p q => p.next ≤ q.start

variable {cfg : Config} {g : Generator} {p : Placed}

theorem Ok.emit (h : g.Ok) (bytes : List UInt8) (memory : Bool) : (g.emit bytes memory).Ok := by
  unfold Generator.emit
  split
  · exact h
  · split
    · exact ⟨fun place p at_place => (h.stands place p at_place).append bytes, h.apart⟩
    · exact ⟨h.stands, h.apart⟩

/-- A new placeholder stands behind those that are there. -/
theorem Ok.place (h : g.Ok) (kind : Kind) (memory : Bool) : (g.place kind memory).Ok := by
  unfold Generator.place
  split
  · exact h
  · split
    · refine ⟨fun place p at_place => ?_, pairwise_append.mpr ⟨h.apart, pairwise_singleton _ _, fun p mem q new => ?_⟩⟩
      · dsimp only at at_place ⊢
        rw [getElem?_append] at at_place
        split at at_place
        · next old =>
          rw [Function.update_of_ne (Nat.ne_of_lt old)]
          exact (h.stands place p at_place).append _
        · next new =>
          have lt := (List.getElem?_eq_some_iff.mp at_place).1
          rw [length_singleton] at lt
          have eq : place = g.placed.length := by omega
          rw [eq, Nat.sub_self] at at_place
          cases at_place
          rw [eq, Function.update_self]
          have at_end := @hasAt_of_eq_append _ (kind.instr 0).encode g.code [] rfl
          rw [append_nil, Kind.encode] at at_end
          exact ⟨0, by rw [Kind.encode]; exact at_end, fun target at_target => (by cases at_target)⟩
      · obtain ⟨place, at_place⟩ := mem_iff_getElem?.mp mem
        rw [mem_singleton.mp new]
        exact (h.stands place p at_place).le
    · exact ⟨h.stands, h.apart⟩

theorem Ok.patch_eq (h : g.Ok) {place : Nat} (at_place : g.placed[place]? = some p) (running : g.failed = false)
    (target : Nat) : g.patch place target =
      if -32768 ≤ (target : Int) - p.next ∧ (target : Int) - p.next ≤ 32767 then
        { g with code := blit g.code p.operand (lei16 (Int16.ofInt ((target : Int) - p.next))),
                 meant := Function.update g.meant place (some target) }
      else { g with failed := true } := by
  unfold patch
  rw [running, if_neg Bool.false_ne_true, at_place]
  dsimp only
  rw [p.patch_eq (h.stands place p at_place).le]
  by_cases range : -32768 ≤ (target : Int) - p.next ∧ (target : Int) - p.next ≤ 32767
  · rw [if_pos range, if_pos range]
  · rw [if_neg range, if_neg range]

/-- **A patch** makes its placeholder lead to the target, and leaves the others as they are. -/
theorem Ok.patch (h : g.Ok) (place : Nat) {target : Nat} (reached : target ≤ g.code.length) :
    (g.patch place target).Ok ∧ (g.patch place target).code.length = g.code.length := by
  by_cases failed : g.failed = true
  · rw [Generator.patch, if_pos failed]
    exact ⟨h, rfl⟩
  cases at_place : g.placed[place]? with
  | none =>
    rw [Generator.patch, if_neg failed, at_place]
    exact ⟨h, rfl⟩
  | some p =>
    rw [h.patch_eq at_place (Bool.not_eq_true _ ▸ failed)]
    have stands := h.stands place p at_place
    have inside := stands.le
    split
    · next range =>
      have room : p.operand + (lei16 (Int16.ofInt ((target : Int) - p.next))).length ≤ g.code.length := by
        rw [lei16_length]
        unfold Placed.next at inside
        omega
      refine ⟨⟨fun other q at_other => ?_, h.apart⟩, length_blit room⟩
      dsimp only at at_other ⊢
      by_cases same : other = place
      · rw [same, at_place] at at_other
        cases at_other
        rw [same, Function.update_self]
        obtain ⟨rel, at_start, -⟩ := stands
        rw [Kind.encode, hasAt_append, hasAt_append] at at_start
        refine ⟨Int16.ofInt ((target : Int) - p.next), ?_, fun target' at_target => ?_⟩
        · rw [Kind.encode, hasAt_append, hasAt_append]
          refine ⟨hasAt_blit at_start.1 room (.inl le_rfl), hasAt_blit_self (by omega), ?_⟩
          exact hasAt_blit at_start.2.2 room (.inr le_rfl)
        · cases at_target
          rw [length_blit room, Int16.toInt_ofInt_of_le (by omega) (by omega)]
          exact ⟨reached, by omega⟩
      · rw [Function.update_of_ne same]
        obtain ⟨rel, at_start, leads⟩ := h.stands other q at_other
        rw [Placed.Stands, length_blit room]
        refine ⟨rel, hasAt_blit at_start room ?_, leads⟩
        rw [← q.next_eq rel, lei16_length]
        obtain ⟨lt, rfl⟩ := List.getElem?_eq_some_iff.mp at_place
        obtain ⟨lt', rfl⟩ := List.getElem?_eq_some_iff.mp at_other
        have apart := pairwise_iff_getElem.mp h.apart
        rcases Nat.lt_or_gt_of_ne same with before | behind
        · exact .inl ((apart _ _ lt' lt before).trans (Nat.le_add_right _ _))
        · refine .inr (Nat.le_trans ?_ (apart _ _ lt lt' behind))
          exact Nat.le_add_right _ _
    · exact ⟨⟨h.stands, h.apart⟩, rfl⟩

theorem Ok.patchLoopJumps (h : g.Ok) (index : Nat) (isSwitch : Bool) {breakTarget continueTarget : Nat}
    (reached : breakTarget ≤ g.code.length) (reached' : continueTarget ≤ g.code.length) :
    (g.patchLoopJumps index isSwitch breakTarget continueTarget).Ok := by
  suffices all : ∀ due : List JumpRecord, (due.foldl (fun g r => g.patch r.place
      (if r.isContinue && !isSwitch then continueTarget else breakTarget)) g).Ok from ⟨(all _).stands, (all _).apart⟩
  intro due
  induction due generalizing g with
  | nil => exact h
  | cons r rest ih =>
    have le : (if r.isContinue && !isSwitch then continueTarget else breakTarget) ≤ g.code.length := by
      split
      · exact reached'
      · exact reached
    obtain ⟨ok, length⟩ := h.patch r.place le
    exact ih ok (length ▸ reached) (length ▸ reached')

/-- **One event** that does not write behind the table. -/
theorem Ok.step (h : g.Ok) {event : Event} {g' : Generator} (next : g.step event = some g') : g'.Ok := by
  cases event with
  | bytes bytes memory =>
    cases next
    exact h.emit bytes memory
  | place kind memory =>
    cases next
    exact h.place kind memory
  | patch place target =>
    cases next
    split
    · next reached => exact (h.patch place reached).1
    · exact h
  | exit index isContinue =>
    cases next
    split <;> exact ⟨h.stands, h.apart⟩
  | record memory =>
    have ok := h.place (.jump .jmp) memory
    unfold Generator.step at next
    dsimp only at next
    split at next
    · cases next
      exact h
    · split at next
      · cases next
      · cases next
        exact ⟨ok.stands, ok.apart⟩
  | loopEnd index isSwitch breakTarget continueTarget =>
    cases next
    split
    · next reached => exact h.patchLoopJumps index isSwitch reached.1 reached.2
    · exact h

theorem step_eq_none {event : Event} : g.step event = none ↔ ¬ g.Fits event := by
  cases event with
  | record memory =>
    rw [step, Fits]
    split
    · next done => simp [done]
    · next busy =>
      rw [busy]
      split
      · next full => simp [full]
      · next room => simpa using Nat.not_le.mp room
  | _ => simp [step, Fits]

/-- **Runs with room in the table** are exact, and no others. -/
theorem Ok.run (h : g.Ok) (events : List Event) :
    (∃ g', events.foldlM Generator.step g = some g' ∧ g'.Exact cfg) ↔ g.Roomy events := by
  induction events generalizing g with
  | nil =>
    refine iff_of_true ⟨g, rfl, .inr fun place p target at_place meant => ?_, fun place p target at_place running => ?_⟩
      trivial
    · have stands := h.stands place p at_place
      rw [meant] at stands
      exact stands.leadsTo
    · rw [h.patch_eq at_place running]
      split
      · next range => exact iff_of_false (by simp [running]) (not_not.mpr range)
      · next range => exact iff_of_true rfl range
  | cons event events ih =>
    rw [foldlM_cons, Roomy]
    cases step : g.step event with
    | none => exact iff_of_false (fun ⟨g', run, _⟩ => (by cases run)) fun roomy => step_eq_none.mp step roomy.1
    | some g' =>
      have fits : g.Fits event := by
        by_contra full
        rw [step_eq_none.mpr full] at step
        cases step
      refine (ih (h.step step)).trans ⟨fun roomy => ⟨fits, fun g'' same => ?_⟩, fun roomy => roomy.2 g' rfl⟩
      cases same
      exact roomy

end Generator

/-- **The displacements are exact** in the runs in which the table has room whenever a loop exit is recorded. -/
theorem jumps_exact_iff (cfg : Config) (events : List Event) :
    (∃ g, events.foldlM Generator.step .new = some g ∧ g.Exact cfg) ↔ Generator.new.Roomy events :=
  Generator.Ok.run ⟨fun place p at_place => (by cases at_place), .nil⟩ events

/-- A loop with 255 exits, and then a `try` that it leaves: the `finally` block has an exit of its own. -/
def overrun : List Event :=
  (List.replicate 255 [.exit 0 false, .record true]).flatten ++ [.exit 0 false, .exit 1 false, .record true,
    .place (.jump .jmp) true, .patch 256 765, .loopEnd 1 false 771 765, .record true]

theorem table_overrun : ¬ ∀ (cfg : Config) (events : List Event),
    ∃ g, events.foldlM Generator.step .new = some g ∧ g.Exact cfg := by
  intro claimed
  obtain ⟨g, run, -⟩ := claimed ⟨true, true, true, true, true⟩ overrun
  have lost : (overrun.foldlM Generator.step .new).isNone = true := by decide +kernel
  rw [run] at lost
  cases lost

end PhpPico.Jumps
