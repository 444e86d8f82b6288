import PhpPico.Vm.Heights
import PhpPico.Vm.Loaded

/-!
# The disassembler

`disassemble_proto` has sizes of its own and reads the operands unchecked. It prints the instructions that the virtual
machine finds in a loaded module, each where it starts.
-/

namespace PhpPico
open List ByteLayout Fallible

/-- A line: where the instruction starts, its opcode, and the numbers behind its name. -/
structure Line where
  offset : Nat
  opcode : UInt8
  numbers : List Int
deriving DecidableEq

section Disassembler
variable (cfg : Config) (code : List UInt8)

/-- `operand_size`. -/
def operandSize : Option Opcode → Nat
  | some (.byte _) => 1
  | some (.word _) | some (.jump _) => 2
  | some (.named _) | some .feNext | some .staticInit | some .closure => 3
  | some .defProp => if cfg.typecheck then 6 else 3
  | some (.pair _) | some .loadI32 => 4
  | some (.triple _) => 5
  | some (.plain _) | none => 0

def printU8 (pc : Nat) : Int := (byteAt code pc).toNat

def printU16 (pc : Nat) : Int := (u16At code pc).toNat

/-- The numbers that are printed for the operands at `pc`. -/
def printOperands (pc : Nat) : Option Opcode → List Int
  | some (.byte .loadI8) => [(byteAt code pc).toInt8.toInt]
  | some (.byte _) => [printU8 code pc]
  | some (.word .defInterface) => []
  | some (.word _) => [printU16 code pc]
  | some (.jump _) => [i16At code pc, (pc + 2 : Nat) + i16At code pc]
  | some (.named _) => [printU16 code pc, printU8 code (pc + 2)]
  | some (.pair _) => [printU16 code pc, printU16 code (pc + 2)]
  | some (.triple _) => [printU16 code pc, printU16 code (pc + 2), printU8 code (pc + 4)]
  | some .loadI32 => [(u32At code pc).toInt32.toInt]
  | some .staticInit => [printU8 code pc, i16At code (pc + 1), (pc + 3 : Nat) + i16At code (pc + 1)]
  | some .feNext => [i16At code pc, (pc + 3 : Nat) + i16At code pc, printU8 code (pc + 2)]
  | some .defProp => [printU16 code pc, printU8 code (pc + 2)] ++
      if cfg.typecheck then [printU16 code (pc + 3), printU8 code (pc + 5)] else []
  | some .closure => [printU16 code pc, printU8 code (pc + 2)] ++
      (range (byteAt code (pc + 2)).toNat).flatMap fun capture =>
        [printU8 code (pc + 3 + capture * 2), printU8 code (pc + 4 + capture * 2)]
  | some (.plain _) | none => []

/-- The loop of `disassemble_proto`, which gives up where an instruction is truncated. A round for each byte is
enough. -/
def disassembleFrom : Nat → Nat → Option (List Line)
  | 0, pc => if pc < code.length then none else some []
  | fuel + 1, pc =>
    if pc < code.length then
      let op := Opcode.ofByte (byteAt code pc)
      let operands := operandSize cfg op
      let extra := if op = some .closure then (byteAt code (pc + 3)).toNat * 2 else 0
      if pc + 1 + operands > code.length then none
      else if pc + 1 + operands + extra > code.length then none
      else (disassembleFrom fuel (pc + 1 + (operands + extra))).map
        (⟨pc, byteAt code pc, printOperands cfg code (pc + 1) op⟩ :: ·)
    else some []

def disassembleProto : Option (List Line) := disassembleFrom cfg code code.length 0

end Disassembler

/-- The numbers of an instruction with operands at `pc`: displacements come with their targets, and
`OP_DEF_INTERFACE` shows none. -/
def Instr.numbers (pc : Nat) : Instr → List Int
  | .plain _ | .word .defInterface _ => []
  | .byte .loadI8 a => [a.toInt8.toInt]
  | .byte _ a => [(a.toNat : Int)]
  | .word _ a => [(a.toNat : Int)]
  | .jump _ rel => [rel.toInt, (pc + 2 : Nat) + rel.toInt]
  | .named _ name argc => [(name.toNat : Int), argc.toNat]
  | .pair _ a b => [(a.toNat : Int), b.toNat]
  | .triple _ a b c => [(a.toNat : Int), b.toNat, c.toNat]
  | .loadI32 value => [value.toInt]
  | .staticInit slot rel => [(slot.toNat : Int), rel.toInt, (pc + 3 : Nat) + rel.toInt]
  | .feNext rel hasKey => [rel.toInt, (pc + 3 : Nat) + rel.toInt, hasKey.toNat]
  | .defProp name flags type =>
    [(name.toNat : Int), flags.toNat] ++ type.elim [] fun t => [(t.1.toNat : Int), t.2.toNat]
  | .closure proto captures => [(proto.toNat : Int), captures.val.length] ++
      captures.val.flatMap fun capture => [(capture.1.toNat : Int), capture.2.toNat]

/-- The line shows the instruction that is fetched where it says. -/
def Line.Shows (cfg : Config) (code : List UInt8) (line : Line) : Prop :=
  ∃ i next, fetch cfg code line.offset = .ok (i, next) ∧ line.opcode = i.opcode.toByte ∧
    line.numbers = i.numbers (line.offset + 1)

section Agreement
variable {cfg : Config} {code : List UInt8} {pc fuel : Nat} {i : Instr} {starts : List Nat}

theorem i16At_of_hasAt {rel : Int16} (h : HasAt code pc (lei16 rel)) : i16At code pc = rel.toInt := by
  rw [i16At, u16At_of_hasAt h, Int16.toInt16_toUInt16]

theorem printU8_of_hasAt {a : UInt8} (h : HasAt code pc [a]) : printU8 code pc = a.toNat := by
  rw [printU8, h.byteAt]

theorem printU16_of_hasAt {a : UInt16} (h : HasAt code pc (le16 a)) : printU16 code pc = a.toNat := by
  rw [printU16, u16At_of_hasAt h]

theorem captures_printed {captures : List (UInt8 × UInt8)} (h : HasAt code pc (captureBytes captures)) :
    ((range captures.length).flatMap fun k => [printU8 code (pc + k * 2), printU8 code (pc + 1 + k * 2)]) =
      captures.flatMap fun capture => [(capture.1.toNat : Int), capture.2.toNat] := by
  induction captures generalizing pc with
  | nil => rfl
  | cons capture rest ih =>
    obtain ⟨front, behind⟩ := hasAt_append.mp (show HasAt code pc ([_, _] ++ captureBytes rest) from h)
    obtain ⟨kind, slot⟩ := hasAt_append.mp (show HasAt code pc ([_] ++ [_]) from front)
    have first : printU8 code pc = capture.1.toNat := printU8_of_hasAt kind
    have second : printU8 code (pc + 1) = capture.2.toNat := printU8_of_hasAt slot
    have later (k : Nat) : pc + (k + 1) * 2 = pc + 2 + k * 2 ∧ pc + 1 + (k + 1) * 2 = pc + 2 + 1 + k * 2 := by omega
    rw [length_cons, range_succ_eq_map, flatMap_cons, flatMap_cons, flatMap_map, ← ih behind]
    simp only [zero_mul, add_zero, first, second, (later _).1, (later _).2]
    rfl

/-- **The operands that are printed are those of the instruction.** -/
theorem printOperands_eq (stands : HasAt code pc i.operands) (valid : i.Valid cfg) :
    printOperands cfg code pc (some i.opcode) = i.numbers pc := by
  cases i with
  | plain => rfl
  | byte op a => cases op <;> simp [Instr.opcode, printOperands, Instr.numbers, stands.byteAt, printU8]
  | word op a => cases op <;> simp [Instr.opcode, printOperands, Instr.numbers, printU16_of_hasAt stands]
  | jump op rel => simp [Instr.opcode, printOperands, Instr.numbers, i16At_of_hasAt stands]
  | named op name argc =>
    obtain ⟨first, second⟩ := hasAt_append.mp stands
    exact congrArg₂ cons (printU16_of_hasAt first) (congrArg₂ cons (printU8_of_hasAt second) rfl)
  | pair op a b =>
    obtain ⟨first, second⟩ := hasAt_append.mp stands
    exact congrArg₂ cons (printU16_of_hasAt first) (congrArg₂ cons (printU16_of_hasAt second) rfl)
  | triple op a b c =>
    obtain ⟨front, third⟩ := hasAt_append.mp stands
    obtain ⟨first, second⟩ := hasAt_append.mp front
    exact congrArg₂ cons (printU16_of_hasAt first) (congrArg₂ cons (printU16_of_hasAt second)
      (congrArg₂ cons (printU8_of_hasAt third) rfl))
  | loadI32 value =>
    rw [Instr.opcode, printOperands, u32At_of_hasAt stands, Int32.toInt32_toUInt32]
    rfl
  | staticInit slot rel =>
    obtain ⟨first, second⟩ := hasAt_append.mp (show HasAt code pc ([slot] ++ lei16 rel) from stands)
    have rel_eq : i16At code (pc + 1) = rel.toInt := i16At_of_hasAt second
    rw [Instr.opcode, printOperands, rel_eq, printU8_of_hasAt first]
    rfl
  | feNext rel hasKey =>
    obtain ⟨first, second⟩ := hasAt_append.mp stands
    have key_eq : printU8 code (pc + 2) = hasKey.toNat := printU8_of_hasAt second
    rw [Instr.opcode, printOperands, i16At_of_hasAt first, key_eq]
    rfl
  | defProp name flags type =>
    have typed : type.isSome = cfg.typecheck := valid
    rw [Instr.opcode, printOperands, ← typed]
    cases type with
    | none =>
      obtain ⟨first, second⟩ := hasAt_append.mp stands
      exact congrArg₂ cons (printU16_of_hasAt first) (congrArg₂ cons (printU8_of_hasAt second) rfl)
    | some type =>
      obtain ⟨middle, fourth⟩ := hasAt_append.mp stands
      obtain ⟨front, third⟩ := hasAt_append.mp middle
      obtain ⟨first, second⟩ := hasAt_append.mp front
      exact congrArg₂ cons (printU16_of_hasAt first) (congrArg₂ cons (printU8_of_hasAt second)
        (congrArg₂ cons (printU16_of_hasAt third) (congrArg₂ cons (printU8_of_hasAt fourth) rfl)))
  | closure proto captures =>
    obtain ⟨front, third⟩ := hasAt_append.mp stands
    obtain ⟨first, second⟩ := hasAt_append.mp front
    have count : (byteAt code (pc + 2)).toNat = captures.val.length := by
      rw [show byteAt code (pc + 2) = _ from second.byteAt, UInt8.toNat_ofNat']
      omega
    have printed := captures_printed third
    rw [Instr.opcode, printOperands, printU16_of_hasAt first, printU8, count]
    exact congrArg _ printed

/-- The size that is stepped over is that of the instruction. -/
theorem operandSize_eq (stands : HasAt code pc i.encode) (valid : i.Valid cfg) :
    1 + (operandSize cfg (some i.opcode) +
      if some i.opcode = some .closure then (byteAt code (pc + 3)).toNat * 2 else 0) = i.size := by
  cases i with
  | defProp name flags type =>
    have typed : type.isSome = cfg.typecheck := valid
    simp only [operandSize, Instr.opcode, ← typed]
    cases type <;> rfl
  | closure proto captures =>
    obtain ⟨front, -⟩ := hasAt_append.mp (hasAt_cons.mp stands).2
    have count : byteAt code (pc + 3) = UInt8.ofNat captures.val.length := (hasAt_append.mp front).2.byteAt
    have few := captures.property
    simp only [Instr.opcode, operandSize, if_true, count, Instr.size, Instr.encode, Instr.operands, length_cons,
      length_append, le16_length, captureBytes_length, length_nil, UInt8.toNat_ofNat']
    omega
  | _ => rfl

theorem disassembleFrom_shows (listed : instructionStarts cfg code fuel pc = some starts) :
    ∃ lines, disassembleFrom cfg code fuel pc = some lines ∧ lines.map Line.offset = starts ∧
      ∀ line ∈ lines, line.Shows cfg code := by
  induction fuel generalizing pc starts with
  | zero =>
    simp only [instructionStarts] at listed
    split at listed
    · cases listed
    · rename_i behind
      cases listed
      exact ⟨[], if_neg behind, rfl, forall_mem_nil _⟩
  | succ fuel ih =>
    simp only [instructionStarts] at listed
    split at listed
    · rename_i inside
      split at listed
      · cases listed
      · rename_i size
        obtain ⟨rest, further, rfl⟩ := Option.map_eq_some_iff.mp listed
        obtain ⟨⟨i, next⟩, fetched⟩ := fetch_isOk_of_size size
        obtain ⟨stands, valid, rfl⟩ := fetch_eq_ok.mp fetched
        rw [instructionSize_of_hasAt stands valid] at further
        obtain ⟨lines, printed, offsets, shown⟩ := ih further
        have bound : pc + i.size ≤ code.length := stands.end_le i.encode_ne_nil
        have stepped := operandSize_eq stands valid
        have opcode : byteAt code pc = i.opcode.toByte := stands.byteAt
        refine ⟨⟨pc, i.opcode.toByte, i.numbers (pc + 1)⟩ :: lines, ?_, congrArg _ offsets, ?_⟩
        · rw [disassembleFrom, if_pos inside, opcode, Opcode.ofByte_toByte]
          dsimp only
          rw [if_neg (by omega), if_neg (by omega), Nat.add_assoc pc, stepped, printed,
            printOperands_eq (hasAt_cons.mp stands).2 valid]
          rfl
        · exact forall_mem_cons.mpr ⟨⟨i, _, fetched, rfl, rfl⟩, shown⟩
    · rename_i behind
      cases listed
      exact ⟨[], if_neg behind, rfl, forall_mem_nil _⟩

end Agreement

end PhpPico
