import PhpPico.Lib.Fallible
import PhpPico.Pbc.Validate

/-!
# Reading instructions

`fetch` decodes the instruction at a position byte by byte, in the order `pphp_vm_execute` reads, and stops where
`read_u8` would run off the code. `fetch_eq_ok` says which instruction it finds, and `instructionSize_eq_fetch` that
the loader's size table moves exactly as far.
-/

namespace PhpPico
open List ByteLayout Fallible

/-- The errors of decoding: "truncated bytecode" and "unknown opcode". -/
inductive Fault where
  | truncated
  | unknownOpcode (opcode : UInt8)
  deriving DecidableEq

/-- A read gives a value and the position behind it. -/
abbrev Read := Except Fault

/-- `read_u8`. -/
def readU8 (code : List UInt8) (pc : Nat) : Read (UInt8 × Nat) :=
  if pc < code.length then .ok (byteAt code pc, pc + 1) else .error .truncated

/-- `read_u16`. -/
def readU16 (code : List UInt8) (pc : Nat) : Read (UInt16 × Nat) := do
  let (low, pc) ← readU8 code pc
  let (high, pc) ← readU8 code pc
  return (UInt16.ofNat (low.toNat + 256 * high.toNat), pc)

/-- `read_i16`. -/
def readI16 (code : List UInt8) (pc : Nat) : Read (Int16 × Nat) := do
  let (word, pc) ← readU16 code pc
  return (word.toInt16, pc)

/-- `read_i32`. -/
def readI32 (code : List UInt8) (pc : Nat) : Read (Int32 × Nat) := do
  let (b0, pc) ← readU8 code pc
  let (b1, pc) ← readU8 code pc
  let (b2, pc) ← readU8 code pc
  let (b3, pc) ← readU8 code pc
  return ((UInt32.ofNat (b0.toNat + 256 * b1.toNat + 65536 * b2.toNat + 16777216 * b3.toNat)).toInt32, pc)

/-- The capture loop of `OP_CLOSURE`. -/
def readCaptures (code : List UInt8) : Nat → Nat → Read (List (UInt8 × UInt8) × Nat)
  | 0, pc => .ok ([], pc)
  | count + 1, pc => do
    let (kind, pc) ← readU8 code pc
    let (slot, pc) ← readU8 code pc
    let (rest, pc) ← readCaptures code count pc
    return ((kind, slot) :: rest, pc)

/-- The operands behind an opcode, in the order its case reads them. -/
def readOperands (cfg : Config) (code : List UInt8) (op : Opcode) (pc : Nat) : Read (Instr × Nat) :=
  match op with
  | .plain op =>
    if op = .typecheckArgs ∧ cfg.typecheck = false then .error (.unknownOpcode op.toByte)
    else .ok (.plain op, pc)
  | .byte op => do
    let (a, pc) ← readU8 code pc
    return (.byte op a, pc)
  | .word op => do
    let (a, pc) ← readU16 code pc
    return (.word op a, pc)
  | .jump op => do
    let (rel, pc) ← readI16 code pc
    return (.jump op rel, pc)
  | .named op => do
    let (name, pc) ← readU16 code pc
    let (argc, pc) ← readU8 code pc
    return (.named op name argc, pc)
  | .pair op => do
    let (a, pc) ← readU16 code pc
    let (b, pc) ← readU16 code pc
    return (.pair op a b, pc)
  | .triple op => do
    let (a, pc) ← readU16 code pc
    let (b, pc) ← readU16 code pc
    let (c, pc) ← readU8 code pc
    return (.triple op a b c, pc)
  | .loadI32 => do
    let (value, pc) ← readI32 code pc
    return (.loadI32 value, pc)
  | .staticInit => do
    let (slot, pc) ← readU8 code pc
    let (rel, pc) ← readI16 code pc
    return (.staticInit slot rel, pc)
  | .feNext => do
    let (rel, pc) ← readI16 code pc
    let (hasKey, pc) ← readU8 code pc
    return (.feNext rel hasKey, pc)
  | .defProp => do
    let (name, pc) ← readU16 code pc
    let (flags, pc) ← readU8 code pc
    if cfg.typecheck then
      let (type, pc) ← readU16 code pc
      let (hasDefault, pc) ← readU8 code pc
      return (.defProp name flags (some (type, hasDefault)), pc)
    else return (.defProp name flags none, pc)
  | .closure => do
    let (proto, pc) ← readU16 code pc
    let (count, pc) ← readU8 code pc
    let (captures, pc) ← readCaptures code count.toNat pc
    if h : captures.length ≤ 255 then return (.closure proto ⟨captures, h⟩, pc)
    else .error .truncated

/-- The instruction the virtual machine finds at `pc` and the position behind it. -/
def fetch (cfg : Config) (code : List UInt8) (pc : Nat) : Read (Instr × Nat) := do
  let (opcode, pc) ← readU8 code pc
  match Opcode.ofByte opcode with
  | none => .error (.unknownOpcode opcode)
  | some op => readOperands cfg code op pc

/-! ## What the reads find -/

variable {code : List UInt8} {pc next : Nat}

/-- A read that finds the values whose bytes stand at a position, and moves behind them. -/
def Finds {α : Type} (code : List UInt8) (read : Nat → Read (α × Nat)) (bytes : α → List UInt8) : Prop :=
  ∀ pc a next, read pc = .ok (a, next) ↔ HasAt code pc (bytes a) ∧ next = pc + (bytes a).length

theorem Finds.bind {α β : Type} {read : Nat → Read (α × Nat)} {bytes : α → List UInt8}
    (finds : Finds code read bytes) {rest : α × Nat → Read β} {r : β} :
    (read pc >>= rest) = .ok r ↔ ∃ a, HasAt code pc (bytes a) ∧ rest (a, pc + (bytes a).length) = .ok r := by
  rw [bind_eq_ok]
  constructor
  · rintro ⟨⟨a, next⟩, one, two⟩
    obtain ⟨found, rfl⟩ := (finds pc a next).mp one
    exact ⟨a, found, two⟩
  · rintro ⟨a, found, two⟩
    exact ⟨_, (finds pc a _).mpr ⟨found, rfl⟩, two⟩

theorem finds_u8 : Finds code (readU8 code) fun a => [a] := by
  intro pc a next
  unfold readU8
  rw [hasAt_cons, byteAt, getD_eq_getElem?_getD]
  constructor
  · intro h
    split at h
    · rename_i low
      cases h
      rw [getElem?_eq_getElem low]
      exact ⟨⟨rfl, .nil _ _⟩, rfl⟩
    · cases h
  · rintro ⟨⟨h, -⟩, rfl⟩
    rw [if_pos (List.getElem?_eq_some_iff.mp h).1, h]
    rfl

theorem byte_eq (n : Nat) (b : UInt8) (h : n = b.toNat) : UInt8.ofNat n = b := by
  rw [h, UInt8.ofNat_toNat]

theorem le16_bytes (low high : UInt8) : le16 (UInt16.ofNat (low.toNat + 256 * high.toNat)) = [low, high] := by
  have hl := low.toNat_lt
  have hh := high.toNat_lt
  unfold le16
  rw [UInt16.toNat_ofNat', byte_eq _ low (by omega), byte_eq _ high (by omega)]

theorem le16_word (a : UInt16) :
    UInt16.ofNat ((UInt8.ofNat (a.toNat % 256)).toNat + 256 * (UInt8.ofNat (a.toNat / 256)).toNat) = a := by
  have bound := a.toNat_lt
  apply UInt16.toNat_inj.mp
  simp only [UInt16.toNat_ofNat', UInt8.toNat_ofNat']
  omega

theorem le32_bytes (b0 b1 b2 b3 : UInt8) :
    le32 (UInt32.ofNat (b0.toNat + 256 * b1.toNat + 65536 * b2.toNat + 16777216 * b3.toNat)) = [b0, b1, b2, b3] := by
  have h0 := b0.toNat_lt
  have h1 := b1.toNat_lt
  have h2 := b2.toNat_lt
  have h3 := b3.toNat_lt
  unfold le32
  rw [UInt32.toNat_ofNat', byte_eq _ b0 (by omega), byte_eq _ b1 (by omega), byte_eq _ b2 (by omega),
    byte_eq _ b3 (by omega)]

theorem le32_word (a : UInt32) :
    UInt32.ofNat ((UInt8.ofNat (a.toNat % 256)).toNat + 256 * (UInt8.ofNat (a.toNat / 256 % 256)).toNat +
      65536 * (UInt8.ofNat (a.toNat / 65536 % 256)).toNat + 16777216 * (UInt8.ofNat (a.toNat / 16777216)).toNat) = a := by
  have bound := a.toNat_lt
  apply UInt32.toNat_inj.mp
  simp only [UInt32.toNat_ofNat', UInt8.toNat_ofNat']
  omega

theorem finds_u16 : Finds code (readU16 code) le16 := by
  intro pc a next
  simp only [readU16, finds_u8.bind]
  constructor
  · rintro ⟨low, at₁, high, at₂, same⟩
    cases same
    rw [le16_bytes]
    exact ⟨hasAt_append.mpr ⟨at₁, at₂⟩, rfl⟩
  · rintro ⟨h, rfl⟩
    have parts := hasAt_append.mp (show HasAt code pc ([_] ++ [_]) from h)
    exact ⟨_, parts.1, _, parts.2, congrArg (fun w => Except.ok (w, pc + 2)) (le16_word a)⟩

theorem finds_i16 : Finds code (readI16 code) lei16 := by
  intro pc a next
  simp only [readI16, finds_u16.bind]
  constructor
  · rintro ⟨w, h, same⟩
    cases same
    exact ⟨h, rfl⟩
  · rintro ⟨h, rfl⟩
    exact ⟨_, h, rfl⟩

theorem finds_i32 : Finds code (readI32 code) fun a => le32 a.toUInt32 := by
  intro pc a next
  simp only [readI32, finds_u8.bind]
  constructor
  · rintro ⟨b0, at₀, b1, at₁, b2, at₂, b3, at₃, same⟩
    cases same
    rw [UInt32.toUInt32_toInt32, le32_bytes]
    exact ⟨hasAt_append.mpr ⟨at₀, hasAt_append.mpr ⟨at₁, hasAt_append.mpr ⟨at₂, at₃⟩⟩⟩, rfl⟩
  · rintro ⟨h, rfl⟩
    obtain ⟨at₀, h₁⟩ := hasAt_append.mp (show HasAt code pc ([_] ++ [_, _, _]) from h)
    obtain ⟨at₁, h₂⟩ := hasAt_append.mp (show HasAt code _ ([_] ++ [_, _]) from h₁)
    obtain ⟨at₂, at₃⟩ := hasAt_append.mp (show HasAt code _ ([_] ++ [_]) from h₂)
    exact ⟨_, at₀, _, at₁, _, at₂, _, at₃,
      congrArg (fun w => Except.ok (w, pc + 4)) ((congrArg _ (le32_word a.toUInt32)).trans a.toInt32_toUInt32)⟩

theorem readCaptures_eq_ok {count : Nat} {captures : List (UInt8 × UInt8)} :
    readCaptures code count pc = .ok (captures, next) ↔
      HasAt code pc (captureBytes captures) ∧ captures.length = count ∧ next = pc + 2 * count := by
  induction count generalizing pc next captures with
  | zero =>
    unfold readCaptures
    constructor
    · intro h
      cases h
      exact ⟨.nil _ _, rfl, rfl⟩
    · rintro ⟨-, hlen, rfl⟩
      cases length_eq_zero_iff.mp hlen
      rfl
  | succ count ih =>
    simp only [readCaptures, finds_u8.bind]
    constructor
    · rintro ⟨kind, at₁, slot, at₂, h⟩
      obtain ⟨⟨rest, last⟩, h₃, h⟩ := bind_eq_ok.mp h
      obtain ⟨at₃, hlen, rfl⟩ := ih.mp h₃
      cases h
      refine ⟨?_, by rw [length_cons, hlen], by simp only [length_singleton]; omega⟩
      exact hasAt_append.mpr ⟨hasAt_append.mpr ⟨at₁, at₂⟩, at₃⟩
    · rintro ⟨h, hlen, rfl⟩
      cases captures with
      | nil => cases hlen
      | cons capture rest =>
        obtain ⟨front, at₃⟩ := hasAt_append.mp (show HasAt code pc ([_, _] ++ captureBytes rest) from h)
        obtain ⟨at₁, at₂⟩ := hasAt_append.mp (show HasAt code pc ([_] ++ [_]) from front)
        refine ⟨_, at₁, _, at₂, ?_⟩
        have read := ih.mpr ⟨at₃, Nat.succ.inj hlen, rfl⟩
        exact bind_eq_ok.mpr ⟨_, read, by simp only [length_cons, length_nil]; congr 2; omega⟩

theorem readOperands_eq_ok {cfg : Config} {op : Opcode} {i : Instr} : readOperands cfg code op pc = .ok (i, next) ↔
      i.opcode = op ∧ HasAt code pc i.operands ∧ i.Valid cfg ∧ next = pc + i.operands.length := by
  constructor
  · intro h
    cases op <;> simp only [readOperands, finds_u8.bind, finds_u16.bind, finds_i16.bind, finds_i32.bind] at h
    case plain op =>
      split at h
      · cases h
      · rename_i known
        cases h
        refine ⟨rfl, .nil _ _, ?_, rfl⟩
        cases op <;> first | trivial | simpa [Instr.Valid] using known
    case byte | word | jump | loadI32 =>
      obtain ⟨a, at₁, same⟩ := h
      cases same
      exact ⟨rfl, at₁, trivial, rfl⟩
    case named | pair | staticInit | feNext =>
      obtain ⟨a, at₁, b, at₂, same⟩ := h
      cases same
      exact ⟨rfl, hasAt_append.mpr ⟨at₁, at₂⟩, trivial, rfl⟩
    case triple =>
      obtain ⟨a, at₁, b, at₂, c, at₃, same⟩ := h
      cases same
      exact ⟨rfl, hasAt_append.mpr ⟨hasAt_append.mpr ⟨at₁, at₂⟩, at₃⟩, trivial, rfl⟩
    case defProp =>
      obtain ⟨name, at₁, flags, at₂, h⟩ := h
      have front : HasAt code pc (le16 name ++ [flags]) := hasAt_append.mpr ⟨at₁, at₂⟩
      split at h
      · rename_i typed
        simp only [finds_u8.bind, finds_u16.bind] at h
        obtain ⟨type, at₃, hasDefault, at₄, same⟩ := h
        cases same
        exact ⟨rfl, hasAt_append.mpr ⟨hasAt_append.mpr ⟨front, at₃⟩, at₄⟩, typed.symm, rfl⟩
      · rename_i untyped
        cases h
        exact ⟨rfl, front, by simpa [Instr.Valid] using untyped, rfl⟩
    case closure =>
      obtain ⟨proto, at₁, count, at₂, h⟩ := h
      obtain ⟨⟨captures, last⟩, h₃, h⟩ := bind_eq_ok.mp h
      obtain ⟨at₃, hlen, rfl⟩ := readCaptures_eq_ok.mp h₃
      split at h
      · cases h
        rw [← count.ofNat_toNat, ← hlen] at at₂
        refine ⟨rfl, hasAt_append.mpr ⟨hasAt_append.mpr ⟨at₁, at₂⟩, at₃⟩, trivial, ?_⟩
        simp only [Instr.operands, length_append, captureBytes_length, hlen, length_cons, length_nil]
        omega
      · cases h
  · rintro ⟨rfl, h, valid, rfl⟩
    cases i <;>
      simp only [Instr.opcode, readOperands, finds_u8.bind, finds_u16.bind, finds_i16.bind, finds_i32.bind]
    case plain op =>
      rw [if_neg]
      · rfl
      · rintro ⟨rfl, untyped⟩
        exact absurd (show cfg.typecheck = true from valid) (by simp [untyped])
    case byte | word | jump | loadI32 => exact ⟨_, h, rfl⟩
    case named | pair | feNext => exact ⟨_, (hasAt_append.mp h).1, _, (hasAt_append.mp h).2, rfl⟩
    case staticInit slot rel =>
      have parts := hasAt_append.mp (show HasAt code pc ([slot] ++ lei16 rel) from h)
      exact ⟨_, parts.1, _, parts.2, rfl⟩
    case triple =>
      obtain ⟨front, at₃⟩ := hasAt_append.mp h
      exact ⟨_, (hasAt_append.mp front).1, _, (hasAt_append.mp front).2, _, at₃, rfl⟩
    case defProp name flags type =>
      have typed : type.isSome = cfg.typecheck := valid
      rw [← typed]
      cases type with
      | none => exact ⟨_, (hasAt_append.mp h).1, _, (hasAt_append.mp h).2, rfl⟩
      | some type =>
        obtain ⟨middle, at₄⟩ := hasAt_append.mp h
        obtain ⟨front, at₃⟩ := hasAt_append.mp middle
        simp only [Option.isSome_some, if_true, finds_u8.bind, finds_u16.bind]
        exact ⟨_, (hasAt_append.mp front).1, _, (hasAt_append.mp front).2, _, at₃, _, at₄, rfl⟩
    case closure proto captures =>
      obtain ⟨front, at₃⟩ := hasAt_append.mp h
      have count : (UInt8.ofNat captures.val.length).toNat = captures.val.length := by
        rw [UInt8.toNat_ofNat']
        omega
      refine ⟨_, (hasAt_append.mp front).1, _, (hasAt_append.mp front).2, ?_⟩
      have read := readCaptures_eq_ok.mpr ⟨at₃, count.symm, rfl⟩
      refine bind_eq_ok.mpr ⟨_, read, ?_⟩
      simp only [captures.property, dif_pos]
      simp only [Instr.operands, length_append, captureBytes_length, count]
      congr 2
      omega

/-- **The virtual machine finds exactly the instructions of the build that stand in the code.** -/
theorem fetch_eq_ok {cfg : Config} {i : Instr} : fetch cfg code pc = .ok (i, next) ↔
      HasAt code pc i.encode ∧ i.Valid cfg ∧ next = pc + i.size := by
  have size : i.size = i.operands.length + 1 := rfl
  unfold fetch
  rw [finds_u8.bind]
  constructor
  · rintro ⟨opcode, at₁, h⟩
    dsimp only at h
    split at h
    · cases h
    · rename_i op known
      obtain ⟨rfl, operands, valid, rfl⟩ := readOperands_eq_ok.mp h
      rw [← Opcode.toByte_of_ofByte known] at at₁
      exact ⟨hasAt_append.mpr ⟨at₁, operands⟩, valid, by simp only [length_singleton]; omega⟩
  · rintro ⟨h, valid, rfl⟩
    have parts := hasAt_append.mp (show HasAt code pc ([_] ++ i.operands) from h)
    refine ⟨_, parts.1, ?_⟩
    dsimp only
    rw [Opcode.ofByte_toByte]
    exact readOperands_eq_ok.mpr ⟨rfl, parts.2, valid, by simp only [length_singleton]; omega⟩

/-! ## The size table -/

/-- The table's entry for the bytes of an opcode. -/
def Opcode.entry (typecheck : Bool) : Opcode → Nat
  | .plain op => if op = .typecheckArgs ∧ typecheck = false then 0 else 1
  | .byte _ => 2
  | .word _ | .jump _ => 3
  | .named _ | .staticInit | .feNext => 4
  | .pair _ | .loadI32 => 5
  | .triple _ => 6
  | .defProp => if typecheck then 7 else 4
  | .closure => 15

theorem sizeEntry_toByte (typecheck : Bool) (op : Opcode) :
    op.toByte ≤ 0x95 ∧ sizeEntry typecheck op.toByte = op.entry typecheck := by
  cases typecheck <;> cases op with
  | plain op => cases op <;> decide
  | byte op => cases op <;> decide
  | word op => cases op <;> decide
  | jump op => cases op <;> decide
  | named op => cases op <;> decide
  | pair op => cases op <;> decide
  | triple op => cases op <;> decide
  | _ => decide

theorem sizeEntry_of_unknown {typecheck : Bool} {b : UInt8} (unknown : Opcode.ofByte b = none) :
    b > 0x95 ∨ sizeEntry typecheck b = 0 := by
  have all : ∀ n : Fin 0x96, sizeEntry typecheck (UInt8.ofNat n) = 0 ∨
      (Opcode.ofByte (UInt8.ofNat n)).isSome = true := by
    cases typecheck <;> decide +kernel
  by_cases small : b.toNat < 0x96
  · right
    rcases all ⟨b.toNat, small⟩ with zero | known
    · simpa only [UInt8.ofNat_toNat] using zero
    · simp only [UInt8.ofNat_toNat, unknown] at known
      cases known
  · left
    show (0x95 : UInt8).toNat < b.toNat
    rw [show (0x95 : UInt8).toNat = 0x95 from rfl]
    omega

theorem instructionSize_of_hasAt {cfg : Config} {i : Instr} (h : HasAt code pc i.encode)
    (valid : i.Valid cfg) : instructionSize cfg code pc = i.size := by
  have fits := h.end_le i.encode_ne_nil
  have size : i.size = i.encode.length := rfl
  have first : byteAt code pc = i.opcode.toByte := h.byteAt
  obtain ⟨small, entry⟩ := sizeEntry_toByte cfg.typecheck i.opcode
  unfold instructionSize
  rw [if_neg (by have := i.size_pos; omega)]
  rw [first, if_neg (UInt8.not_lt.mpr small), entry]
  have fixed (n : Nat) (hn : i.opcode.entry cfg.typecheck = n) (h0 : n ≠ 0) (h15 : n ≠ 15)
      (hsize : i.size = n) :
      (if n = 0 then 0 else if n = 15 then
        if rangeAvailable (pc + 1) 3 code.length then
          let size := 4 + (byteAt code (pc + 3)).toNat * 2
          if rangeAvailable (pc + 1) (size - 1) code.length then size else 0
        else 0
      else if rangeAvailable (pc + 1) (n - 1) code.length then n else 0) = i.size := by
    rw [if_neg h0, if_neg h15, if_pos, hsize]
    simp only [rangeAvailable, Bool.and_eq_true, decide_eq_true_eq]
    omega
  cases i with
  | plain op =>
    have known : ¬ (op = .typecheckArgs ∧ cfg.typecheck = false) := by
      rintro ⟨rfl, untyped⟩
      have typed : cfg.typecheck = true := valid
      rw [untyped] at typed
      cases typed
    have one : (Instr.plain op).opcode.entry cfg.typecheck = 1 := if_neg known
    rw [one]
    exact fixed 1 one (by decide) (by decide) rfl
  | defProp name flags type =>
    have typed : type.isSome = cfg.typecheck := valid
    cases type with
    | none =>
      have four : (Instr.defProp name flags none).opcode.entry cfg.typecheck = 4 := by
        rw [← typed]; rfl
      rw [four]
      exact fixed 4 four (by decide) (by decide) rfl
    | some type =>
      have seven : (Instr.defProp name flags (some type)).opcode.entry cfg.typecheck = 7 := by
        rw [← typed]; rfl
      rw [seven]
      exact fixed 7 seven (by decide) (by decide) rfl
  | closure proto captures =>
    have count : (byteAt code (pc + 3)).toNat = captures.val.length := by
      have parts := (hasAt_append.mp (hasAt_cons.mp h).2).1
      have at3 := (hasAt_append.mp parts).2.byteAt
      rw [show pc + 3 = pc + 1 + (le16 proto).length from rfl, at3, UInt8.toNat_ofNat']
      omega
    have hsize : (Instr.closure proto captures).size = 4 + captures.val.length * 2 := by
      simp only [Instr.size, Instr.encode, Instr.operands, length_cons, length_append,
        le16_length, captureBytes_length, length_nil]
      omega
    rw [show (Instr.closure proto captures).opcode.entry cfg.typecheck = 15 from rfl,
      if_neg (by decide), if_pos rfl, if_pos, count, if_pos, hsize]
    · simp only [rangeAvailable, Bool.and_eq_true, decide_eq_true_eq]
      omega
    · simp only [rangeAvailable, Bool.and_eq_true, decide_eq_true_eq]
      omega
  | _ => exact fixed _ rfl (by simp [Instr.opcode, Opcode.entry]) (by simp [Instr.opcode, Opcode.entry]) rfl

/-! What fits inside the code stands there. -/

theorem exists_u8 (low : pc + 1 ≤ code.length) : ∃ a, HasAt code pc [a] :=
  ⟨_, hasAt_cons.mpr ⟨getElem?_eq_getElem low, .nil _ _⟩⟩

theorem exists_u16 (low : pc + 2 ≤ code.length) : ∃ a, HasAt code pc (le16 a) := by
  obtain ⟨b0, h₀⟩ := exists_u8 (show pc + 1 ≤ code.length by omega)
  obtain ⟨b1, h₁⟩ := exists_u8 (show pc + 1 + 1 ≤ code.length by omega)
  exact ⟨_, (congrArg (HasAt code pc) (le16_bytes b0 b1)).mpr (hasAt_append.mpr ⟨h₀, h₁⟩)⟩

theorem exists_i16 (low : pc + 2 ≤ code.length) : ∃ a, HasAt code pc (lei16 a) := by
  obtain ⟨w, h⟩ := exists_u16 low
  exact ⟨w.toInt16, h⟩

theorem exists_i32 (low : pc + 4 ≤ code.length) : ∃ a : Int32, HasAt code pc (le32 a.toUInt32) := by
  obtain ⟨b0, h₀⟩ := exists_u8 (show pc + 1 ≤ code.length by omega)
  obtain ⟨b1, h₁⟩ := exists_u8 (show pc + 1 + 1 ≤ code.length by omega)
  obtain ⟨b2, h₂⟩ := exists_u8 (show pc + 1 + 1 + 1 ≤ code.length by omega)
  obtain ⟨b3, h₃⟩ := exists_u8 (show pc + 1 + 1 + 1 + 1 ≤ code.length by omega)
  exact ⟨(UInt32.ofNat _).toInt32, (congrArg (HasAt code pc) (le32_bytes b0 b1 b2 b3)).mpr
    (hasAt_append.mpr ⟨h₀, hasAt_append.mpr ⟨h₁, hasAt_append.mpr ⟨h₂, h₃⟩⟩⟩)⟩

theorem exists_captures {count : Nat} (low : pc + 2 * count ≤ code.length) :
    ∃ captures, HasAt code pc (captureBytes captures) ∧ captures.length = count := by
  induction count generalizing pc with
  | zero => exact ⟨[], .nil _ _, rfl⟩
  | succ count ih =>
    obtain ⟨kind, h₀⟩ := exists_u8 (show pc + 1 ≤ code.length by omega)
    obtain ⟨slot, h₁⟩ := exists_u8 (show pc + 1 + 1 ≤ code.length by omega)
    obtain ⟨rest, h₂, hlen⟩ := ih (show pc + 1 + 1 + 2 * count ≤ code.length by omega)
    exact ⟨(kind, slot) :: rest, hasAt_append.mpr ⟨hasAt_append.mpr ⟨h₀, h₁⟩, h₂⟩, congrArg (· + 1) hlen⟩

theorem exists_operands {cfg : Config} {op : Opcode} (known : op.entry cfg.typecheck ≠ 0)
    (fixed : op ≠ .closure) (fits : pc + (op.entry cfg.typecheck - 1) ≤ code.length) :
    ∃ i : Instr, i.opcode = op ∧ HasAt code pc i.operands ∧ i.Valid cfg := by
  cases op <;> simp only [Opcode.entry] at fits known
  case plain op =>
    have hop : ¬ (op = .typecheckArgs ∧ cfg.typecheck = false) := fun h => known (if_pos h)
    refine ⟨.plain op, rfl, .nil _ _, ?_⟩
    cases op <;> first | trivial | simpa [Instr.Valid] using hop
  case byte op =>
    obtain ⟨a, h⟩ := exists_u8 fits
    exact ⟨.byte op a, rfl, h, trivial⟩
  case word op =>
    obtain ⟨a, h⟩ := exists_u16 fits
    exact ⟨.word op a, rfl, h, trivial⟩
  case jump op =>
    obtain ⟨a, h⟩ := exists_i16 fits
    exact ⟨.jump op a, rfl, h, trivial⟩
  case named op =>
    obtain ⟨a, h₁⟩ := exists_u16 (show pc + 2 ≤ code.length by omega)
    obtain ⟨b, h₂⟩ := exists_u8 (show pc + 2 + 1 ≤ code.length by omega)
    exact ⟨.named op a b, rfl, hasAt_append.mpr ⟨h₁, h₂⟩, trivial⟩
  case pair op =>
    obtain ⟨a, h₁⟩ := exists_u16 (show pc + 2 ≤ code.length by omega)
    obtain ⟨b, h₂⟩ := exists_u16 (show pc + 2 + 2 ≤ code.length by omega)
    exact ⟨.pair op a b, rfl, hasAt_append.mpr ⟨h₁, h₂⟩, trivial⟩
  case triple op =>
    obtain ⟨a, h₁⟩ := exists_u16 (show pc + 2 ≤ code.length by omega)
    obtain ⟨b, h₂⟩ := exists_u16 (show pc + 2 + 2 ≤ code.length by omega)
    obtain ⟨c, h₃⟩ := exists_u8 (show pc + 2 + 2 + 1 ≤ code.length by omega)
    exact ⟨.triple op a b c, rfl, hasAt_append.mpr ⟨hasAt_append.mpr ⟨h₁, h₂⟩, h₃⟩, trivial⟩
  case loadI32 =>
    obtain ⟨a, h⟩ := exists_i32 fits
    exact ⟨.loadI32 a, rfl, h, trivial⟩
  case staticInit =>
    obtain ⟨a, h₁⟩ := exists_u8 (show pc + 1 ≤ code.length by omega)
    obtain ⟨b, h₂⟩ := exists_i16 (show pc + 1 + 2 ≤ code.length by omega)
    exact ⟨.staticInit a b, rfl, hasAt_append.mpr ⟨h₁, h₂⟩, trivial⟩
  case feNext =>
    obtain ⟨a, h₁⟩ := exists_i16 (show pc + 2 ≤ code.length by omega)
    obtain ⟨b, h₂⟩ := exists_u8 (show pc + 2 + 1 ≤ code.length by omega)
    exact ⟨.feNext a b, rfl, hasAt_append.mpr ⟨h₁, h₂⟩, trivial⟩
  case defProp =>
    have front : pc + 3 ≤ code.length := by
      split at fits <;> omega
    obtain ⟨a, h₁⟩ := exists_u16 (show pc + 2 ≤ code.length by omega)
    obtain ⟨b, h₂⟩ := exists_u8 (show pc + 2 + 1 ≤ code.length by omega)
    have both := hasAt_append.mpr ⟨h₁, h₂⟩
    cases typed : cfg.typecheck with
    | true =>
      rw [typed, if_pos rfl] at fits
      obtain ⟨c, h₃⟩ := exists_u16 (show pc + 2 + 1 + 2 ≤ code.length by omega)
      obtain ⟨d, h₄⟩ := exists_u8 (show pc + 2 + 1 + 2 + 1 ≤ code.length by omega)
      exact ⟨.defProp a b (some (c, d)), rfl, hasAt_append.mpr ⟨hasAt_append.mpr ⟨both, h₃⟩, h₄⟩, typed.symm⟩
    | false => exact ⟨.defProp a b none, rfl, both, typed.symm⟩
  case closure => exact absurd rfl fixed

theorem fetch_isOk_of_size {cfg : Config} (valid : instructionSize cfg code pc ≠ 0) :
    ∃ r, fetch cfg code pc = .ok r := by
  unfold instructionSize at valid
  split at valid
  · exact absurd rfl valid
  rename_i low
  dsimp only at valid
  split at valid
  · exact absurd rfl valid
  rename_i small
  cases hop : Opcode.ofByte (byteAt code pc) with
  | none =>
    have table : _ ∨ sizeEntry cfg.typecheck _ = 0 := sizeEntry_of_unknown hop
    rcases table with big | zero
    · exact absurd big small
    · exact absurd (if_pos zero) valid
  | some op =>
    have byte := Opcode.toByte_of_ofByte hop
    have entry := (sizeEntry_toByte cfg.typecheck op).2
    rw [byte] at entry
    rw [entry] at valid
    have known : op.entry cfg.typecheck ≠ 0 := fun zero => valid (if_pos zero)
    rw [if_neg known] at valid
    suffices h : ∃ i : Instr, i.opcode = op ∧ HasAt code (pc + 1) i.operands ∧ i.Valid cfg by
      obtain ⟨i, rfl, operands, exists'⟩ := h
      refine ⟨_, fetch_eq_ok.mpr ⟨hasAt_cons.mpr ⟨?_, operands⟩, exists', rfl⟩⟩
      rw [byte, byteAt, getD_eq_getElem?_getD, getElem?_eq_getElem (by omega), Option.getD_some]
    by_cases fixed : op = .closure
    · subst fixed
      rw [show Opcode.closure.entry cfg.typecheck = 15 from rfl, if_pos rfl] at valid
      split at valid
      · split at valid
        · rename_i header body
          simp only [rangeAvailable, Bool.and_eq_true, decide_eq_true_eq] at header body
          obtain ⟨proto, h₁⟩ := exists_u16 (show pc + 1 + 2 ≤ code.length by omega)
          obtain ⟨count, h₂⟩ := exists_u8 (show pc + 3 + 1 ≤ code.length by omega)
          rw [h₂.byteAt] at body
          obtain ⟨captures, h₃, hlen⟩ := exists_captures
            (show pc + 1 + 2 + 1 + 2 * count.toNat ≤ code.length by omega)
          have bound : captures.length ≤ 255 := by
            have := count.toNat_lt
            omega
          rw [← count.ofNat_toNat, ← hlen] at h₂
          exact ⟨.closure proto ⟨captures, bound⟩, rfl, hasAt_append.mpr ⟨hasAt_append.mpr ⟨h₁, h₂⟩, h₃⟩, trivial⟩
        · exact absurd rfl valid
      · exact absurd rfl valid
    · have short : op.entry cfg.typecheck ≠ 15 := by
        cases op with
        | plain op => simp only [Opcode.entry]; split <;> decide
        | defProp => simp only [Opcode.entry]; split <;> decide
        | closure => exact absurd rfl fixed
        | _ => simp [Opcode.entry]
      rw [if_neg short] at valid
      split at valid
      · rename_i range
        simp only [rangeAvailable, Bool.and_eq_true, decide_eq_true_eq] at range
        exact exists_operands known fixed (by omega)
      · exact absurd rfl valid

/-- **The size table covers exactly the operands the virtual machine reads**, for every opcode. -/
theorem instructionSize_eq_fetch (cfg : Config) (code : List UInt8) (pc : Nat) :
    instructionSize cfg code pc =
      match fetch cfg code pc with
      | .ok (_, next) => next - pc
      | .error _ => 0 := by
  cases hf : fetch cfg code pc with
  | ok r =>
    obtain ⟨i, next⟩ := r
    obtain ⟨h, valid, rfl⟩ := fetch_eq_ok.mp hf
    rw [instructionSize_of_hasAt h valid]
    exact (Nat.add_sub_cancel_left ..).symm
  | error fault =>
    by_contra size
    obtain ⟨r, hr⟩ := fetch_isOk_of_size size
    rw [hr] at hf
    cases hf

end PhpPico
