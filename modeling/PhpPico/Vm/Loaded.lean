import PhpPico.Pbc.Records
import PhpPico.Vm.Heights

/-!
# Running loaded code

What the checks of the loader mean for the virtual machine: every instruction of a loaded proto is decoded, with
operands in the tables, and its jumps lead to instructions. So in every run a frame of loaded code stands at an
instruction, or at the end of its code: the loader does not ask for a last one that ends the frame.
-/

namespace PhpPico
open List ByteLayout Fallible

variable {cfg : Config}

/-! ## Table operands -/

/-- The operands that index a table: local slots, constants (all but one opcode want strings), and
protos of the module. -/
def Instr.InTables (m : Module cfg) (p : Proto cfg) : Instr → Prop
  | .byte .loadLocal slot | .byte .loadLocalQuiet slot | .byte .storeLocal slot
  | .byte .unsetLocal slot | .byte .bindGlobal slot | .staticInit slot _ => slot.toNat < p.nLocals
  | .word .loadConst index => index.toNat < p.constants.length
  | .word .defFunc target => target.toNat < m.protos.length
  | .word .newArray _ | .word .line _ => True
  | .word _ name | .named _ name _ => (p.stringConstant name).isSome
  | .pair _ left right | .triple .scall left right _ =>
    (p.stringConstant left).isSome ∧ (p.stringConstant right).isSome
  | .triple .defClass name parent _ =>
    (p.stringConstant name).isSome ∧ (parent = 0xffff ∨ (p.stringConstant parent).isSome)
  | .triple .defMethod name target _ =>
    (p.stringConstant name).isSome ∧ target.toNat < m.protos.length
  | .defProp name _ type => (p.stringConstant name).isSome ∧ ∀ index hasDefault, type = some (index, hasDefault) →
        index = 0xffff ∨ (p.stringConstant index).isSome
  | .closure target captures => target.toNat < m.protos.length ∧
      ∀ capture ∈ captures.val, capture.1 = 0 ∧ capture.2.toNat < p.nLocals
  | _ => True

/-- The operands of a catch entry: its class and the slot of the exception. -/
def PCatch.InTables (p : Proto cfg) (entry : PCatch) : Prop :=
  (entry.classConstant = 0xffff ∨ (p.stringConstant entry.classConstant).isSome) ∧
    (entry.variableSlot = 255 ∨ entry.variableSlot.toNat < p.nLocals)

/-- When the instruction jumps, it jumps to one of the positions. -/
def Instr.JumpsInto (starts : List Nat) (code : List UInt8) (next : Nat) (i : Instr) : Prop :=
  ∀ leaves, (leaves, true) ∈ i.moves → ∃ target ∈ starts, jumpRelative code next i.displacement = some target

/-- What validation establishes for a proto of a module. -/
structure Proto.Checked (m : Module cfg) (p : Proto cfg) : Prop where
  entry : 0 ∈ p.starts ∨ p.code = []
  decodes : ∀ pc ∈ p.starts, ∃ i next, fetch cfg p.code pc = .ok (i, next) ∧ i.InTables m p ∧
    i.JumpsInto p.starts p.code next ∧ (next ∈ p.starts ∨ next = p.code.length)
  handler : ∀ entry ∈ p.catches, entry.handlerPc.toNat ∈ p.starts
  catches : ∀ entry ∈ p.catches, entry.InTables p

/-! ## Instruction starts -/

variable {code : List UInt8}

variable {fuel pc offset limit count : Nat} {starts : List Nat} {m m' : Module cfg} {p q : Proto cfg}
  {isEntry : Bool} {refs : List (Option ProtoRef)} {bytes : List UInt8} {strings : List PString}

theorem instructionStarts_decode (inside : pc ≤ code.length) (h : instructionStarts cfg code fuel pc = some starts) :
    (pc ∈ starts ∨ pc = code.length) ∧ ∀ q ∈ starts, ∃ i next, fetch cfg code q = .ok (i, next) ∧
      (next ∈ starts ∨ next = code.length) := by
  induction fuel generalizing pc starts with
  | zero =>
    simp only [instructionStarts] at h
    split at h
    · cases h
    · cases h
      exact ⟨.inr (by omega), fun q hq => nomatch hq⟩
  | succ fuel ih =>
    simp only [instructionStarts] at h
    split at h
    · split at h
      · cases h
      · rename_i size
        obtain ⟨rest, hrest, rfl⟩ := Option.map_eq_some_iff.mp h
        obtain ⟨⟨i, next⟩, fetched⟩ := fetch_isOk_of_size size
        obtain ⟨stands, valid, rfl⟩ := fetch_eq_ok.mp fetched
        have bound := stands.end_le i.encode_ne_nil
        rw [instructionSize_of_hasAt stands valid] at hrest
        obtain ⟨first, others⟩ := ih bound hrest
        refine ⟨.inl (.head _), fun q hq => ?_⟩
        rcases mem_cons.mp hq with rfl | hq
        · exact ⟨i, _, fetched, first.imp_left (mem_cons_of_mem _)⟩
        · obtain ⟨j, after, found, next⟩ := others q hq
          exact ⟨j, after, found, next.imp_left (mem_cons_of_mem _)⟩
    · cases h
      exact ⟨.inr (by omega), fun q hq => nomatch hq⟩

/-- Inside the code the list of starts goes on with the position itself. -/
theorem instructionStarts_cons (low : pc < code.length) (h : instructionStarts cfg code fuel pc = some starts) :
    ∃ fewer rest, starts = pc :: rest ∧
      instructionStarts cfg code fewer (pc + instructionSize cfg code pc) = some rest := by
  cases fuel with
  | zero => simp only [instructionStarts, low, if_true, reduceCtorEq] at h
  | succ fuel =>
    simp only [instructionStarts, low, if_true] at h
    split at h
    · cases h
    · obtain ⟨rest, hrest, rfl⟩ := Option.map_eq_some_iff.mp h
      exact ⟨fuel, rest, rfl, hrest⟩

theorem mem_starts_of_reaches {target steps : Nat} (low : target < code.length)
    (h : instructionStarts cfg code fuel pc = some starts)
    (reaches : reachesBoundary cfg code target steps pc = true) : target ∈ starts := by
  have here (same : pc = target) : target ∈ starts := by
    subst same
    obtain ⟨_, _, rfl, _⟩ := instructionStarts_cons low h
    exact .head _
  induction steps generalizing fuel pc starts with
  | zero => exact here (by simpa only [reachesBoundary, beq_iff_eq] using reaches)
  | succ steps ih =>
    simp only [reachesBoundary] at reaches
    split at reaches
    · rename_i before
      split at reaches
      · cases reaches
      · obtain ⟨fewer, rest, rfl, hrest⟩ := instructionStarts_cons (by omega) h
        apply mem_cons_of_mem
        refine ih hrest reaches fun same => ?_
        subst same
        obtain ⟨_, _, rfl, _⟩ := instructionStarts_cons low hrest
        exact .head _
    · exact here (by simpa only [beq_iff_eq] using reaches)

theorem mem_starts_of_boundary {target : Nat} (h : codeStarts cfg code = some starts)
    (boundary : instructionBoundary cfg code target = true) : target ∈ starts ∧ target < code.length := by
  simp only [instructionBoundary, Bool.and_eq_true, decide_eq_true_eq] at boundary
  exact ⟨mem_starts_of_reaches boundary.1 h boundary.2, boundary.1⟩

/-- A jump that passes the loader's check is in range and leads to a start. -/
theorem jumpRelative_of_targetBoundary {next : Nat} {relative : Int16} (h : codeStarts cfg code = some starts)
    (boundary : targetBoundary cfg code ((next : Int) + relative.toInt) = true) :
    ∃ target ∈ starts, jumpRelative code next relative = some target := by
  simp only [targetBoundary, Bool.and_eq_true, decide_eq_true_eq] at boundary
  obtain ⟨mem, low⟩ := mem_starts_of_boundary h boundary.2
  refine ⟨_, mem, ?_⟩
  unfold jumpRelative
  rw [if_pos ⟨boundary.1, by omega⟩]

/-! ## Operands -/

theorem guardSome_eq_some {α : Type} {condition : Bool} {a b : α}
    (h : guardSome condition a = some b) : condition = true := by
  unfold guardSome at h
  split at h
  · assumption
  · cases h

theorem operand_word {op : UInt8} {a : UInt16} {rest : List UInt8}
    (h : HasAt code pc (op :: (le16 a ++ rest))) : u16At code (pc + 1) = a :=
  u16At_of_hasAt (hasAt_append.mp (hasAt_cons.mp h).2).1

theorem behind_word {op : UInt8} {a : UInt16} {rest : List UInt8}
    (h : HasAt code pc (op :: (le16 a ++ rest))) : HasAt code (pc + 1 + 2) rest :=
  (hasAt_append.mp (hasAt_cons.mp h).2).2

theorem hasAt_captures {k : Nat} {captures : List (UInt8 × UInt8)} {capture : UInt8 × UInt8}
    (h : HasAt code offset (captureBytes captures)) (at_k : captures[k]? = some capture) :
    byteAt code (offset + 2 * k) = capture.1 ∧ byteAt code (offset + 2 * k + 1) = capture.2 := by
  induction captures generalizing offset k with
  | nil => cases at_k
  | cons first rest ih =>
    rw [captureBytes, flatMap_cons, ← captureBytes] at h
    obtain ⟨head, tail⟩ := hasAt_append.mp h
    cases k with
    | zero =>
      cases at_k
      exact ⟨head.byteAt, (hasAt_cons.mp head).2.byteAt⟩
    | succ k =>
      have := ih tail at_k
      rw [show offset + 2 * (k + 1) = offset + 2 + 2 * k by omega]
      exact this

/-- **The checks of the loader cover the operands**: they are in the tables, and jumps lead to
instructions. -/
theorem checkInstruction_sound {next : Nat} {i : Instr} {st st' : CodeCheck}
    (hstarts : codeStarts cfg p.code = some starts) (fetched : fetch cfg p.code pc = .ok (i, next))
    (h : checkInstruction m p pc (instructionSize cfg p.code pc) st = some st') :
    i.InTables m p ∧ i.JumpsInto starts p.code next := by
  obtain ⟨stands, valid, rfl⟩ := fetch_eq_ok.mp fetched
  rw [instructionSize_of_hasAt stands valid] at h
  have opcode : Opcode.ofByte (byteAt p.code pc) = some i.opcode := by
    rw [stands.byteAt, Opcode.ofByte_toByte]
  have noJump (none : ∀ leaves, (leaves, true) ∉ i.moves) :
      i.JumpsInto starts p.code (pc + i.size) := fun leaves mem => absurd mem (none leaves)
  simp only [checkInstruction, opcode] at h
  cases i with
  | plain op =>
    refine ⟨trivial, noJump fun leaves mem => ?_⟩
    obtain ⟨left, -, same⟩ := List.mem_map.mp mem
    cases same
  | byte op a =>
    have operand : byteAt p.code (pc + 1) = a := (hasAt_cons.mp stands).2.byteAt
    refine ⟨?_, noJump fun leaves mem => by cases mem_singleton.mp mem⟩
    have slot (h : guardSome (decide (a.toNat < p.nLocals)) st = some st') : a.toNat < p.nLocals :=
      of_decide_eq_true (guardSome_eq_some h)
    cases op <;> simp only [Instr.opcode, operand] at h <;> first | trivial | exact slot h
  | word op a =>
    have operand : u16At p.code (pc + 1) = a := u16At_of_hasAt (hasAt_cons.mp stands).2
    refine ⟨?_, noJump fun leaves mem => by cases mem_singleton.mp mem⟩
    have name (h : guardSome (p.stringConstant a).isSome st = some st') :
        (p.stringConstant a).isSome := guardSome_eq_some h
    have member {building : Bool}
        (h : guardSome ((p.stringConstant a).isSome && building) st = some st') :
        (p.stringConstant a).isSome := ((Bool.and_eq_true _ _).mp (guardSome_eq_some h)).1
    cases op <;> simp only [Instr.opcode, operand] at h <;>
      first | trivial | exact name h | exact member h | skip
    · have low : a.toNat < p.constants.length := of_decide_eq_true (guardSome_eq_some h)
      exact low
    · split at h
      · cases h
      · exact (List.getElem?_eq_some_iff.mp ‹_›).1
  | jump op rel =>
    have operand : u16At p.code (pc + 1) = rel.toUInt16 := u16At_of_hasAt (hasAt_cons.mp stands).2
    refine ⟨trivial, fun leaves mem => ?_⟩
    simp only [Instr.opcode, operand, Int16.toInt16_toUInt16] at h
    exact jumpRelative_of_targetBoundary hstarts (guardSome_eq_some h)
  | named op name argc =>
    have operand : u16At p.code (pc + 1) = name := operand_word stands
    refine ⟨?_, noJump fun leaves mem => by cases mem_singleton.mp mem⟩
    simp only [Instr.opcode, operand] at h
    exact ((Bool.and_eq_true _ _).mp (guardSome_eq_some h)).1
  | pair op a b =>
    have first : u16At p.code (pc + 1) = a := operand_word stands
    have second : u16At p.code (pc + 1 + 2) = b := u16At_of_hasAt (behind_word stands)
    refine ⟨?_, noJump fun leaves mem => by cases mem_singleton.mp mem⟩
    simp only [Instr.opcode, first, second] at h
    exact (Bool.and_eq_true _ _).mp (guardSome_eq_some h)
  | triple op a b c =>
    rw [Instr.encode, Instr.operands, append_assoc] at stands
    have first : u16At p.code (pc + 1) = a := operand_word stands
    have second : u16At p.code (pc + 1 + 2) = b := u16At_of_hasAt (hasAt_append.mp (behind_word stands)).1
    refine ⟨?_, noJump fun leaves mem => by cases mem_singleton.mp mem⟩
    cases op with
    | scall =>
      simp only [Instr.opcode, first, second] at h
      exact (Bool.and_eq_true _ _).mp ((Bool.and_eq_true _ _).mp (guardSome_eq_some h)).1
    | defClass =>
      simp only [Instr.opcode, first, second] at h
      split at h
      · cases h
      · rename_i name hname
        split at h
        · cases h
        · rename_i ok
          simp only [Bool.or_eq_true, not_or, Bool.not_eq_true, Bool.not_eq_true'] at ok
          refine ⟨by rw [hname]; rfl, ?_⟩
          simpa only [Bool.not_eq_false, Bool.or_eq_true, beq_iff_eq] using ok.1.2
    | defMethod =>
      simp only [Instr.opcode, first, second] at h
      split at h
      · rename_i cls name method building hname hmethod
        exact ⟨by rw [hname]; rfl, (List.getElem?_eq_some_iff.mp hmethod).1⟩
      · cases h
  | loadI32 value =>
    exact ⟨trivial, noJump fun leaves mem => by cases mem_singleton.mp mem⟩
  | staticInit slot rel =>
    have parts := (hasAt_cons.mp stands).2
    have first : byteAt p.code (pc + 1) = slot := parts.byteAt
    have second : u16At p.code (pc + 1 + 1) = rel.toUInt16 := u16At_of_hasAt (hasAt_cons.mp parts).2
    simp only [Instr.opcode, first, i16At, second, Int16.toInt16_toUInt16] at h
    have ok := (Bool.and_eq_true _ _).mp (guardSome_eq_some h)
    have low : slot.toNat < p.nLocals := of_decide_eq_true ok.1
    exact ⟨low, fun leaves mem => jumpRelative_of_targetBoundary hstarts ok.2⟩
  | feNext rel hasKey =>
    have operand : u16At p.code (pc + 1) = rel.toUInt16 := operand_word stands
    simp only [Instr.opcode, operand, Int16.toInt16_toUInt16] at h
    have ok := (Bool.and_eq_true _ _).mp (guardSome_eq_some h)
    exact ⟨trivial, fun leaves mem => jumpRelative_of_targetBoundary hstarts ok.2⟩
  | defProp name flags type =>
    refine ⟨?_, noJump fun leaves mem => by cases mem_singleton.mp mem⟩
    have typed : type.isSome = cfg.typecheck := valid
    simp only [Instr.opcode] at h
    split at h
    · cases h
    · rename_i cls building
      have ok := (Bool.and_eq_true _ _).mp (guardSome_eq_some h)
      have isName := ((Bool.and_eq_true _ _).mp ok.1).1
      cases type with
      | none =>
        have first : u16At p.code (pc + 1) = name := operand_word stands
        rw [first] at isName
        exact ⟨isName, fun index hasDefault absent => by cases absent⟩
      | some type =>
        obtain ⟨index, hasDefault⟩ := type
        rw [Instr.encode, Instr.operands, append_assoc, append_assoc] at stands
        have first : u16At p.code (pc + 1) = name := operand_word stands
        have second : u16At p.code (pc + 1 + 3) = index :=
          u16At_of_hasAt (hasAt_append.mp (hasAt_append.mp (behind_word stands)).2).1
        rw [first] at isName
        have typecheck : cfg.typecheck = true := typed.symm
        have typeOk := ok.2
        rw [typecheck, second, Bool.not_true, Bool.false_or, propertyTypeOk] at typeOk
        refine ⟨isName, fun index' hasDefault' same => ?_⟩
        cases same
        by_cases absent : index = 0xffff
        · exact .inl absent
        · right
          have known := ((Bool.and_eq_true _ _).mp typeOk).2
          rw [if_neg absent] at known
          split at known
          · cases known
          · rename_i type found
            rw [found]
            rfl
  | closure target captures =>
    refine ⟨?_, noJump fun leaves mem => by cases mem_singleton.mp mem⟩
    rw [Instr.encode, Instr.operands, append_assoc] at stands
    have first : u16At p.code (pc + 1) = target := operand_word stands
    have behind := behind_word stands
    have count : (byteAt p.code (pc + 1 + 2)).toNat = captures.val.length := by
      rw [behind.byteAt, UInt8.toNat_ofNat']
      omega
    simp only [Instr.opcode, first, count] at h
    split at h
    · cases h
    · rename_i method hmethod
      split at h
      · cases h
      · rename_i ok
        simp only [Bool.or_eq_true, not_or, Bool.not_eq_true, Bool.not_eq_false'] at ok
        refine ⟨(List.getElem?_eq_some_iff.mp hmethod).1, fun capture mem => ?_⟩
        obtain ⟨k, low, rfl⟩ := mem_iff_getElem.mp mem
        have each := List.all_eq_true.mp ok.2 k (mem_range.mpr low)
        obtain ⟨kind, slot⟩ := hasAt_captures (hasAt_cons.mp behind).2 (getElem?_eq_getElem low)
        have at3 : pc + 1 + 3 + k * 2 = pc + 1 + 2 + 1 + 2 * k := by omega
        have at4 : pc + 1 + 4 + k * 2 = pc + 1 + 2 + 1 + 2 * k + 1 := by omega
        rw [at3, at4, kind, slot, Bool.and_eq_true] at each
        exact ⟨by simpa only [beq_iff_eq] using each.1, of_decide_eq_true each.2⟩

/-! ## Loaded protos -/

theorem validateCode_checked {refs' : List (Option ProtoRef)} (h : validateCode m p isEntry refs = some refs')
    (tables : ∀ entry ∈ p.catches, entry.InTables p) : p.Checked m := by
  unfold validateCode at h
  obtain ⟨starts, hstarts, h⟩ := Option.bind_eq_some_iff.mp h
  obtain ⟨st, run, h⟩ := Option.bind_eq_some_iff.mp h
  have known : p.starts = starts := by rw [Proto.starts, hstarts, Option.getD_some]
  obtain ⟨first, decode⟩ := instructionStarts_decode (Nat.zero_le _) hstarts
  split at h
  · cases h
  · rename_i ok
    simp only [Bool.or_eq_true, not_or, Bool.not_eq_true, Bool.not_eq_false'] at ok
    have boundaries := List.all_eq_true.mp ok.1.2
    constructor
    · rw [known]
      exact first.imp_right fun empty => length_eq_zero_iff.mp empty.symm
    · rw [known]
      intro pc mem
      obtain ⟨i, next, fetched, after⟩ := decode pc mem
      obtain ⟨before, after', checked⟩ := foldlM_some_mem run mem
      obtain ⟨inTables, jumps⟩ := checkInstruction_sound hstarts fetched checked
      exact ⟨i, next, fetched, inTables, jumps, after⟩
    · rw [known]
      intro entry mem
      have positions := boundaries entry mem
      simp only [catchBoundaries, Bool.and_eq_true] at positions
      exact (mem_starts_of_boundary hstarts positions.2).1
    · exact tables

theorem validateProtos_mem {protos : List (Proto cfg)} {refs' : List (Option ProtoRef)}
    (h : validateProtos m protos isEntry refs = some refs') (mem : p ∈ protos) :
    ∃ isEntry before after, validateCode m p isEntry before = some after := by
  induction protos generalizing isEntry refs with
  | nil => cases mem
  | cons q rest ih =>
    unfold validateProtos at h
    obtain ⟨next, head, tail⟩ := Option.bind_eq_some_iff.mp h
    rcases mem_cons.mp mem with rfl | mem
    · exact ⟨_, _, _, head⟩
    · exact ih tail mem

theorem finalizeProtoRoles_protos (h : finalizeProtoRoles m refs = some m') :
    Forall₂ (fun p q => ∃ role, q = { p with role := role }) m.protos m'.protos := by
  unfold finalizeProtoRoles at h
  split at h
  · rename_i none
    cases h
    rw [none]
    exact .nil
  · rename_i entry rest same
    obtain ⟨roles, hroles, h⟩ := Option.bind_eq_some_iff.mp h
    split at h
    · cases h
    · cases h
      rw [same]
      refine .cons ⟨_, rfl⟩ (forall₂_zipIdx (mapM_eq_some.mp hroles) ?_)
      intro p target q found
      obtain ⟨role, -, rfl⟩ := Option.map_eq_some_iff.mp found
      exact ⟨role, rfl⟩

/-- Roles do not matter to the checks. -/
theorem Proto.Checked.of_role {role : ProtoRole} (length : m.protos.length = m'.protos.length)
    (checked : p.Checked m) : Proto.Checked m' { p with role := role } := by
  refine ⟨checked.entry, fun pc mem => ?_, checked.handler, checked.catches⟩
  obtain ⟨i, next, fetched, tables, rest⟩ := checked.decodes pc mem
  have protos (target : Nat) (low : target < m.protos.length) : target < m'.protos.length := by
    rw [← length]
    exact low
  refine ⟨i, next, fetched, ?_, rest⟩
  cases i with
  | word op a => cases op <;> first | exact tables | exact protos _ tables
  | byte op a => cases op <;> exact tables
  | triple op a b c => cases op <;> first | exact tables | exact ⟨tables.1, protos _ tables.2⟩
  | closure target captures => exact ⟨protos _ tables.1, tables.2⟩
  | _ => exact tables

theorem validateModule_checked (h : validateModule m = some m')
    (tables : ∀ p ∈ m.protos, ∀ entry ∈ p.catches, entry.InTables p) : ∀ p ∈ m'.protos, p.Checked m' := by
  unfold validateModule at h
  obtain ⟨refs, validated, h⟩ := Option.bind_eq_some_iff.mp h
  obtain ⟨finished, roles, h⟩ := Option.bind_eq_some_iff.mp h
  split at h
  · cases h
  · cases h
    have same := finalizeProtoRoles_protos roles
    intro q mem
    obtain ⟨k, low, rfl⟩ := mem_iff_getElem.mp mem
    have before : k < m.protos.length := by rw [same.length_eq]; exact low
    obtain ⟨role, eq⟩ := same.get before low
    simp only [get_eq_getElem] at eq
    rw [eq]
    obtain ⟨isEntry, _, _, valid⟩ := validateProtos_mem validated (getElem_mem before)
    exact (validateCode_checked valid (tables _ (getElem_mem before))).of_role same.length_eq

/-! The catch entries of a loaded proto refer to its own tables. -/

theorem PCatch.InTables.mono {entry : PCatch} (h : entry.InTables p) (constants : p.constants <+: q.constants)
    (locals : q.locals = p.locals) : entry.InTables q := by
  refine ⟨h.1.imp_right fun known => ?_, ?_⟩
  · obtain ⟨name, found⟩ := Option.isSome_iff_exists.mp known
    rw [stringConstant_append constants found]
    rfl
  · unfold Proto.nLocals
    rw [locals]
    exact h.2

theorem loadConstants_catches {next : Nat}
    (h : loadConstants bytes strings limit count p offset = .ok (q, next)) : q.catches = p.catches := by
  induction count generalizing p offset with
  | zero => cases h; rfl
  | succ count ih =>
    unfold loadConstants at h
    obtain ⟨_, -, h⟩ := bind_eq_ok.mp h
    obtain ⟨_, -, h⟩ := bind_eq_ok.mp h
    obtain ⟨_, -, h⟩ := bind_eq_ok.mp h
    obtain ⟨⟨p', index⟩, added, h⟩ := bind_eq_ok.mp h
    rw [ih h, (addConstant_eq_some (orNoMem_eq_ok.mp added)).1]

theorem loadLocals_catches {next : Nat} (h : loadLocals bytes strings limit count p offset = .ok (q, next)) :
    q.catches = p.catches := by
  induction count generalizing p offset with
  | zero => cases h; rfl
  | succ count ih =>
    unfold loadLocals at h
    obtain ⟨_, -, h⟩ := bind_eq_ok.mp h
    obtain ⟨name, -, h⟩ := bind_eq_ok.mp h
    obtain ⟨⟨p', slot⟩, added, h⟩ := bind_eq_ok.mp h
    obtain ⟨_, fresh, h⟩ := bind_eq_ok.mp h
    obtain ⟨_, rfl⟩ := addLocal_new (orParse_eq_ok.mp added) (by simpa using require_eq_ok.mp fresh)
    have rest := ih h
    exact rest

theorem addCatchClass_ok {classSid classConstant : UInt16}
    (h : addCatchClass strings p classSid = .ok (q, classConstant)) :
    p.constants <+: q.constants ∧ q.locals = p.locals ∧ q.catches = p.catches ∧
      (classConstant = 0xffff ∨ (q.stringConstant classConstant).isSome) := by
  unfold addCatchClass at h
  split at h
  · cases h
    exact ⟨prefix_rfl, rfl, rfl, .inl rfl⟩
  · obtain ⟨name, -, added⟩ := bind_eq_ok.mp h
    obtain ⟨rfl, index, -⟩ := addConstant_eq_some (orNoMem_eq_ok.mp added)
    refine ⟨prefix_append _ _, rfl, rfl, .inr ?_⟩
    simp [Proto.stringConstant, index, Constant.string?]

theorem loadCatches_tables {codeLength : Nat} {next : Nat} (tables : ∀ entry ∈ p.catches, entry.InTables p)
    (h : loadCatches bytes strings limit codeLength count p offset = .ok (q, next)) :
    ∀ entry ∈ q.catches, entry.InTables q := by
  induction count generalizing p offset with
  | zero => cases h; exact tables
  | succ count ih =>
    unfold loadCatches at h
    obtain ⟨_, -, h⟩ := bind_eq_ok.mp h
    obtain ⟨_, ok, h⟩ := bind_eq_ok.mp h
    obtain ⟨⟨p₁, classConstant⟩, named, h⟩ := bind_eq_ok.mp h
    obtain ⟨p₂, added, h⟩ := bind_eq_ok.mp h
    obtain ⟨grown, locals, catches, known⟩ := addCatchClass_ok named
    obtain rfl := addCatch_eq_some (orParse_eq_ok.mp added)
    refine ih (fun entry mem => ?_) h
    rcases mem_append.mp mem with mem | mem
    · exact (tables entry (catches ▸ mem)).mono grown locals
    · cases mem_singleton.mp mem
      have slot := require_eq_ok.mp ok
      simp only [Bool.and_eq_true, Bool.or_eq_true, beq_iff_eq, decide_eq_true_eq] at slot
      refine ⟨known, slot.2.imp_right fun low => ?_⟩
      show _ < p₁.locals.length
      rw [locals]
      exact low

theorem loadTypes_tables {next : Nat} (h : loadTypes bytes strings limit p offset = .ok (q, next)) :
    q.constants = p.constants ∧ q.locals = p.locals ∧ q.catches = p.catches := by
  unfold loadTypes at h
  split at h
  · obtain ⟨_, -, h⟩ := bind_eq_ok.mp h
    obtain ⟨_, -, h⟩ := bind_eq_ok.mp h
    cases h
    exact ⟨rfl, rfl, rfl⟩
  · cases h
    exact ⟨rfl, rfl, rfl⟩

theorem loadProto_tables (h : loadProto bytes strings isEntry offset limit = .ok p) :
    ∀ entry ∈ p.catches, entry.InTables p := by
  unfold loadProto at h
  obtain ⟨_, -, h⟩ := bind_eq_ok.mp h
  obtain ⟨_, -, h⟩ := bind_eq_ok.mp h
  obtain ⟨_, -, h⟩ := bind_eq_ok.mp h
  obtain ⟨_, -, h⟩ := bind_eq_ok.mp h
  obtain ⟨⟨p₁, _⟩, constants, h⟩ := bind_eq_ok.mp h
  obtain ⟨⟨p₂, _⟩, locals, h⟩ := bind_eq_ok.mp h
  obtain ⟨⟨p₃, _⟩, catches, h⟩ := bind_eq_ok.mp h
  obtain ⟨⟨p₄, _⟩, types, h⟩ := bind_eq_ok.mp h
  obtain ⟨_, -, h⟩ := bind_eq_ok.mp h
  cases h
  have none : p₂.catches = [] := by rw [loadLocals_catches locals, loadConstants_catches constants]; rfl
  have tables := loadCatches_tables (fun entry mem => by rw [none] at mem; cases mem) catches
  obtain ⟨sameConstants, sameLocals, sameCatches⟩ := loadTypes_tables types
  intro entry mem
  rw [sameCatches] at mem
  exact (tables entry mem).mono ⟨[], by rw [sameConstants, append_nil]⟩ sameLocals

/-- **Every proto of a loaded module is checked.** -/
theorem load_checked (h : load cfg bytes = .ok m) : ∀ p ∈ m.protos, p.Checked m := by
  unfold load at h
  obtain ⟨records, read, h⟩ := bind_eq_ok.mp h
  refine validateModule_checked (orParse_eq_ok.mp h) fun p mem => ?_
  unfold loadRecords at read
  obtain ⟨_, -, read⟩ := bind_eq_ok.mp read
  obtain ⟨_, -, read⟩ := bind_eq_ok.mp read
  obtain ⟨_, -, read⟩ := bind_eq_ok.mp read
  obtain ⟨_, -, read⟩ := bind_eq_ok.mp read
  obtain ⟨_, -, read⟩ := bind_eq_ok.mp read
  obtain ⟨strings, -, read⟩ := bind_eq_ok.mp read
  obtain ⟨protos, loaded, read⟩ := bind_eq_ok.mp read
  cases read
  obtain ⟨k, low, rfl⟩ := mem_iff_getElem.mp mem
  have each := mapM_eq_ok.mp loaded
  have found := each.get (by rw [each.length_eq]; exact low) low
  exact loadProto_tables found

/-! ## Runs -/

theorem fetch_end (cfg : Config) (code : List UInt8) : fetch cfg code code.length = .error .truncated := by
  unfold fetch readU8
  rw [if_neg (lt_irrefl _)]
  rfl

theorem Proto.Checked.decodes_of_fetch {next : Nat} {i : Instr} (checked : p.Checked m)
    (place : pc ∈ p.starts ∨ pc = p.code.length) (fetched : fetch cfg p.code pc = .ok (i, next)) :
    i.InTables m p ∧ i.JumpsInto p.starts p.code next ∧ (next ∈ p.starts ∨ next = p.code.length) := by
  rcases place with mem | rfl
  · obtain ⟨j, after, found, rest⟩ := checked.decodes pc mem
    rw [found] at fetched
    cases fetched
    exact rest
  · rw [fetch_end] at fetched
    cases fetched

/-- A frame runs a proto of its module; one of loaded code stands where an instruction starts, or
at the end. -/
def Frame.Placed (f : Frame cfg) : Prop :=
  f.proto ∈ f.module.protos ∧ ((∃ bytes, load cfg bytes = .ok f.module) →
    f.pc ∈ f.proto.starts ∨ f.pc = f.proto.code.length)

variable {Value : Type} {program : Module cfg → Prop} {i : Instr} {next : Nat}

theorem Frame.Placed.move {f : Frame cfg} {leaves : Nat} {jumps : Bool} (placed : f.Placed)
    (fetched : f.fetch = .ok (i, next)) (mem : (leaves, jumps) ∈ i.moves)
    (target : i.target f.proto.code next jumps = some pc) : Frame.Placed { f with pc := pc } := by
  refine ⟨placed.1, fun loaded => ?_⟩
  obtain ⟨bytes, hload⟩ := loaded
  obtain ⟨-, jump, after⟩ := (load_checked hload _ placed.1).decodes_of_fetch
    (placed.2 ⟨bytes, hload⟩) fetched
  cases jumps with
  | true =>
    obtain ⟨start, inside, leads⟩ := jump leaves mem
    have same : some start = some pc := leads.symm.trans target
    cases same
    exact .inl inside
  | false =>
    cases target
    exact after

theorem Frame.Placed.behind {f : Frame cfg} (placed : f.Placed)
    (fetched : f.fetch = .ok (i, next)) : Frame.Placed { f with pc := next } := by
  refine ⟨placed.1, fun loaded => ?_⟩
  obtain ⟨bytes, hload⟩ := loaded
  exact ((load_checked hload _ placed.1).decodes_of_fetch (placed.2 ⟨bytes, hload⟩) fetched).2.2

theorem Frame.placed_entry (mem : p ∈ m.protos) (base : Nat) : Frame.Placed ⟨m, p, 0, base⟩ := by
  refine ⟨mem, fun loaded => ?_⟩
  obtain ⟨bytes, hload⟩ := loaded
  rcases (load_checked hload p mem).entry with start | empty
  · exact .inl start
  · right
    rw [show (⟨m, p, 0, base⟩ : Frame cfg).proto.code = [] from empty]
    rfl

theorem Effect.placed {s s' : Vm cfg Value} {f : Frame cfg} {rest : List (Frame cfg)}
    (top : s.frames = f :: rest) (fetched : f.fetch = .ok (i, next))
    (effect : Effect program i next s s') (placed : ∀ g ∈ s.frames, g.Placed) : ∀ g ∈ s'.frames, g.Placed := by
  intro g mem
  cases effect with
  | move moves target enough same =>
    cases top
    rcases mem_cons.mp mem with rfl | mem
    · exact (placed f (.head _)).move fetched moves target
    · exact placed g (.tail _ mem)
  | enter calls known callee enough same =>
    cases top
    rcases mem_cons.mp mem with rfl | mem
    · exact Frame.placed_entry callee _
    · rcases mem_cons.mp mem with rfl | mem
      · exact (placed f (.head _)).behind fetched
      · exact placed g (.tail _ mem)
  | leave returns enough same => exact placed g (.tail _ mem)

theorem Delivered.placed {throwPc : Nat} {s s' : Vm cfg Value} (delivered : Delivered throwPc s s')
    (placed : ∀ g ∈ s.frames, g.Placed) : ∀ g ∈ s'.frames, g.Placed := by
  obtain ⟨thrown, same⟩ := delivered
  obtain ⟨handles, inner, rfl⟩ := throwException_eq_some thrown
  intro g mem
  rcases mem_cons.mp mem with rfl | mem
  · rename_i h
    have before := placed h (mem_append_right _ (.head _))
    refine ⟨before.1, fun loaded => ?_⟩
    obtain ⟨bytes, hload⟩ := loaded
    exact .inl ((load_checked hload _ before.1).handler _ handles)
  · exact placed g (mem_append_right _ (.tail _ mem))

theorem Step.placed {s s' : Vm cfg Value} (step : Step program s s')
    (placed : ∀ g ∈ s.frames, g.Placed) : ∀ g ∈ s'.frames, g.Placed := by
  cases step with
  | run top fetched effect => exact effect.placed top fetched placed
  | raise top fetched partly delivered =>
    cases partly with
    | cut same => exact delivered.placed placed
    | done effect => exact delivered.placed (effect.placed top fetched placed)
  | fault top fetched delivered => exact delivered.placed placed
  | stop => exact fun g mem => nomatch mem

theorem Vm.Run.placed {s s' : Vm cfg Value} (start : Vm.Initial program s)
    (run : Vm.Run program s s') : ∀ g ∈ s'.frames, g.Placed := by
  induction run with
  | refl =>
    obtain ⟨slots, m, p, known, mem, rfl⟩ := start
    intro g hg
    cases mem_singleton.mp hg
    exact Frame.placed_entry mem 0
  | tail _ last ih => exact last.placed ih

/-- **Loaded code is decoded at the starts of its instructions, with operands in its tables**: the size table moves as
far as the virtual machine reads; and in every state of every run a frame of a loaded module stands at such an
instruction, or at the end of its code, where nothing is decoded but "truncated bytecode". -/
theorem loaded_run_sound {s s' : Vm cfg Value} (start : Vm.Initial program s)
    (run : Vm.Run program s s') :
    (∀ code pc, instructionSize cfg code pc =
      match fetch cfg code pc with
      | .ok (_, next) => next - pc
      | .error _ => 0) ∧
    ∀ f ∈ s'.frames, ∀ bytes, load cfg bytes = .ok f.module →
      (f.pc ∈ f.proto.starts ∧ (∃ i next, f.fetch = .ok (i, next) ∧ i.InTables f.module f.proto) ∨
        f.pc = f.proto.code.length ∧ f.fetch = .error .truncated) ∧
      ∀ entry ∈ f.proto.catches, entry.InTables f.proto := by
  refine ⟨instructionSize_eq_fetch cfg, fun f mem bytes hload => ?_⟩
  have placed := run.placed start f mem
  have checked := load_checked hload _ placed.1
  refine ⟨?_, checked.catches⟩
  rcases placed.2 ⟨bytes, hload⟩ with inside | ending
  · left
    obtain ⟨i, next, fetched, tables, -⟩ := checked.decodes _ inside
    exact ⟨inside, i, next, fetched, tables⟩
  · right
    refine ⟨ending, ?_⟩
    unfold Frame.fetch
    rw [ending]
    exact fetch_end cfg _

theorem loaded_run_sound_balanced : ∃ f : Frame plainBuild, f.pc = 1 ∧
      (f.pc ∈ f.proto.starts ∧ (∃ i next, f.fetch = .ok (i, next) ∧ i.InTables f.module f.proto) ∨
        f.pc = f.proto.code.length ∧ f.fetch = .error .truncated) := by
  let s : Vm plainBuild Unit := Vm.start (fun _ => ()) ⟨[balancedProto]⟩ balancedProto
  have start : Vm.Initial (· = ⟨[balancedProto]⟩) s := ⟨_, _, balancedProto, rfl, mem_singleton.mpr rfl, rfl⟩
  have accepted : load plainBuild (imageOf balancedProto) = .ok ⟨[balancedProto]⟩ := by decide +kernel
  have sound := (loaded_run_sound start (.single balanced_first)).2 _ mem_cons_self _ accepted
  exact ⟨_, rfl, sound.1⟩

/-- Code without a last instruction that ends the frame. -/
def endlessProto : Proto plainBuild := entryProto [.plain .nop]

/-- **The loader accepts code that runs off its end**: after the only instruction an opcode is
read behind the code. -/
theorem accepted_image_runs_off : load plainBuild (imageOf endlessProto) = .ok ⟨[endlessProto]⟩ ∧
      ∃ s' : Vm plainBuild Unit, Vm.Run (· = ⟨[endlessProto]⟩)
          (Vm.start (fun _ => ()) ⟨[endlessProto]⟩ endlessProto) s' ∧ ∃ f ∈ s'.frames, f.fetch = .error .truncated := by
  refine ⟨by decide +kernel, ⟨fun _ => (), 1, [⟨⟨[endlessProto]⟩, endlessProto, 1, 0⟩]⟩, ?_,
    _, .head _, by decide +kernel⟩
  have fetched : fetch plainBuild endlessProto.code 0 = .ok (.plain .nop, 1) := by decide +kernel
  have effect : Effect (· = ⟨[endlessProto]⟩) (.plain .nop) 1
      (Vm.start (fun _ => ()) ⟨[endlessProto]⟩ endlessProto)
      ⟨fun _ => (), 1, [⟨⟨[endlessProto]⟩, endlessProto, 1, 0⟩]⟩ := by
    show Effect _ _ _ ⟨_, 1, [⟨⟨[endlessProto]⟩, endlessProto, 0, 0⟩]⟩
      ⟨_, 1 - 0 + 0, [{ (⟨⟨[endlessProto]⟩, endlessProto, 0, 0⟩ : Frame plainBuild) with pc := 1 }]⟩
    exact .move (mem_singleton.mpr rfl) rfl (Nat.zero_le _) fun _ _ _ => rfl
  exact .single (.run rfl fetched effect)

end PhpPico
