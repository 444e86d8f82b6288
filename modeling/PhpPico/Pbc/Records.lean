import PhpPico.Lib.Fallible
import PhpPico.Pbc.Load

/-!
# Reading written records back

`reloadProto` is what a written proto is read back as: it keeps its code, names and types, and each catch entry's
class name is appended to the constants. `loadProto_record` is the agreement of writer and loader on one record, and
`reloadProto_ok` compares the result with the original.
-/

namespace PhpPico
open List ByteLayout Fallible
open Option (bind_eq_some_iff)

variable {cfg : Config}

/-! ## What a written proto is read back as -/

def reloadConstant (q : Proto cfg) (value : Constant cfg) : Load (Proto cfg) :=
  (orNoMem (q.addConstant value)).map Prod.fst

def reloadLocal (q : Proto cfg) (name : PString) : Load (Proto cfg) := do
  let (next, slot) ← orParse (q.addLocal name.bytes)
  require (slot.toNat == q.nLocals)
  return next

/-- A class name is appended to the constants read so far. -/
def reloadCatchClass (original q : Proto cfg) (entry : PCatch) : Load (Proto cfg × UInt16) :=
  if entry.classConstant = 0xffff then .ok (q, 0xffff)
  else do
    let name ← orParse (original.stringConstant entry.classConstant)
    orNoMem (q.addConstant (.string name))

def reloadCatch (original q : Proto cfg) (entry : PCatch) : Load (Proto cfg) := do
  require (entry.tryStart ≤ entry.tryEnd && entry.tryEnd.toNat ≤ original.code.length &&
    entry.handlerPc.toNat < original.code.length &&
    (entry.variableSlot == 255 || entry.variableSlot.toNat < q.nLocals))
  let (q, classConstant) ← reloadCatchClass original q entry
  orParse (q.addCatch { entry with classConstant })

/-- The members of a type pass the checks of the loader. -/
def reloadMembers (cfg : Config) (isParameter : Bool) (total : Nat) :
    List TypeMember → List TypeMember → Load (List TypeMember)
  | [], members => .ok members
  | member :: rest, members => do
    require (memberOk cfg isParameter total member && !members.any (sameMember · member))
    reloadMembers cfg isParameter total rest (members ++ [member])

def reloadSpec (cfg : Config) (isParameter : Bool) (spec : TypeSpec) : Load TypeSpec := do
  require (spec.members.length ≤ 16)
  let members ← reloadMembers cfg isParameter spec.members.length spec.members []
  if h : members.length ≤ 255 then return ⟨members, h⟩ else .error .noMem

def reloadTypes (original q : Proto cfg) : Load (Proto cfg) :=
  if cfg.typecheck then do
    let parameterTypes ← ((List.range original.nParams.toNat).map original.parameterType).mapM
      (reloadSpec cfg true)
    let returnType ← reloadSpec cfg false original.returnType
    return { q with parameterTypes, returnType }
  else .ok q

/-- The flags byte of a proto record. -/
def protoFlags (p : Proto cfg) : UInt8 :=
  boolBit p.variadic 1 ||| boolBit p.isMethod 2 ||| boolBit p.conditional 8

def reloadProto (isEntry : Bool) (p : Proto cfg) : Load (Proto cfg) := do
  require (protoHeaderOk isEntry p.nParams p.nRequired (protoFlags p) (UInt8.ofNat p.nLocals) 0 0)
  let q : Proto cfg :=
    { Proto.new p.name with
      nParams := p.nParams
      nRequired := p.nRequired
      variadic := p.variadic
      isMethod := p.isMethod
      conditional := p.conditional
      maxStack := p.maxStack
      code := p.code }
  let q ← p.constants.foldlM reloadConstant q
  let q ← p.locals.foldlM reloadLocal q
  let q ← p.catches.foldlM (reloadCatch p) q
  reloadTypes p q

/-! ## Reading strings back -/

section Strings
variable {strings : List PString} {s : PString} {sid : UInt16}

theorem stringIndex_lookup (few : strings.length ≤ 65535) (h : stringIndex strings s = some sid) :
    strings[sid.toNat]? = some s ∧ sid ≠ 0xffff := by
  obtain ⟨i, found, rfl⟩ := Option.map_eq_some_iff.mp h
  obtain ⟨low, same, -⟩ := findIdx?_eq_some_iff_getElem.mp found
  have index : (UInt16.ofNat i).toNat = i := by
    rw [UInt16.toNat_ofNat']
    omega
  refine ⟨by rw [index, getElem?_eq_getElem low, eq_of_beq same], fun top => ?_⟩
  have := congrArg UInt16.toNat top
  rw [index] at this
  simp at this
  omega

theorem stringAt_index (few : strings.length ≤ 65535) (h : stringIndex strings s = some sid) :
    stringAt strings sid.toNat = .ok s := by
  simp [stringAt, (stringIndex_lookup few h).1, orParse]

end Strings

/-! ## Reading constants back -/

variable {offset n : Nat} {c : Constant cfg} {record : List UInt8} {p q original : Proto cfg} {entry : PCatch}

theorem le64_wideWord {image : List UInt8} (bound : n < 2 ^ 64)
    (h : HasAt image (offset + 8) (le64 n)) : wideWord image offset = n := by
  have halves := hasAt_append.mp h
  have low := u32At_of_hasAt halves.1
  have high := u32At_of_hasAt halves.2
  rw [le32_length] at high
  simp only [wideWord, low, high, UInt32.toNat_ofNat']
  omega

/-- A value in the range of a signed width survives the width. -/
theorem toInt_ofInt_of_range {v : Int} (low : -(2 ^ n : Int) ≤ 2 * v)
    (high : 2 * v < (2 ^ n : Int)) : (BitVec.ofInt n v).toInt = v := by
  rw [BitVec.toInt_ofInt]
  apply Int.bmod_eq_of_le <;> push_cast <;> omega

theorem toInt_range {w : Nat} (v : BitVec w) (width : w = n) :
    -(2 ^ n : Int) ≤ 2 * v.toInt ∧ 2 * v.toInt < (2 ^ n : Int) := by
  subst width
  exact ⟨v.le_two_mul_toInt, v.two_mul_toInt_lt⟩

theorem int_range (v : BitVec cfg.intWidth) (wide : cfg.int64 = true) :
    -(2 ^ 64 : Int) ≤ 2 * v.toInt ∧ 2 * v.toInt < (2 ^ 64 : Int) :=
  toInt_range v (by simp [Config.intWidth, wide])

theorem int_range_small (v : BitVec cfg.intWidth) (small : (cfg.int64 && !fitsInt32 v.toInt) = false) :
    -(2 ^ 32 : Int) ≤ 2 * v.toInt ∧ 2 * v.toInt < (2 ^ 32 : Int) := by
  cases wide : cfg.int64 with
  | true =>
    simp only [wide, Bool.true_and, Bool.not_eq_false', fitsInt32, Bool.and_eq_true, decide_eq_true_eq] at small
    omega
  | false => exact toInt_range v (by simp [Config.intWidth, wide])

theorem constantRecord_length {strings : List PString}
    (h : constantRecord strings c = some record) : record.length = serializedConstantSize c := by
  cases c with
  | int value =>
    simp only [constantRecord] at h
    split at h <;> cases h <;> simp_all [serializedConstantSize, le64]
  | float bits =>
    simp only [constantRecord] at h
    split at h
    · cases h
    · split at h <;> cases h <;> simp_all [serializedConstantSize, le64]
  | string s =>
    obtain ⟨sid, -, rfl⟩ := Option.map_eq_some_iff.mp h
    simp [serializedConstantSize]

theorem constantAt_record {image strings} (few : strings.length ≤ 65535) (h : constantRecord strings c = some record)
    (placed : HasAt image offset record) : constantAt cfg image strings offset = .ok c := by
  cases c with
  | int value =>
    simp only [constantRecord] at h
    split at h
    · rename_i wide
      cases h
      rw [hasAt_append] at placed
      have tag := placed.1.byteAt
      have int64 : cfg.int64 = true := by simp_all
      have range := int_range value int64
      have word := le64_wideWord (BitVec.ofInt 64 value.toInt).isLt placed.2
      simp only [constantAt, tag, int64, if_true, word, BitVec.ofNat_toNat, BitVec.setWidth_eq,
        toInt_ofInt_of_range range.1 range.2, BitVec.ofInt_toInt]
    · rename_i small
      cases h
      rw [hasAt_append] at placed
      have tag := placed.1.byteAt
      have range := int_range_small value (by simpa using small)
      have word := u32At_of_hasAt placed.2
      simp only [length_cons, length_nil, zero_add, Nat.reduceAdd] at word
      have bound := (BitVec.ofInt 32 value.toInt).isLt
      simp only [constantAt, tag, word, UInt32.toNat_ofNat', Nat.mod_eq_of_lt bound,
        BitVec.ofNat_toNat, BitVec.setWidth_eq, toInt_ofInt_of_range range.1 range.2, BitVec.ofInt_toInt]
  | float bits =>
    simp only [constantRecord] at h
    split at h
    · cases h
    · rename_i enabled
      have enabled : cfg.enableFloat = true := by simpa using enabled
      split at h
      · rename_i wide
        cases h
        rw [hasAt_append] at placed
        have tag := placed.1.byteAt
        have bound : bits.toNat < 2 ^ 64 := by
          have := bits.isLt
          simpa [Config.floatWidth, wide] using this
        have word := le64_wideWord bound placed.2
        simp [constantAt, tag, enabled, wide, word]
      · rename_i narrow
        cases h
        rw [hasAt_append] at placed
        have tag := placed.1.byteAt
        have bound : bits.toNat < 4294967296 := by
          have := bits.isLt
          simpa [Config.floatWidth, narrow] using this
        have word := u32At_of_hasAt placed.2
        simp only [length_cons, length_nil, zero_add, Nat.reduceAdd] at word
        have same : (UInt32.ofNat bits.toNat).toNat = bits.toNat := by
          rw [UInt32.toNat_ofNat', Nat.mod_eq_of_lt bound]
        simp only [constantAt, tag, enabled, narrow, word, same, if_true, Bool.false_eq_true, if_false,
          BitVec.ofNat_toNat, BitVec.setWidth_eq]
  | string s =>
    obtain ⟨sid, index, rfl⟩ := Option.map_eq_some_iff.mp h
    rw [hasAt_append] at placed
    have tag := placed.1.byteAt
    have word := u32At_of_hasAt placed.2
    simp only [length_cons, length_nil, zero_add, Nat.reduceAdd] at word
    simp only [constantAt, tag, word, UInt16.toNat_toUInt32, stringAt_index few index]
    rfl

/-! ## Reading the parts of a proto back -/

theorem rangeAvailable_of_le {need limit : Nat} (h : offset + need ≤ limit) :
    rangeAvailable offset need limit = true := by
  simp only [rangeAvailable, Bool.and_eq_true, decide_eq_true_eq]
  omega

@[simp] theorem require_true : require true = .ok () := rfl

theorem require_eq_ok {condition : Bool} {u : Unit} : require condition = .ok u ↔ condition = true := by
  cases condition <;> simp [require]

theorem orParse_eq_ok {α : Type} {x : Option α} {a : α} : orParse x = .ok a ↔ x = some a := by
  cases x <;> simp [orParse]

theorem orNoMem_eq_ok {α : Type} {x : Option α} {a : α} : orNoMem x = .ok a ↔ x = some a := by
  cases x <;> simp [orNoMem]

theorem constantRecord_tag {strings : List PString} (h : constantRecord strings c = some record) :
    ∃ tag rest, record = tag :: rest ∧ (if tag = 3 ∨ tag = 4 then 16 else 8) = record.length := by
  cases c with
  | int value =>
    simp only [constantRecord] at h
    split at h <;> cases h <;> exact ⟨_, _, rfl, rfl⟩
  | float bits =>
    simp only [constantRecord] at h
    split at h
    · cases h
    · split at h <;> cases h <;> exact ⟨_, _, rfl, rfl⟩
  | string s =>
    obtain ⟨sid, -, rfl⟩ := Option.map_eq_some_iff.mp h
    exact ⟨_, _, rfl, rfl⟩

section Parts
variable {image : List UInt8} {strings : List PString} {limit : Nat}

variable {records : List (List UInt8)} {q : Proto cfg} {offset : Nat} {record : List UInt8}

theorem loadConstants_records (few : strings.length ≤ 65535) {constants : List (Constant cfg)}
    (written : Forall₂ (fun c r => constantRecord strings c = some r) constants records)
    (placed : HasAt image offset records.flatten) (room : offset + records.flatten.length ≤ limit) :
    loadConstants image strings limit constants.length q offset =
      (constants.foldlM reloadConstant q).map fun q => (q, offset + records.flatten.length) := by
  induction written generalizing q offset with
  | nil => rfl
  | @cons c record constants records h _ ih =>
    rw [flatten_cons] at placed room
    rw [hasAt_append] at placed
    rw [length_append] at room
    obtain ⟨tag, rest, eq, size⟩ := constantRecord_tag h
    have first : byteAt image offset = tag := by
      have := placed.1
      rw [eq] at this
      exact this.byteAt
    have read := constantAt_record few h placed.1
    have atLeast : 8 ≤ record.length := by rw [← size]; split <;> omega
    rw [length_cons, loadConstants]
    simp only [first, size, rangeAvailable_of_le (show offset + 8 ≤ limit by omega),
      rangeAvailable_of_le (show offset + record.length ≤ limit by omega), require_true, ok_bind,
      read, foldlM_cons, reloadConstant]
    cases q.addConstant c with
    | none => rfl
    | some next =>
      simp only [orNoMem, ok_bind, ih placed.2 (by omega), Except.map, flatten_cons, length_append, add_assoc]

theorem loadLocals_records (few : strings.length ≤ 65535) {locals : List PString} {sids : List UInt16}
    (written : Forall₂ (fun s sid => stringIndex strings s = some sid) locals sids)
    (placed : HasAt image offset (sids.flatMap le16)) (room : offset + 2 * locals.length ≤ limit) :
    loadLocals image strings limit locals.length q offset =
      (locals.foldlM reloadLocal q).map fun q => (q, offset + 2 * locals.length) := by
  induction written generalizing q offset with
  | nil => rfl
  | @cons s sid locals sids h _ ih =>
    rw [flatMap_cons, hasAt_append] at placed
    rw [length_cons] at room
    have name := u16At_of_hasAt placed.1
    rw [length_cons, loadLocals]
    simp only [rangeAvailable_of_le (show offset + 2 ≤ limit by omega), require_true, ok_bind, name,
      stringAt_index few h, foldlM_cons, reloadLocal]
    cases q.addLocal s.bytes with
    | none => rfl
    | some next =>
      simp only [orParse, ok_bind]
      cases require (next.2.toNat == q.nLocals) with
      | error e => rfl
      | ok =>
        have rest := ih placed.2 (q := next.1) (by rw [le16_length]; omega)
        simp only [le16_length] at rest
        simp only [ok_bind, rest, pure, Except.pure, show offset + 2 + 2 * locals.length =
          offset + 2 * (locals.length + 1) by omega]

theorem catchClass_record (few : strings.length ≤ 65535) {p : Proto cfg} {entry : PCatch} {classSid : UInt16}
    (written : catchClassSid strings p entry = some classSid) :
    addCatchClass strings q classSid = reloadCatchClass p q entry := by
  unfold catchClassSid at written
  unfold addCatchClass reloadCatchClass
  split at written
  · rename_i isFinally
    cases written
    simp [isFinally]
  · rename_i named
    obtain ⟨name, found, index⟩ := bind_eq_some_iff.mp written
    have lookup := stringIndex_lookup few index
    rw [if_neg lookup.2, if_neg named, found, stringAt_index few index]
    rfl

theorem loadCatches_records (few : strings.length ≤ 65535) {p : Proto cfg} {catches : List PCatch}
    (written : Forall₂ (fun c r => catchRecord strings p c = some r) catches records)
    (placed : HasAt image offset records.flatten) (room : offset + records.flatten.length ≤ limit) :
    loadCatches image strings limit p.code.length catches.length q offset =
      (catches.foldlM (reloadCatch p) q).map fun q => (q, offset + records.flatten.length) := by
  induction written generalizing q offset with
  | nil => rfl
  | @cons entry record catches records h _ ih =>
    rw [flatten_cons] at placed room
    rw [hasAt_append] at placed
    rw [length_append] at room
    unfold catchRecord at h
    obtain ⟨classSid, sid, h⟩ := bind_eq_some_iff.mp h
    cases Option.some.inj h
    have fields := placed.1
    simp only [hasAt_append, length_append, le16_length, Nat.reduceAdd] at fields
    obtain ⟨⟨⟨⟨atStart, atEnd⟩, atHandler⟩, atClass⟩, atSlot⟩ := fields
    have zero := (hasAt_cons.mp atSlot).2.byteAt
    simp only [length_append, le16_length, length_cons, length_nil] at room
    rw [length_cons, loadCatches]
    simp only [rangeAvailable_of_le (show offset + 10 ≤ limit by omega), require_true, ok_bind,
      u16At_of_hasAt atStart, u16At_of_hasAt atEnd, u16At_of_hasAt atHandler,
      u16At_of_hasAt atClass, atSlot.byteAt, zero, beq_self_eq_true, Bool.and_true,
      foldlM_cons, reloadCatch, catchClass_record few sid, bind_assoc]
    cases require _ with
    | error e => rfl
    | ok =>
      simp only [ok_bind]
      cases reloadCatchClass p q entry with
      | error e => rfl
      | ok next =>
        simp only [ok_bind]
        cases next.1.addCatch { entry with classConstant := next.2 } with
        | none => rfl
        | some next =>
          simp only [orParse, ok_bind]
          have rest := ih placed.2 (q := next) (by
            simp only [length_append, le16_length, length_cons, length_nil]; omega)
          simp only [length_append, le16_length, length_cons, length_nil, Nat.reduceAdd] at rest
          simp only [rest, flatten_cons, length_append, le16_length, length_cons, length_nil, Nat.reduceAdd, add_assoc]

theorem memberRecord_length {member : TypeMember}
    (h : memberRecord strings member = some record) : record.length = 3 := by
  cases member with
  | kind kind => cases h; rfl
  | named name =>
    obtain ⟨sid, -, rfl⟩ := Option.map_eq_some_iff.mp h
    rfl

theorem memberAt_record (few : strings.length ≤ 65535) {member : TypeMember}
    (h : memberRecord strings member = some record)
    (placed : HasAt image offset record) : memberAt image strings offset = .ok member := by
  cases member with
  | kind kind =>
    cases h
    have first := placed.byteAt
    have sid := u16At_of_hasAt (hasAt_cons.mp placed).2
    simp only [memberAt, first, sid, if_neg kind.toByte_ne_named, TypeKind.ofByte_toByte, if_true]
  | named name =>
    obtain ⟨sid, index, rfl⟩ := Option.map_eq_some_iff.mp h
    have first := placed.byteAt
    have word := u16At_of_hasAt (hasAt_cons.mp placed).2
    simp only [memberAt, first, word, if_true, stringAt_index few index]
    rfl

theorem loadMembers_records (few : strings.length ≤ 65535) {isParameter : Bool} {total : Nat}
    {members : List TypeMember} (written : Forall₂ (fun t r => memberRecord strings t = some r) members records)
    {read : List TypeMember} (placed : HasAt image offset records.flatten) :
    loadMembers cfg image strings isParameter total members.length read offset =
      (reloadMembers cfg isParameter total members read).map fun read => (read, offset + members.length * 3) := by
  induction written generalizing read offset with
  | nil => rfl
  | @cons member record members records h _ ih =>
    rw [flatten_cons, hasAt_append, memberRecord_length h] at placed
    rw [length_cons, loadMembers, reloadMembers]
    simp only [memberAt_record few h placed.1, ok_bind]
    cases require _ with
    | error e => rfl
    | ok =>
      simp only [ok_bind, ih placed.2, show offset + 3 + members.length * 3 =
        offset + (members.length + 1) * 3 by omega]

theorem flatten_length_of_sizes {α : Type} {record : α → Option (List UInt8)} {size : α → Nat} {l : List α}
    (written : Forall₂ (fun a r => record a = some r) l records)
    (each : ∀ a r, record a = some r → r.length = size a) : records.flatten.length = (l.map size).sum := by
  induction written with
  | nil => rfl
  | cons h _ ih => rw [flatten_cons, length_append, each _ _ h, ih, map_cons, sum_cons]

theorem specRecord_length {spec : TypeSpec}
    (h : specRecord strings spec = some record) : record.length = 1 + spec.members.length * 3 := by
  obtain ⟨records, written, rfl⟩ := Option.map_eq_some_iff.mp h
  have size := flatten_length_of_sizes (mapM_eq_some.mp written) fun _ _ => memberRecord_length
  rw [length_cons, size, add_comm]
  simp

theorem loadSpec_record (few : strings.length ≤ 65535) {isParameter : Bool} {spec : TypeSpec}
    (h : specRecord strings spec = some record) (placed : HasAt image offset record)
    (room : offset + record.length ≤ limit) : loadSpec cfg image strings limit isParameter offset =
      (reloadSpec cfg isParameter spec).map fun spec => (spec, offset + record.length) := by
  have length := specRecord_length h
  obtain ⟨records, written, rfl⟩ := Option.map_eq_some_iff.mp h
  have first := placed.byteAt
  have count : (UInt8.ofNat spec.members.length).toNat = spec.members.length := by
    have := spec.count_le
    rw [UInt8.toNat_ofNat']
    omega
  unfold loadSpec reloadSpec
  simp only [rangeAvailable_of_le (show offset + 1 ≤ limit by omega), require_true, ok_bind, first,
    count, rangeAvailable_of_le (show offset + 1 + spec.members.length * 3 ≤ limit by omega),
    Bool.and_true, loadMembers_records few (mapM_eq_some.mp written) (hasAt_cons.mp placed).2]
  cases require _ with
  | error e => rfl
  | ok =>
    simp only [ok_bind]
    cases reloadMembers cfg isParameter spec.members.length spec.members [] with
    | error e => rfl
    | ok members =>
      simp only [Except.map, ok_bind, length]
      split
      · simp only [pure, Except.pure, add_assoc]
      · rfl

theorem loadSpecs_records (few : strings.length ≤ 65535) {specs : List TypeSpec}
    (written : Forall₂ (fun t r => specRecord strings t = some r) specs records) {read : List TypeSpec}
    (placed : HasAt image offset records.flatten) (room : offset + records.flatten.length ≤ limit) :
    loadSpecs cfg image strings limit specs.length read offset = (specs.mapM (reloadSpec cfg true)).map
        fun new => (read ++ new, offset + records.flatten.length) := by
  induction written generalizing read offset with
  | nil => simp [loadSpecs, pure, Except.pure, Except.map]
  | @cons spec record specs records h _ ih =>
    rw [flatten_cons] at placed room
    rw [hasAt_append] at placed
    rw [length_append] at room
    rw [length_cons, loadSpecs, mapM_cons,
      loadSpec_record few h placed.1 (show offset + record.length ≤ limit by omega)]
    cases reloadSpec cfg true spec with
    | error e => rfl
    | ok spec' =>
      simp only [Except.map, ok_bind, ih placed.2 (by omega)]
      cases specs.mapM (reloadSpec cfg true) with
      | error e => rfl
      | ok new =>
        simp only [ok_bind, pure, Except.pure, append_assoc, cons_append,
          nil_append, flatten_cons, length_append, add_assoc]

end Parts

/-! ## What the parts become -/

theorem addConstant_eq_some {value : Constant cfg} {index : UInt16}
    (h : p.addConstant value = some (q, index)) :
    q = { p with constants := p.constants ++ [value] } ∧ index.toNat = p.constants.length ∧
      p.constants.length < 65535 := by
  unfold Proto.addConstant at h
  split at h
  · rename_i room
    cases h
    exact ⟨rfl, by rw [UInt16.toNat_ofNat']; omega, room⟩
  · cases h

theorem reloadConstants_ok {constants : List (Constant cfg)} (h : constants.foldlM reloadConstant p = .ok q) :
    q = { p with constants := p.constants ++ constants } := by
  induction constants generalizing p with
  | nil => cases Except.ok.inj h; simp
  | cons c constants ih =>
    obtain ⟨p', head, tail⟩ := foldlM_ok_cons.mp h
    rw [ih tail]
    unfold reloadConstant at head
    cases added : p.addConstant c with
    | none => rw [added] at head; cases head
    | some next =>
      rw [added] at head
      cases head
      rw [(addConstant_eq_some added).1]
      simp

theorem addLocal_new {name : PString} {slot : UInt8} (h : p.addLocal name.bytes = some (q, slot))
    (fresh : slot.toNat = p.nLocals) :
    ∃ bound, q = { p with locals := p.locals ++ [name], locals_le := bound } := by
  unfold Proto.addLocal at h
  split at h
  · rename_i found
    exfalso
    obtain ⟨i, at_i, rfl⟩ := Option.map_eq_some_iff.mp found
    have low := (findIdx?_eq_some_iff_getElem.mp at_i).1
    cases h
    rw [UInt8.toNat_ofNat'] at fresh
    unfold Proto.nLocals at fresh
    omega
  · split at h
    · rw [psNew_bytes] at h
      cases h
      exact ⟨_, rfl⟩
    · cases h

theorem reloadLocals_ok {locals : List PString} (h : locals.foldlM reloadLocal p = .ok q) :
    ∃ bound, q = { p with locals := p.locals ++ locals, locals_le := bound } := by
  induction locals generalizing p with
  | nil =>
    have same : p = q := Except.ok.inj h
    subst same
    exact ⟨by simpa using p.locals_le, by simp⟩
  | cons name locals ih =>
    obtain ⟨p', head, tail⟩ := foldlM_ok_cons.mp h
    obtain ⟨bound, rfl⟩ := ih tail
    unfold reloadLocal at head
    obtain ⟨⟨next, slot⟩, added, head⟩ := bind_eq_ok.mp head
    obtain ⟨_, fresh, head⟩ := bind_eq_ok.mp head
    cases head
    obtain ⟨_, rfl⟩ := addLocal_new (orParse_eq_ok.mp added)
      (by simpa using require_eq_ok.mp fresh)
    exact ⟨by simpa using bound, by simp⟩

/-- A catch entry and what it was written from: the same range, handler and slot, and the same
class by name. -/
structure SameCatch (p q : Proto cfg) (entry loaded : PCatch) : Prop where
  tryStart : loaded.tryStart = entry.tryStart
  tryEnd : loaded.tryEnd = entry.tryEnd
  handlerPc : loaded.handlerPc = entry.handlerPc
  variableSlot : loaded.variableSlot = entry.variableSlot
  isFinally : loaded.classConstant = 0xffff ↔ entry.classConstant = 0xffff
  className : entry.classConstant ≠ 0xffff → ∃ name, p.stringConstant entry.classConstant = some name ∧
      q.stringConstant loaded.classConstant = some name

theorem stringConstant_append {index : UInt16} {name : PString} (grown : p.constants <+: q.constants)
    (h : p.stringConstant index = some name) : q.stringConstant index = some name := by
  unfold Proto.stringConstant at h ⊢
  obtain ⟨value, found, string⟩ := bind_eq_some_iff.mp h
  obtain ⟨more, eq⟩ := grown
  rw [← eq, getElem?_append_left (List.getElem?_eq_some_iff.mp found).1, found]
  exact string

theorem SameCatch.mono {q' : Proto cfg} {loaded : PCatch} (h : SameCatch p q entry loaded)
    (grown : q.constants <+: q'.constants) : SameCatch p q' entry loaded := by
  refine ⟨h.tryStart, h.tryEnd, h.handlerPc, h.variableSlot, h.isFinally, fun named => ?_⟩
  obtain ⟨name, original, found⟩ := h.className named
  exact ⟨name, original, stringConstant_append grown found⟩

theorem addCatch_eq_some (h : p.addCatch entry = some q) : q = { p with catches := p.catches ++ [entry] } := by
  unfold Proto.addCatch at h
  split at h
  · exact (Option.some.inj h).symm
  · cases h

theorem reloadCatchClass_ok {classConstant : UInt16}
    (h : reloadCatchClass original p entry = .ok (q, classConstant)) :
    (entry.classConstant = 0xffff ∧ classConstant = 0xffff ∧ q = p) ∨
      ∃ name, entry.classConstant ≠ 0xffff ∧ classConstant ≠ 0xffff ∧
        original.stringConstant entry.classConstant = some name ∧
        q = { p with constants := p.constants ++ [Constant.string name] } ∧
        q.stringConstant classConstant = some name := by
  unfold reloadCatchClass at h
  split at h
  · rename_i isFinally
    cases h
    exact .inl ⟨isFinally, rfl, rfl⟩
  · rename_i named
    obtain ⟨name, found, added⟩ := bind_eq_ok.mp h
    obtain ⟨rfl, index, room⟩ := addConstant_eq_some (orNoMem_eq_ok.mp added)
    refine .inr ⟨name, named, ?_, orParse_eq_ok.mp found, rfl, ?_⟩
    · rintro rfl
      rw [← index] at room
      exact absurd room (by decide)
    · simp [Proto.stringConstant, index, Constant.string?]

theorem reloadCatch_ok (h : reloadCatch original p entry = .ok q) :
    ∃ more loaded, q = { p with constants := p.constants ++ more, catches := p.catches ++ [loaded] } ∧
      SameCatch original q entry loaded := by
  unfold reloadCatch at h
  obtain ⟨-, -, h⟩ := bind_eq_ok.mp h
  obtain ⟨⟨p', classConstant⟩, classOk, h⟩ := bind_eq_ok.mp h
  have caught := addCatch_eq_some (orParse_eq_ok.mp h)
  rcases reloadCatchClass_ok classOk with ⟨isFinally, rfl, rfl⟩ | ⟨name, named, notFinally, found, rfl, index⟩
  · exact ⟨[], { entry with classConstant := 0xffff }, by simpa only [append_nil] using caught,
      rfl, rfl, rfl, rfl, by simp [isFinally], fun named => absurd isFinally named⟩
  · refine ⟨[.string name], { entry with classConstant }, caught, rfl, rfl, rfl, rfl, by simp [notFinally, named],
      fun _ => ⟨name, found, ?_⟩⟩
    rw [caught]
    exact index

theorem reloadCatches_ok {catches : List PCatch} (h : catches.foldlM (reloadCatch original) p = .ok q) :
    ∃ more loaded, q = { p with constants := p.constants ++ more, catches := p.catches ++ loaded } ∧
      Forall₂ (SameCatch original q) catches loaded := by
  induction catches generalizing p with
  | nil =>
    cases Except.ok.inj h
    exact ⟨[], [], by simp, .nil⟩
  | cons entry catches ih =>
    obtain ⟨p', head, tail⟩ := foldlM_ok_cons.mp h
    obtain ⟨more, first, rfl, same⟩ := reloadCatch_ok head
    obtain ⟨more', rest, rfl, sames⟩ := ih tail
    refine ⟨more ++ more', first :: rest, by simp, .cons (same.mono ?_) sames⟩
    exact prefix_append _ _

theorem reloadMembers_ok {isParameter : Bool} {total : Nat} {members read result : List TypeMember}
    (h : reloadMembers cfg isParameter total members read = .ok result) : result = read ++ members := by
  induction members generalizing read with
  | nil => cases h; simp
  | cons member members ih =>
    obtain ⟨-, -, h⟩ := bind_eq_ok.mp h
    rw [ih h, append_assoc]
    rfl

theorem reloadSpec_ok {isParameter : Bool} {spec result : TypeSpec}
    (h : reloadSpec cfg isParameter spec = .ok result) : result = spec := by
  unfold reloadSpec at h
  obtain ⟨-, -, h⟩ := bind_eq_ok.mp h
  obtain ⟨members, read, h⟩ := bind_eq_ok.mp h
  have := reloadMembers_ok read
  split at h
  · cases h
    simp_all
  · cases h

theorem reloadSpecs_ok {specs result : List TypeSpec}
    (h : specs.mapM (reloadSpec cfg true) = .ok result) : result = specs := by
  have each := mapM_eq_ok.mp h
  clear h
  induction each with
  | nil => rfl
  | cons head _ ih => rw [reloadSpec_ok head, ih]

theorem reloadTypes_ok (h : reloadTypes original p = .ok q) :
    q = if cfg.typecheck then
        { p with
          parameterTypes := (List.range original.nParams.toNat).map original.parameterType
          returnType := original.returnType }
      else p := by
  unfold reloadTypes at h
  split at h
  · rename_i checked
    obtain ⟨specs, parameters, h⟩ := bind_eq_ok.mp h
    obtain ⟨spec, result, h⟩ := bind_eq_ok.mp h
    cases h
    rw [reloadSpecs_ok parameters, reloadSpec_ok result, if_pos checked]
  · rename_i unchecked
    cases h
    rw [if_neg unchecked]

/-! ## Protos -/

/-- A proto and the proto loaded for it. The loaded constants begin with the original ones; only names of catch
classes come behind them. -/
structure SameProto (p q : Proto cfg) : Prop where
  name : q.name = p.name
  nParams : q.nParams = p.nParams
  nRequired : q.nRequired = p.nRequired
  variadic : q.variadic = p.variadic
  isMethod : q.isMethod = p.isMethod
  conditional : q.conditional = p.conditional
  maxStack : q.maxStack = p.maxStack
  code : q.code = p.code
  locals : q.locals = p.locals
  constants : p.constants <+: q.constants
  catches : Forall₂ (SameCatch p q) p.catches q.catches
  types : q.recordedTypes = p.recordedTypes

theorem parameterType_map (count : q.nParams = p.nParams)
    (types : q.parameterTypes = (List.range p.nParams.toNat).map p.parameterType)
    (result : q.returnType = p.returnType) : q.typeSpecs = p.typeSpecs := by
  unfold Proto.typeSpecs
  rw [count, result]
  congr 1
  apply map_congr_left
  intro j hj
  have low : j < p.nParams.toNat := mem_range.mp hj
  rw [Proto.parameterType, types, getD_eq_getElem?_getD]
  simp [low]

theorem reloadProto_ok {isEntry : Bool} (h : reloadProto isEntry p = .ok q) : SameProto p q := by
  unfold reloadProto at h
  obtain ⟨-, -, h⟩ := bind_eq_ok.mp h
  obtain ⟨q₁, constants, h⟩ := bind_eq_ok.mp h
  obtain ⟨q₂, locals, h⟩ := bind_eq_ok.mp h
  obtain ⟨q₃, catches, h⟩ := bind_eq_ok.mp h
  have eq₁ := reloadConstants_ok constants
  obtain ⟨bound, eq₂⟩ := reloadLocals_ok locals
  obtain ⟨more, loaded, eq₃, same⟩ := reloadCatches_ok catches
  have eq := reloadTypes_ok h
  subst eq₁ eq₂ eq₃
  cases checked : cfg.typecheck with
  | true =>
    rw [checked, if_pos rfl] at eq
    subst eq
    refine ⟨rfl, rfl, rfl, rfl, rfl, rfl, rfl, rfl, rfl, prefix_append _ _, ?_, ?_⟩
    · refine same.imp fun entry loaded one => one.mono ?_
      exact prefix_refl _
    · simp only [Proto.recordedTypes, checked, if_true]
      exact parameterType_map rfl rfl rfl
  | false =>
    rw [checked, if_neg (by decide)] at eq
    subst eq
    refine ⟨rfl, rfl, rfl, rfl, rfl, rfl, rfl, rfl, rfl, prefix_append _ _, same, ?_⟩
    simp [Proto.recordedTypes, checked]

/-! ## Reading a proto back -/

section Record
variable {image : List UInt8} {strings : List PString} {limit : Nat}

variable {p : Proto cfg} {offset : Nat} {record : List UInt8}

theorem loadTypes_records (few : strings.length ≤ 65535) {q : Proto cfg} (count : q.nParams = p.nParams)
    {records : List (List UInt8)} (written : p.recordedTypes.mapM (specRecord strings) = some records)
    (placed : HasAt image offset records.flatten) (room : offset + records.flatten.length ≤ limit) :
    loadTypes image strings limit q offset = (reloadTypes p q).map fun q => (q, offset + records.flatten.length) := by
  unfold loadTypes reloadTypes
  cases checked : cfg.typecheck with
  | false =>
    simp only [Proto.recordedTypes, checked, Bool.false_eq_true, if_false] at written
    cases written
    rfl
  | true =>
    simp only [Proto.recordedTypes, checked, if_true, Proto.typeSpecs, mapM_append] at written
    obtain ⟨parameters, hp, written⟩ := bind_eq_some_iff.mp written
    obtain ⟨results, hr, written⟩ := bind_eq_some_iff.mp written
    cases Option.some.inj written
    rcases mapM_eq_some.mp hr with _ | @⟨_, result, _, _, one, ⟨⟩⟩
    have result_flat : [result].flatten = result := by simp
    rw [flatten_append] at placed room
    rw [hasAt_append] at placed
    rw [length_append] at room
    have length : p.nParams.toNat = ((List.range p.nParams.toNat).map p.parameterType).length := by
      simp
    have first : loadSpecs cfg image strings limit _ [] offset = _ :=
      loadSpecs_records few (mapM_eq_some.mp hp) placed.1 (by omega)
    rw [← length] at first
    simp only [if_true, count, first]
    cases ((List.range p.nParams.toNat).map p.parameterType).mapM (reloadSpec cfg true) with
    | error e => rfl
    | ok specs =>
      have second : loadSpec cfg image strings limit false _ = _ :=
        loadSpec_record few one (result_flat ▸ placed.2) (by rw [result_flat] at room; omega)
      simp only [Except.map, ok_bind, second]
      cases reloadSpec cfg false p.returnType with
      | error e => rfl
      | ok spec =>
        simp only [ok_bind, pure, Except.pure, nil_append, flatten_append, result_flat, length_append, add_assoc]

theorem catchRecord_length {entry : PCatch} (h : catchRecord strings p entry = some record) : record.length = 10 := by
  unfold catchRecord at h
  obtain ⟨classSid, -, h⟩ := bind_eq_some_iff.mp h
  cases Option.some.inj h
  simp

/-- The parts of a proto record. -/
structure RecordParts (strings : List PString) (p : Proto cfg) (record : List UInt8) where
  nameSid : UInt16
  constants : List (List UInt8)
  locals : List UInt16
  catches : List (List UInt8)
  types : List (List UInt8)
  name_eq : stringIndex strings p.name = some nameSid
  constants_eq : p.constants.mapM (constantRecord strings) = some constants
  locals_eq : p.locals.mapM (stringIndex strings) = some locals
  catches_eq : p.catches.mapM (catchRecord strings p) = some catches
  types_eq : p.recordedTypes.mapM (specRecord strings) = some types
  record_eq : record = protoHeader p nameSid ++ padTo (align4 p.code.length) p.code ++
    constants.flatten ++ locals.flatMap le16 ++ catches.flatten ++ types.flatten

theorem protoRecord_parts (h : protoRecord strings p = some record) : Nonempty (RecordParts strings p record) := by
  unfold protoRecord at h
  obtain ⟨nameSid, name_eq, h⟩ := bind_eq_some_iff.mp h
  obtain ⟨constants, constants_eq, h⟩ := bind_eq_some_iff.mp h
  obtain ⟨locals, locals_eq, h⟩ := bind_eq_some_iff.mp h
  obtain ⟨catches, catches_eq, h⟩ := bind_eq_some_iff.mp h
  obtain ⟨types, types_eq, h⟩ := bind_eq_some_iff.mp h
  exact ⟨⟨nameSid, constants, locals, catches, types, name_eq, constants_eq, locals_eq, catches_eq,
    types_eq, (Option.some.inj h).symm⟩⟩

@[simp] theorem protoHeader_length (p : Proto cfg) (sid : UInt16) : (protoHeader p sid).length = 16 := rfl

theorem locals_length {locals : List PString} {sids : List UInt16}
    (h : Forall₂ (fun s sid => stringIndex strings s = some sid) locals sids) :
    (sids.flatMap le16).length = 2 * locals.length := by
  induction h with
  | nil => rfl
  | cons _ _ ih =>
    rw [flatMap_cons, length_append, ih, le16_length, length_cons]
    omega

/-- The layout pass reserves the record's length, rounded up. -/
theorem protoRecord_length (h : protoRecord strings p = some record) : protoSize p = align4 record.length := by
  obtain ⟨parts⟩ := protoRecord_parts h
  have constants := flatten_length_of_sizes (mapM_eq_some.mp parts.constants_eq)
    fun _ _ => constantRecord_length
  have locals := locals_length (mapM_eq_some.mp parts.locals_eq)
  have catches := flatten_length_of_sizes (mapM_eq_some.mp parts.catches_eq)
    fun _ _ => catchRecord_length
  have types := flatten_length_of_sizes (mapM_eq_some.mp parts.types_eq) fun _ _ => specRecord_length
  have catchesTotal : (p.catches.map fun _ => 10).sum = p.catches.length * 10 := by simp
  unfold protoSize
  congr 1
  rw [parts.record_eq]
  simp only [length_append, protoHeader_length, padTo_length (le_align4 p.code.length),
    constants, locals, catches, types, catchesTotal, Proto.nLocals]
  omega

theorem slice_of_hasAt {bytes data : List UInt8} (h : HasAt bytes offset data) :
    slice bytes offset data.length = data := by
  apply ext_getElem?
  intro i
  by_cases low : i < data.length
  · rw [getElem?_eq_getElem low, slice, getElem?_take, if_pos low, getElem?_drop]
    exact h i _ (getElem?_eq_getElem low)
  · rw [getElem?_eq_none (by omega : data.length ≤ i), slice, getElem?_take, if_neg low]

theorem hasFlag_variadic (p : Proto cfg) : hasFlag (protoFlags p) 1 = p.variadic := by
  unfold protoFlags
  cases p.variadic <;> cases p.isMethod <;> cases p.conditional <;> decide

theorem hasFlag_isMethod (p : Proto cfg) : hasFlag (protoFlags p) 2 = p.isMethod := by
  unfold protoFlags
  cases p.variadic <;> cases p.isMethod <;> cases p.conditional <;> decide

theorem hasFlag_conditional (p : Proto cfg) : hasFlag (protoFlags p) 8 = p.conditional := by
  unfold protoFlags
  cases p.variadic <;> cases p.isMethod <;> cases p.conditional <;> decide

/-- The fields of a proto record's header where they are read. -/
structure HeaderAt (image : List UInt8) (offset : Nat) (p : Proto cfg) (nameSid : UInt16) : Prop where
  nParams : byteAt image offset = p.nParams
  nRequired : byteAt image (offset + 1) = p.nRequired
  flags : byteAt image (offset + 2) = protoFlags p
  nLocals : byteAt image (offset + 3) = UInt8.ofNat p.nLocals
  zero4 : byteAt image (offset + 4) = 0
  zero5 : byteAt image (offset + 5) = 0
  maxStack : u16At image (offset + 6) = p.maxStack
  codeLength : u16At image (offset + 8) = UInt16.ofNat p.code.length
  constantCount : u16At image (offset + 10) = UInt16.ofNat p.constants.length
  catchCount : u16At image (offset + 12) = UInt16.ofNat p.catches.length
  nameSid : u16At image (offset + 14) = nameSid

theorem headerAt {nameSid : UInt16}
    (placed : HasAt image offset (protoHeader p nameSid)) : HeaderAt image offset p nameSid := by
  simp only [protoHeader, hasAt_append, length_append, length_cons, length_nil, le16_length, Nat.reduceAdd] at placed
  obtain ⟨⟨⟨⟨⟨bytes, maxStack⟩, code⟩, constants⟩, catches⟩, name⟩ := placed
  have b1 := (hasAt_cons.mp bytes).2
  have b2 := (hasAt_cons.mp b1).2
  have b3 := (hasAt_cons.mp b2).2
  have b4 := (hasAt_cons.mp b3).2
  have b5 := (hasAt_cons.mp b4).2
  exact ⟨bytes.byteAt, b1.byteAt, b2.byteAt, b3.byteAt, b4.byteAt, b5.byteAt, u16At_of_hasAt maxStack,
    u16At_of_hasAt code, u16At_of_hasAt constants, u16At_of_hasAt catches, u16At_of_hasAt name⟩

/-- The lengths the header keeps in 16 bits. -/
structure RecordBounds (p : Proto cfg) : Prop where
  code : p.code.length ≤ 65535
  constants : p.constants.length ≤ 65535
  catches : p.catches.length ≤ 65535

theorem toNat_word {n : Nat} (h : n ≤ 65535) : (UInt16.ofNat n).toNat = n := by
  rw [UInt16.toNat_ofNat']
  omega

theorem align4_add {n : Nat} (h : offset % 4 = 0) : align4 (offset + n) = offset + align4 n := by
  unfold align4
  omega

/-- **A written proto is read back as `reloadProto` says.** -/
theorem loadProto_record (few : strings.length ≤ 65535) (bounds : RecordBounds p)
    (h : protoRecord strings p = some record) (aligned : offset % 4 = 0)
    (placed : HasAt image offset (padTo (protoSize p) record)) (isEntry : Bool) :
    loadProto image strings isEntry offset (offset + protoSize p) = reloadProto isEntry p := by
  have size := protoRecord_length h
  have fits : record.length ≤ protoSize p := size ▸ le_align4 _
  obtain ⟨parts⟩ := protoRecord_parts h
  have stands := (hasAt_append.mp placed).1
  have total := congrArg List.length parts.record_eq
  have codeSize : p.code.length ≤ align4 p.code.length := le_align4 _
  rw [parts.record_eq] at stands
  simp only [hasAt_append, length_append, protoHeader_length, padTo_length codeSize]
    at stands total
  obtain ⟨⟨⟨⟨⟨header, code⟩, constants⟩, locals⟩, catches⟩, types⟩ := stands
  have localsLength := locals_length (mapM_eq_some.mp parts.locals_eq)
  have head := headerAt header
  have codeSlice := slice_of_hasAt (hasAt_append.mp code).1
  have localCount : (UInt8.ofNat p.nLocals).toNat = p.locals.length := by
    have := p.locals_le
    rw [UInt8.toNat_ofNat', Proto.nLocals]
    omega
  unfold loadProto reloadProto
  simp only [rangeAvailable_of_le (show offset + 16 ≤ offset + protoSize p by omega), require_true,
    ok_bind, head.nParams, head.nRequired, head.flags, head.nLocals, head.zero4, head.zero5,
    head.maxStack, head.codeLength, head.constantCount, head.catchCount, head.nameSid,
    toNat_word bounds.code, toNat_word bounds.constants, toNat_word bounds.catches,
    stringAt_index few parts.name_eq, codeSlice, localCount, hasFlag_variadic, hasFlag_isMethod,
    hasFlag_conditional, rangeAvailable_of_le
      (show offset + (16 + align4 p.code.length) ≤ offset + protoSize p by omega)]
  cases require (protoHeaderOk isEntry p.nParams p.nRequired (protoFlags p) (UInt8.ofNat p.nLocals) 0 0) with
  | error e => rfl
  | ok =>
    simp only [ok_bind]
    rw [loadConstants_records few (mapM_eq_some.mp parts.constants_eq)
      (by simpa only [add_assoc] using constants) (by omega)]
    cases reloaded₁ : p.constants.foldlM reloadConstant _ with
    | error e => rfl
    | ok q₁ =>
      simp only [Except.map, ok_bind]
      rw [loadLocals_records few (mapM_eq_some.mp parts.locals_eq)
        (by simpa only [add_assoc] using locals) (by omega)]
      cases reloaded₂ : p.locals.foldlM reloadLocal q₁ with
      | error e => rfl
      | ok q₂ =>
        simp only [Except.map, ok_bind]
        rw [loadCatches_records few (mapM_eq_some.mp parts.catches_eq)
          (by simpa only [add_assoc, localsLength] using catches) (by omega)]
        cases reloaded₃ : p.catches.foldlM (reloadCatch p) q₂ with
        | error e => rfl
        | ok q₃ =>
          have count : q₃.nParams = p.nParams := by
            obtain rfl := reloadConstants_ok reloaded₁
            obtain ⟨_, rfl⟩ := reloadLocals_ok reloaded₂
            obtain ⟨_, _, rfl, -⟩ := reloadCatches_ok reloaded₃
            rfl
          simp only [Except.map, ok_bind]
          rw [loadTypes_records few count parts.types_eq
            (by simpa only [add_assoc, localsLength] using types) (by omega)]
          cases reloadTypes p q₃ with
          | error e => rfl
          | ok q =>
            have last : align4 (offset + (16 + align4 p.code.length) + parts.constants.flatten.length +
                2 * p.locals.length + parts.catches.flatten.length + parts.types.flatten.length) =
                offset + protoSize p := by
              rw [size, ← align4_add aligned]
              congr 1
              omega
            simp only [Except.map, ok_bind, last, beq_self_eq_true, require_true]
            rfl

end Record

end PhpPico
