import PhpPico.Pbc.Records

/-!
# The image round trip

`WrittenImage` is the layout of a written image: the header, the offset table, and the padded records. On such an
image the reading stage gives exactly `reloadModule`, whatever checks fail, and a module that loads is the written
one.
-/

namespace PhpPico
open List ByteLayout Fallible

variable {cfg : Config}

/-- The module a written image is read as, before it is validated. -/
def reloadModule (m : Module cfg) : Load (Module cfg) := do
  let protos ← m.protos.zipIdx.mapM fun (p, i) => reloadProto (i == 0) p
  return { protos }

/-! ## The layout of a written image -/

/-- The sizes of all records, the strings first. -/
def recordSizes (m : Module cfg) (strings : List PString) : List Nat :=
  strings.map stringSize ++ m.protos.map protoSize

/-- The start of the `i`-th record, and behind the last the end of the image. -/
def recordAt (m : Module cfg) (strings : List PString) (i : Nat) : Nat :=
  recordsStart strings.length m.protos.length + ((recordSizes m strings).take i).sum

/-- A written image: its parts and the bounds the writer checks. -/
structure WrittenImage (m : Module cfg) (strings : List PString) (records : List (List UInt8))
    (image : List UInt8) : Prop where
  fewStrings : strings.length ≤ 65535
  someProtos : m.protos.length ≠ 0
  fewProtos : m.protos.length ≤ 65535
  bounds : ∀ p ∈ m.protos, RecordBounds p
  total : recordAt m strings (strings.length + m.protos.length) ≤ 4294967295
  written : m.protos.mapM (protoRecord strings) = some records
  image_eq : image = imageHeader cfg (recordAt m strings (strings.length + m.protos.length)) m.protos.length
        strings.length ++
      offsetTable (recordOffsets (recordsStart strings.length m.protos.length)
        (recordSizes m strings)) ++
      padAll (recordSizes m strings) (strings.map stringRecord ++ records)

theorem collectStrings_length {m : Module cfg} {strings : List PString}
    (h : collectStrings m = some strings) : strings.length ≤ 65535 := by
  refine foldlM_invariant (P := fun list => list.length ≤ 65535) ?_ (by simp) h
  intro list s list' small added
  unfold stringsAdd at added
  split at added
  · cases added; exact small
  · split at added
    · cases added
      rw [length_append, length_singleton]
      omega
    · cases added

theorem fits_strings (strings : List PString) : Fits (strings.map stringSize) (strings.map stringRecord) := by
  rw [Fits, forall₂_map_left_iff, forall₂_map_right_iff]
  refine forall₂_same.mpr fun s _ => ?_
  have := le_align4 (3 + s.bytes.length)
  simp only [stringRecord, stringSize, length_append, le16_length]
  omega

theorem fits_protos {strings : List PString} {protos : List (Proto cfg)}
    {records : List (List UInt8)} (h : protos.mapM (protoRecord strings) = some records) :
    Fits (protos.map protoSize) records := by
  rw [Fits, forall₂_map_left_iff]
  refine (mapM_eq_some.mp h).imp fun p record written => ?_
  rw [protoRecord_length written]
  exact le_align4 _

theorem fits_records {m : Module cfg} {strings : List PString} {records : List (List UInt8)}
    (h : m.protos.mapM (protoRecord strings) = some records) :
    Fits (recordSizes m strings) (strings.map stringRecord ++ records) :=
  rel_append (fits_strings strings) (fits_protos h)

@[simp] theorem imageHeader_length (total protoCount stringCount : Nat) :
    (imageHeader cfg total protoCount stringCount).length = 16 := rfl

@[simp] theorem offsetTable_length (offsets : List Nat) : (offsetTable offsets).length = offsets.length * 4 := by
  induction offsets with
  | nil => rfl
  | cons offset offsets ih =>
    rw [offsetTable, flatMap_cons, length_append, ← offsetTable, ih, le32_length, length_cons]
    omega

theorem hasAt_offsetTable {image : List UInt8} {offsets : List Nat} {start i offset : Nat}
    (placed : HasAt image start (offsetTable offsets)) (h : offsets[i]? = some offset) :
    HasAt image (start + i * 4) (le32 (UInt32.ofNat offset)) := by
  induction offsets generalizing start i with
  | nil => simp at h
  | cons first offsets ih =>
    rw [offsetTable, flatMap_cons, hasAt_append, le32_length] at placed
    cases i with
    | zero =>
      cases Option.some.inj h
      simpa using placed.1
    | succ i =>
      have := ih placed.2 (by simpa using h)
      rwa [show start + 4 + i * 4 = start + (i + 1) * 4 by omega] at this

theorem recordsStart_eq (strings protos : Nat) : recordsStart strings protos = 16 + strings * 4 + protos * 4 :=
  align4_of_mod (by omega)

theorem blit_exact (before data after : List UInt8) :
    blit (before ++ zeros data.length ++ after) before.length data = before ++ data ++ after := by
  rw [blit_zeros _ _ _ (le_refl _), padTo_self]

theorem writes_eq {header table : List UInt8} {stringSizes protoSizes : List Nat}
    {strings protos : List (List UInt8)} (strFits : Fits stringSizes strings)
    (protoFits : Fits protoSizes protos) {start : Nat} (start_eq : start = header.length + table.length) :
    blitAll (blitAll (blit (blit (zeros (start + stringSizes.sum + protoSizes.sum)) 0 header)
        header.length table) ((recordOffsets start stringSizes).zip strings))
        ((recordOffsets (start + stringSizes.sum) protoSizes).zip protos) =
      header ++ table ++ (padAll stringSizes strings ++ padAll protoSizes protos) := by
  subst start_eq
  have first := blit_exact [] header (zeros (table.length + stringSizes.sum + protoSizes.sum))
  have second := blit_exact header table (zeros (stringSizes.sum + protoSizes.sum))
  have third : blitAll (header ++ table ++ zeros stringSizes.sum ++ zeros protoSizes.sum) _ = _ :=
    blitAll_records strFits
  have fourth : blitAll (header ++ table ++ padAll stringSizes strings ++ zeros protoSizes.sum ++ []) _ = _ :=
    blitAll_records protoFits
  simp only [zeros_add, nil_append, length_nil, length_append, padAll_length strFits,
    append_nil, append_assoc] at first second third fourth ⊢
  rw [first, second, third, add_assoc, fourth]

/-- **The writer lays the image out.** -/
theorem writeImage_layout {m : Module cfg} {image : List UInt8} (h : writeImage m = some image) :
    ∃ strings records, WrittenImage m strings records image := by
  unfold writeImage at h
  split at h
  · cases h
  · rename_i count
    obtain ⟨strings, collected, h⟩ := Option.bind_eq_some_iff.mp h
    have few := collectStrings_length collected
    dsimp only at h
    split at h
    · cases h
    · rename_i limits
      obtain ⟨records, written, h⟩ := Option.bind_eq_some_iff.mp h
      have total : recordAt m strings (strings.length + m.protos.length) =
          recordsStart strings.length m.protos.length + (strings.map stringSize).sum +
            (m.protos.map protoSize).sum := by
        rw [recordAt, take_of_length_le (by simp [recordSizes]), recordSizes, sum_append, add_assoc]
      simp only [Bool.or_eq_true, List.any_eq_true, decide_eq_true_eq, not_or, not_exists, not_and]
        at limits
      refine ⟨strings, records, few, by omega, by omega, fun p hp => ?_, by omega, written, ?_⟩
      · have := limits.1 p hp
        exact ⟨by omega, by omega, by omega⟩
      · rw [total, recordSizes, recordOffsets_append, padAll_append (fits_strings strings)]
        have startEq : ∀ total, recordsStart strings.length m.protos.length =
            (imageHeader cfg total m.protos.length strings.length).length + (offsetTable
              (recordOffsets (recordsStart strings.length m.protos.length) (strings.map stringSize) ++
                recordOffsets (recordsStart strings.length m.protos.length +
                  (strings.map stringSize).sum) (m.protos.map protoSize))).length := by
          intro total
          simp only [imageHeader_length, offsetTable_length, length_append,
            recordOffsets_length, length_map, recordsStart_eq]
          omega
        rw [← writes_eq (fits_strings strings) (fits_protos written) (startEq _)]
        exact (Option.some.inj h).symm

/-! ## Reading a written image -/

section Reading
variable {m : Module cfg} {strings : List PString} {records : List (List UInt8)} {image : List UInt8}

@[simp] theorem recordSizes_length (m : Module cfg) (strings : List PString) :
    (recordSizes m strings).length = strings.length + m.protos.length := by
  simp [recordSizes]

theorem protoSize_pos (p : Proto cfg) : 0 < protoSize p := by
  have := le_align4 (16 + align4 p.code.length + (p.constants.map serializedConstantSize).sum +
    p.nLocals * 2 + p.catches.length * 10 +
    (p.recordedTypes.map fun spec => 1 + spec.members.length * 3).sum)
  unfold protoSize
  omega

theorem stringSize_pos (s : PString) : 0 < stringSize s := by
  have := le_align4 (3 + s.bytes.length)
  unfold stringSize
  omega

/-- Every record takes a positive multiple of four bytes. -/
theorem recordSizes_mem {size : Nat} (h : size ∈ recordSizes m strings) : 0 < size ∧ size % 4 = 0 := by
  rw [recordSizes, mem_append, List.mem_map, List.mem_map] at h
  rcases h with ⟨s, -, rfl⟩ | ⟨p, -, rfl⟩
  · exact ⟨stringSize_pos s, align4_mod _⟩
  · exact ⟨protoSize_pos p, align4_mod _⟩

theorem recordAt_succ {i size : Nat} (h : (recordSizes m strings)[i]? = some size) :
    recordAt m strings (i + 1) = recordAt m strings i + size := by
  rw [recordAt, recordAt, take_add_one, h, sum_append]
  simp [add_assoc]

theorem recordAt_mono {i j : Nat} (h : i ≤ j) : recordAt m strings i ≤ recordAt m strings j := by
  obtain ⟨more, eq⟩ := take_prefix_take_left (l := recordSizes m strings) h
  rw [recordAt, recordAt, ← eq, sum_append]
  omega

theorem recordAt_aligned (m : Module cfg) (strings : List PString) (i : Nat) : recordAt m strings i % 4 = 0 := by
  induction i with
  | zero => exact align4_mod _
  | succ i ih =>
    cases h : (recordSizes m strings)[i]? with
    | none =>
      have past := List.getElem?_eq_none_iff.mp h
      rw [recordAt, take_of_length_le (by omega)]
      rwa [recordAt, take_of_length_le (by omega)] at ih
    | some size =>
      rw [recordAt_succ h]
      have := (recordSizes_mem (mem_of_getElem? h)).2
      omega

theorem recordSizes_string {i : Nat} {s : PString} (h : strings[i]? = some s) :
    (recordSizes m strings)[i]? = some (stringSize s) := by
  rw [recordSizes, getElem?_append_left (by
    rw [length_map]; exact (List.getElem?_eq_some_iff.mp h).1), getElem?_map, h]
  rfl

theorem recordSizes_proto (strings : List PString) {i : Nat} {p : Proto cfg} (h : m.protos[i]? = some p) :
    (recordSizes m strings)[strings.length + i]? = some (protoSize p) := by
  rw [recordSizes, getElem?_append_right (by simp), getElem?_map, length_map, Nat.add_sub_cancel_left, h]
  rfl

namespace WrittenImage

variable (w : WrittenImage m strings records image)
include w

theorem length_eq : image.length = recordAt m strings (strings.length + m.protos.length) := by
  rw [w.image_eq, length_append, length_append, padAll_length (fits_records w.written),
    imageHeader_length, offsetTable_length, recordOffsets_length, recordSizes_length, recordAt,
    recordsStart_eq, take_of_length_le (by simp)]
  omega

theorem header : HasAt image 0 (imageHeader cfg (recordAt m strings (strings.length + m.protos.length))
    m.protos.length strings.length) :=
  hasAt_of_eq_append [] _ (by rw [w.image_eq, append_assoc]; rfl)

theorem table : HasAt image 16 (offsetTable (recordOffsets
    (recordsStart strings.length m.protos.length) (recordSizes m strings))) :=
  hasAt_of_eq_append (imageHeader cfg _ _ _) _ w.image_eq

/-- A record stands between its table entry and the next. -/
theorem record {i size : Nat} {data : List UInt8} (hs : (recordSizes m strings)[i]? = some size)
    (hd : (strings.map stringRecord ++ records)[i]? = some data) :
    HasAt image (recordAt m strings i) (padTo size data) := by
  have eq := w.image_eq
  rw [← append_nil (padAll _ _), ← append_assoc] at eq
  have placed := hasAt_padAll _ [] (fits_records w.written) eq hs hd
  rwa [length_append, imageHeader_length, offsetTable_length, recordOffsets_length,
    recordSizes_length, Nat.add_mul, ← add_assoc, ← recordsStart_eq] at placed

theorem tableEntry_eq {i : Nat} (low : i < strings.length + m.protos.length) :
    tableEntry image i = recordAt m strings i := by
  have entry : (recordOffsets (recordsStart strings.length m.protos.length)
      (recordSizes m strings))[i]? = some (recordAt m strings i) :=
    recordOffsets_getElem? (by rwa [recordSizes_length])
  have placed := hasAt_offsetTable w.table entry
  have bound : recordAt m strings i ≤ _ := recordAt_mono (le_of_lt low)
  have total := w.total
  rw [tableEntry, u32At_of_hasAt placed, UInt32.toNat_ofNat']
  omega

theorem recordAt_le {i : Nat} (low : i ≤ strings.length + m.protos.length) : recordAt m strings i ≤ image.length := by
  rw [w.length_eq]
  exact recordAt_mono low

theorem tableEntryOk_all : (List.range (strings.length + m.protos.length)).all
      (tableEntryOk image (recordsStart strings.length m.protos.length)) = true := by
  rw [List.all_eq_true]
  intro i hi
  have low := mem_range.mp hi
  have start : recordsStart strings.length m.protos.length ≤ recordAt m strings i := Nat.le_add_right _ _
  have inside := w.recordAt_le (le_of_lt low)
  have aligned := recordAt_aligned m strings i
  simp only [tableEntryOk, w.tableEntry_eq low, Bool.and_eq_true, decide_eq_true_eq, beq_iff_eq,
    Bool.or_eq_true, bne_iff_ne]
  cases i with
  | zero => exact ⟨⟨⟨⟨aligned, start⟩, by simpa using start⟩, .inl rfl⟩, inside⟩
  | succ i =>
    obtain ⟨size, found⟩ : ∃ size, (recordSizes m strings)[i]? = some size :=
      ⟨_, getElem?_eq_getElem (by rw [recordSizes_length]; omega)⟩
    have next := recordAt_succ found
    have positive := (recordSizes_mem (mem_of_getElem? found)).1
    have previous := w.tableEntry_eq (show i < strings.length + m.protos.length by omega)
    simp only [Nat.add_one_ne_zero, if_false, Nat.add_sub_cancel, previous, false_or]
    exact ⟨⟨⟨⟨aligned, start⟩, by omega⟩, by omega⟩, inside⟩

theorem loadString_eq {i : Nat} {s : PString} (h : strings[i]? = some s) :
    loadString image (recordAt m strings i) (recordAt m strings (i + 1)) = .ok s := by
  have low := (List.getElem?_eq_some_iff.mp h).1
  have size := recordSizes_string (m := m) h
  have next := recordAt_succ size
  have inside := w.recordAt_le (show i + 1 ≤ strings.length + m.protos.length by omega)
  have placed := w.record size (by
    rw [getElem?_append_left (by simpa using low), getElem?_map, h]; rfl)
  have room : 3 + s.bytes.length ≤ stringSize s := le_align4 _
  have bound := s.length_le
  have zero : zeros (stringSize s - (stringRecord s).length) =
      0 :: zeros (stringSize s - (stringRecord s).length - 1) := by
    have : stringSize s - (stringRecord s).length =
        stringSize s - (stringRecord s).length - 1 + 1 := by
      simp only [stringRecord, length_append, le16_length]
      omega
    rw [this]
    rfl
  rw [padTo, zero, stringRecord, hasAt_append, hasAt_append] at placed
  obtain ⟨⟨lengthAt, bytesAt⟩, zeroAt⟩ := placed
  have length := u16At_of_hasAt lengthAt
  have last := zeroAt.byteAt
  rw [length_append, le16_length, ← add_assoc] at last
  have sliced := slice_of_hasAt bytesAt
  have ends : align4 (recordAt m strings i + (2 + s.bytes.length + 1)) = recordAt m strings (i + 1) := by
    rw [align4_add (recordAt_aligned m strings i), next, stringSize]
    congr 2
    omega
  have name : stringSlice image (recordAt m strings i + 2) (UInt16.ofNat s.bytes.length) = s := by
    obtain ⟨bytes, small⟩ := s
    simp only [stringSlice, toNat_word small, PString.mk.injEq]
    exact sliced
  unfold loadString
  simp only [recordAt_aligned, beq_self_eq_true, length, toNat_word bound, last, ends,
    Bool.and_true, rangeAvailable_of_le (show recordAt m strings i + 2 ≤ image.length by omega),
    rangeAvailable_of_le (show recordAt m strings i + (2 + s.bytes.length + 1) ≤
      recordAt m strings (i + 1) by omega), require_true, ok_bind, name]
  rfl

theorem loadProto_eq {i : Nat} {p : Proto cfg} (h : m.protos[i]? = some p) (isEntry : Bool) :
    loadProto image strings isEntry (recordAt m strings (strings.length + i))
      (recordAt m strings (strings.length + i + 1)) = reloadProto isEntry p := by
  have size := recordSizes_proto strings h
  have each := mapM_eq_some.mp w.written
  obtain ⟨low, get⟩ := List.getElem?_eq_some_iff.mp h
  have lowRecord : i < records.length := by rw [← each.length_eq]; exact low
  have recorded : protoRecord strings p = some records[i] := by
    have := each.get low lowRecord
    simp only [get_eq_getElem, get] at this
    exact this
  have placed := w.record size (by
    rw [getElem?_append_right (by simp), length_map, Nat.add_sub_cancel_left, getElem?_eq_getElem lowRecord])
  rw [recordAt_succ size]
  exact loadProto_record w.fewStrings (w.bounds p (mem_of_getElem? h)) recorded
    (recordAt_aligned m strings _) placed isEntry

end WrittenImage

theorem checkFlags_expected (cfg : Config) : checkFlags cfg (expectedFlags cfg) = .ok () := by
  obtain ⟨int64, useDouble, enableFloat, lineInfo, typecheck⟩ := cfg
  cases int64 <;> cases useDouble <;> cases enableFloat <;> cases lineInfo <;> cases typecheck <;> rfl

/-- **On a written image the reading stage is `reloadModule`.** -/
theorem WrittenImage.loadRecords_eq (w : WrittenImage m strings records image) :
    loadRecords cfg image = reloadModule m := by
  have length := w.length_eq
  have header := w.header
  simp only [imageHeader, hasAt_append, length_append, le16_length, le32_length] at header
  obtain ⟨⟨⟨⟨⟨magic, version⟩, flags⟩, total⟩, protoCount⟩, stringCount⟩ := header
  have magicEq : image.take 4 = ascii "PPBC" := slice_of_hasAt magic
  have start : recordsStart strings.length m.protos.length ≤ image.length := w.recordAt_le (Nat.zero_le _)
  have startEq := recordsStart_eq strings.length m.protos.length
  have totalEq := u32At_of_hasAt total
  have fits := w.total
  have totalNat : (u32At image 8).toNat = image.length := by
    rw [show 8 = 0 + ((ascii "PPBC").length + 2 + 2) from rfl, totalEq, UInt32.toNat_ofNat', length]
    omega
  have protosEq : (u16At image 12).toNat = m.protos.length := by
    rw [show 12 = 0 + ((ascii "PPBC").length + 2 + 2 + 4) from rfl, u16At_of_hasAt protoCount, toNat_word w.fewProtos]
  have stringsEq : (u16At image 14).toNat = strings.length := by
    rw [show 14 = 0 + ((ascii "PPBC").length + 2 + 2 + 4 + 2) from rfl, u16At_of_hasAt stringCount,
      toNat_word w.fewStrings]
  have versionEq : u16At image 4 = formatVersion := u16At_of_hasAt version
  have flagsEq : u16At image 6 = expectedFlags cfg := u16At_of_hasAt flags
  have alignedStart : align4 (16 + (strings.length + m.protos.length) * 4) =
      recordsStart strings.length m.protos.length := by
    rw [recordsStart_eq, align4_of_mod (by omega)]
    omega
  have stringsRead : ((List.range strings.length).mapM fun i =>
      loadString image (tableEntry image i) (tableEntry image (i + 1))) = .ok strings := by
    refine range_mapM_ok rfl fun i s h => ?_
    have low := (List.getElem?_eq_some_iff.mp h).1
    have := w.someProtos
    rw [w.tableEntry_eq (by omega), w.tableEntry_eq (by omega), w.loadString_eq h]
  have protosRead : ((List.range m.protos.length).mapM fun i =>
      (loadProto image strings (i == 0) (tableEntry image (strings.length + i))
        (recordLimit image (strings.length + m.protos.length) (strings.length + i)) :
        Load (Proto cfg))) =
      m.protos.zipIdx.mapM fun (p, i) => reloadProto (i == 0) p := by
    rw [range_eq_range']
    refine zipIdx_mapM fun i p h => ?_
    have low := (List.getElem?_eq_some_iff.mp h).1
    have limit : recordLimit image (strings.length + m.protos.length) (strings.length + i) =
        recordAt m strings (strings.length + i + 1) := by
      unfold recordLimit
      split
      · rename_i inner
        rw [w.tableEntry_eq inner]
      · rw [length]
        congr 1
        omega
    simp only [zero_add]
    rw [limit, w.tableEntry_eq (by omega), w.loadProto_eq h]
  have some : (m.protos.length != 0) = true := by simpa using w.someProtos
  unfold loadRecords reloadModule
  simp only [rangeAvailable_of_le (show 0 + 16 ≤ image.length by omega), magicEq, versionEq,
    totalNat, beq_self_eq_true, Bool.and_true, require_true, ok_bind, flagsEq, checkFlags_expected,
    protosEq, stringsEq, some, alignedStart, start, decide_true, w.tableEntryOk_all,
    rangeAvailable_of_le (show 16 + (strings.length + m.protos.length) * 4 ≤ image.length by omega),
    stringsRead, protosRead]

end Reading

/-! ## The round trip -/

/-- A module and the module loaded for it: the same protos in the same order. -/
def SameModule (m m' : Module cfg) : Prop := Forall₂ SameProto m.protos m'.protos

theorem reloadModule_ok {m m' : Module cfg} (h : reloadModule m = .ok m') : SameModule m m' := by
  obtain ⟨protos, each, h⟩ := bind_eq_ok.mp h
  cases h
  exact forall₂_zipIdx (mapM_eq_ok.mp each) fun _ _ _ => reloadProto_ok

theorem SameProto.withRole {p q : Proto cfg} (h : SameProto p q) (role : ProtoRole) : SameProto p { q with role } := by
  obtain ⟨name, nParams, nRequired, variadic, isMethod, conditional, maxStack, code, locals,
    constants, catches, types⟩ := h
  refine ⟨name, nParams, nRequired, variadic, isMethod, conditional, maxStack, code, locals, constants, ?_, types⟩
  exact catches.imp fun entry loaded same => same.mono (prefix_refl _)

theorem sameProtos_withRoles {protos loaded final : List (Proto cfg)}
    (same : Forall₂ SameProto protos loaded)
    (each : Forall₂ (fun p q : Proto cfg => ∃ role, q = { p with role := role }) loaded final) :
    Forall₂ SameProto protos final := by
  induction same generalizing final with
  | nil => cases each; exact .nil
  | cons one _ ih =>
    rcases each with _ | ⟨⟨role, rfl⟩, each⟩
    exact .cons (one.withRole role) (ih each)

theorem finalizeProtoRoles_same {m loaded m' : Module cfg} {refs : List (Option ProtoRef)}
    (same : SameModule m loaded) (h : finalizeProtoRoles loaded refs = some m') : SameModule m m' := by
  unfold finalizeProtoRoles at h
  unfold SameModule at same ⊢
  split at h
  · cases h
    exact same
  · rename_i entry rest protosEq
    obtain ⟨final, finals, h⟩ := Option.bind_eq_some_iff.mp h
    split at h
    · cases h
    · cases h
      rw [protosEq] at same
      obtain ⟨p, protos, head, tail, originalEq⟩ := forall₂_cons_right_iff.mp same
      rw [originalEq]
      have each : Forall₂ (fun p q : Proto cfg => ∃ role, q = { p with role := role }) rest final := by
        refine forall₂_zipIdx (mapM_eq_some.mp finals) fun p i q found => ?_
        obtain ⟨role, -, rfl⟩ := Option.map_eq_some_iff.mp found
        exact ⟨role, rfl⟩
      exact .cons (head.withRole _) (sameProtos_withRoles tail each)

theorem validateModule_same {m loaded m' : Module cfg} (same : SameModule m loaded)
    (h : validateModule loaded = some m') : SameModule m m' := by
  obtain ⟨refs, -, h⟩ := Option.bind_eq_some_iff.mp h
  obtain ⟨final, finalized, h⟩ := Option.bind_eq_some_iff.mp h
  split at h
  · cases h
  · cases h
    exact finalizeProtoRoles_same same finalized

/-- **An image that loads is the module it was written from.** -/
theorem load_writeImage {m m' : Module cfg} {image : List UInt8} (written : writeImage m = some image)
    (loaded : load cfg image = .ok m') : SameModule m m' := by
  obtain ⟨strings, records, w⟩ := writeImage_layout written
  obtain ⟨read, reading, validated⟩ := bind_eq_ok.mp loaded
  rw [w.loadRecords_eq] at reading
  exact validateModule_same (reloadModule_ok reading) (orParse_eq_ok.mp validated)

/-- The options of a small build. -/
def smallBuild : Config := ⟨false, false, true, true, false⟩

/-- `try { echo $a; } catch (E $e) {}` as an entry proto. -/
def sampleModule : Module smallBuild where
  protos := [
    { (Proto.new ⟨ascii "m", by decide⟩ : Proto smallBuild) with
      role := .main
      code := encodeAll [.byte .loadLocal 0, .byte .echo 1, .plain .halt]
      constants := [.int 7, .string ⟨ascii "E", by decide⟩]
      locals := [⟨ascii "a", by decide⟩, ⟨ascii "e", by decide⟩]
      locals_le := by decide
      catches := [⟨0, 4, 4, 1, 1⟩] }]

def sampleImage : List UInt8 := (writeImage sampleModule).getD []

/-- The sample as it is loaded: the class name is there a second time. -/
def sampleLoaded : Module smallBuild where
  protos := sampleModule.protos.map fun p =>
    { p with
      constants := p.constants ++ [Constant.string ⟨ascii "E", by decide⟩]
      catches := [⟨0, 4, 4, 2, 1⟩] }

theorem load_writeImage_sample : SameModule sampleModule sampleLoaded :=
  load_writeImage (show writeImage sampleModule = some sampleImage by decide +kernel)
    (show load smallBuild sampleImage = .ok sampleLoaded by decide +kernel)

end PhpPico
