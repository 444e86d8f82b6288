import PhpPico.Arrays.Packed
import PhpPico.Arrays.Slice
import PhpPico.Lib.SignedArithmetic
import PhpPico.Strings.Search

/-!
# Parts of strings

`substr` takes bytes as `array_slice` takes entries. They differ only where there is no room for as many entries as
the length says: `array_slice` fails, and for the largest lengths the sum in `substr` overflows.
-/

namespace PhpPico.Strings
open List Option OrderedMap PArray Arrays

/-! ## The functions -/

/-- The limits of `int64_t`. -/
def int64Min : Int := -9223372036854775808

def int64Max : Int := 9223372036854775807

/-- `string_result`: `granted` says whether there is memory for the string. -/
def stringResult (granted : Bool) (bytes : List UInt8) : Except String (List UInt8) :=
  if 65535 < bytes.length then .error "string result exceeds maximum length"
  else if granted then .ok bytes
  else .error "out of memory creating string result"

/-- The arguments `call_substr` looks at first. A missing length is the same as null. -/
def substrArguments : List Argument → Option (Argument × Int × Argument)
  | [string, .int offset] => some (string, offset, .null)
  | [string, .int offset, length] => some (string, offset, length)
  | _ => none

/-- The length, which is null or an integer. -/
def lengthArgument : Argument → Option (Option Int)
  | .null => some none
  | .int length => some (some length)
  | _ => none

/-- The offset of `call_substr`, once it is within the string. -/
def substrOffset (size offset : Int) : Option Int :=
  (if offset < 0 then Signed.add int64Min int64Max size offset else some offset).map fun offset =>
    let offset := if offset < 0 then 0 else offset
    if size < offset then size else offset

/-- The length of `call_substr`, once it is within the string. -/
def substrLength (size offset : Int) : Option Int → Option Int
  | none => Signed.sub int64Min int64Max size offset
  | some length =>
    (if length < 0 then
      (Signed.sub int64Min int64Max size offset).bind fun left => Signed.add int64Min int64Max left length
    else some length).bind fun length =>
      let length := if length < 0 then 0 else length
      (Signed.add int64Min int64Max offset length).bind fun behind =>
        if size < behind then Signed.sub int64Min int64Max size offset else some length

/-- `call_substr`. There is no result where a sum overflows. `granted` says whether there is memory for the copy and
for the result. -/
def callSubstr (cfg : Config) (granted : Bool × Bool) (arguments : List Argument) :
    Option (Except String (List UInt8)) :=
  match substrArguments arguments with
  | none => some (.error (failArguments "substr"))
  | some (first, offset, third) =>
    match argumentString cfg granted.1 first with
    | none => some (.error (failString "substr"))
    | some bytes =>
      (substrOffset bytes.length offset).bind fun offset =>
        match lengthArgument third with
        | none => some (.error (failArguments "substr"))
        | some length => (substrLength bytes.length offset length).map fun length =>
          stringResult granted.2 ((bytes.drop offset.toNat).take length.toNat)

section Split
variable {cfg : Config} (truncate : BitVec cfg.floatWidth → Option Int)

/-- The loop of `call_str_split`, with `push_slice`: `part` says whether there is memory for the string at an offset,
and `mem` whether there is for its entry. -/
def splitLoop (mem : Nat → Memory) (part : Nat → Bool) (bytes : List UInt8) (chunk : Nat) :
    Nat → Nat → PArray (List UInt8) → Option (Except String (PArray (List UInt8)))
  | 0, _, _ => none
  | rounds + 1, offset, array =>
    if offset < bytes.length then
      if part offset then
        match array.paPush truncate (mem offset) ((bytes.drop offset).take (min (bytes.length - offset) chunk)) with
        | none => none
        | some (false, _) => some (.error "out of memory growing split result")
        | some (true, array) => splitLoop mem part bytes chunk rounds (offset + chunk) array
      else some (.error "out of memory splitting string")
    else some (.ok array)

/-- The arguments `call_str_split` accepts. -/
def splitArguments : List Argument → Option (Argument × Int)
  | [string] => some (string, 1)
  | [string, .int chunk] => if chunk < 1 then none else some (string, chunk)
  | _ => none

/-- `call_str_split`. An array has at most 65535 entries, so that there are at most as many rounds and one more. -/
def callStrSplit (arch : Arch) (copied : Bool) (fresh : Memory) (mem : Nat → Memory) (part : Nat → Bool)
    (arguments : List Argument) : Option (Except String (PArray (List UInt8))) :=
  match splitArguments arguments with
  | none => some (.error (failArguments "str_split"))
  | some (first, chunk) =>
    match argumentString cfg copied first with
    | none => some (.error (failString "str_split"))
    | some bytes =>
      let chunk := chunk.toNat % arch.sizes
      match paNew fresh (if chunk = 0 then 0 else bytes.length / chunk + 1) with
      | none => some (.error "out of memory creating split result")
      | some array => splitLoop truncate mem part bytes chunk 65536 0 array

end Split

/-! ## What a part is -/

section Law
variable {cfg : Config} (truncate : BitVec cfg.floatWidth → Option Int) (arch : Arch)

/-- The length as a value: null or an integer. -/
def lengthValue : Option Int → Argument
  | none => .null
  | some length => .int length

def sliceLengthValue : Option Int → Arrays.Argument (List UInt8)
  | none => .null
  | some length => .int length

/-- The sums of `call_array_slice` are within 64 bits. -/
def SumsFit (size : Nat) (offset : Int) (length : Option Int) : Prop :=
  (offset < 0 → Signed.Fits int64Min int64Max (size + offset)) ∧
    ∀ l ∈ length, l < 0 → Signed.Fits int64Min int64Max (size - (start size offset : Int)) ∧
      Signed.Fits int64Min int64Max (size - (start size offset : Int) + l)

/-- With memory for everything, `substr` returns the bytes from the offset on as far as the length says: those of the
slice of the string's characters. -/
def SubstrLaw (bytes : List UInt8) (offset : Int) (length : Option Int) : Prop :=
  ∃ characters slice : PArray (List UInt8),
    callStrSplit truncate arch true granted (fun _ => granted) (fun _ => true) [.string bytes] = some (.ok characters) ∧
    callArraySlice truncate arch granted (fun _ => granted)
      [.array characters, .int offset, sliceLengthValue length] = some (.ok slice) ∧
    SumsFit bytes.length offset length ∧
    callSubstr cfg (true, true) [.string bytes, .int offset, lengthValue length] =
      some (.ok (slice.observe.map Prod.snd).flatten) ∧
    (slice.observe.map Prod.snd).flatten =
      between (start bytes.length offset) (stop bytes.length offset length) bytes

/-- There is room for one entry more than the string has bytes, for as many as the length says, as `size_t` counts,
and for those there are, once the room has been doubled as often as it can be. -/
def SubstrRoom (size : Nat) (offset : Int) (length : Option Int) : Prop :=
  size < 65535 ∧ ∀ l ∈ length, 0 ≤ l → l.toNat % arch.sizes ≤ 65535 ∧ min l.toNat (size - start size offset) ≤
      slots (if l.toNat % arch.sizes = 0 then 0 else max 8 (l.toNat % arch.sizes))

end Law

/-! ## Characters -/

section Characters
variable {cfg : Config} (truncate : BitVec cfg.floatWidth → Option Int)

/-- The characters of a string, as entries whose keys are still to be given. -/
def characterEntries (bytes : List UInt8) : List (Key × List UInt8) := bytes.map fun b => (.int 0, [b])

theorem splitLoop_eq (bytes : List UInt8) (rounds offset : Nat) (array : PArray (List UInt8))
    (within : offset ≤ bytes.length) (enough : bytes.length < offset + rounds) :
    splitLoop truncate (fun _ => granted) (fun _ => true) bytes 1 rounds offset array =
      (array.putAll truncate isString
        ((characterEntries (bytes.drop offset)).map fun e => (granted, e))).map fun outcome =>
          if outcome.1 then .ok outcome.2 else .error "out of memory growing split result" := by
  induction rounds generalizing offset array with
  | zero => omega
  | succ rounds ih =>
    rw [splitLoop]
    by_cases more : offset < bytes.length
    · have split : bytes.drop offset = bytes[offset] :: bytes.drop (offset + 1) := drop_eq_getElem_cons more
      have one : min (bytes.length - offset) 1 = 1 := by omega
      have first : (bytes.drop offset).take 1 = [bytes[offset]] := by rw [split, take_succ_cons, take_zero]
      have entries : (characterEntries (bytes.drop offset)).map (fun e => (granted, e)) =
          (granted, .int 0, [bytes[offset]]) ::
            (characterEntries (bytes.drop (offset + 1))).map fun e => (granted, e) := by
        rw [split]
        rfl
      have push : array.put truncate granted isString (.int 0, [bytes[offset]]) =
          array.paPush truncate granted [bytes[offset]] := rfl
      rw [if_pos more, if_pos rfl, one, first, entries, putAll, push]
      cases pushed : array.paPush truncate granted [bytes[offset]] with
      | none => rfl
      | some outcome =>
        obtain ⟨ok, array'⟩ := outcome
        cases ok with
        | false => rfl
        | true => exact ih (offset + 1) array' more (by omega)
    · have done : bytes.drop offset = [] := drop_eq_nil_of_le (Nat.le_of_not_lt more)
      rw [if_neg more, done]
      rfl

theorem characterEntries_int (bytes : List UInt8) : ∀ e ∈ characterEntries bytes, isString e.1 = false := by
  intro e listed
  obtain ⟨b, -, rfl⟩ := List.mem_map.mp listed
  rfl

theorem callStrSplit_one (arch : Arch) (bytes : List UInt8) :
    callStrSplit truncate arch true granted (fun _ => granted) (fun _ => true) [.string bytes] =
      match paNew granted (bytes.length + 1) with
      | none => some (.error "out of memory creating split result")
      | some array => splitLoop truncate (fun _ => granted) (fun _ => true) bytes 1 65536 0 array := by
  have code : callStrSplit truncate arch true granted (fun _ => granted) (fun _ => true) [.string bytes] =
      match paNew granted (if 1 % arch.sizes = 0 then 0 else bytes.length / (1 % arch.sizes) + 1) with
      | none => some (.error "out of memory creating split result")
      | some array =>
        splitLoop truncate (fun _ => granted) (fun _ => true) bytes (1 % arch.sizes) 65536 0 array := rfl
  have one : 1 % arch.sizes = 1 := by cases arch <;> rfl
  rw [code, one, if_neg (by omega), Nat.div_one]

theorem callStrSplit_some (arch : Arch) {bytes : List UInt8} (short : bytes.length < 65535) :
    ∃ characters : PArray (List UInt8),
      callStrSplit truncate arch true granted (fun _ => granted) (fun _ => true) [.string bytes] =
        some (.ok characters) ∧ characters.Lawful cfg ∧
      characters.dict.entries = renumbered isString 0 (characterEntries bytes) := by
  have strings : OnlyStrings isString := fun _ => rfl
  have ints : ∀ key ∈ keys (characterEntries bytes), key = .int 0 := by
    intro key listed
    obtain ⟨e, entry, rfl⟩ := List.mem_map.mp listed
    obtain ⟨b, -, rfl⟩ := List.mem_map.mp entry
    rfl
  have length : (characterEntries bytes).length = bytes.length := length_map _
  have room : (0 : Int) + (characterEntries bytes).length < cfg.intMax := by
    rw [length]
    unfold Config.intMax
    split <;> omega
  have no_strings : (keys (characterEntries bytes)).filter isString = [] := by
    rw [filter_eq_nil_iff]
    intro key listed
    rw [ints key listed]
    exact Bool.false_ne_true
  have canonical : ∀ key ∈ keys (characterEntries bytes), key.Canonical cfg := by
    intro key listed
    rw [ints key listed]
    trivial
  have empty : (Dict.empty : Dict (List UInt8)).Numbered 0 := Dict.numbered_empty
  obtain ⟨accepts, built, -⟩ := Dict.accepts_renumbered strings empty (by rw [no_strings]; exact nodup_nil)
    canonical (fun s listed => by cases ints _ listed) room
  -- the new array has a slot for each character
  let list := (characterEntries bytes).map fun e => (granted, e)
  have pairs : list.map Prod.snd = characterEntries bytes := by
    rw [List.map_map]
    exact List.map_id _
  have count : list.length = bytes.length := (length_map _).trans length
  have enough : ((Shape.fresh granted (bytes.length + 1)).bind fun s =>
      Shape.addAll cfg isString Dict.empty s list).isSome = true := by
    have everywhere : ∀ site, granted site = true := fun _ => rfl
    have small : bytes.length + 1 ≤ 65535 := by omega
    rw [Shape.fresh_addAll everywhere small isString list
      (fun e listed => by
        obtain ⟨e', listed', rfl⟩ := List.mem_map.mp listed
        exact characterEntries_int bytes e' listed')
      (fun e listed site => by obtain ⟨e', -, rfl⟩ := List.mem_map.mp listed; rfl) (by omega), if_neg (by omega)]
    have := le_slots (max 8 (bytes.length + 1))
    omega
  obtain ⟨grown, sized⟩ := isSome_iff_exists.mp enough
  obtain ⟨s, fresh, adds⟩ := bind_eq_some_iff.mp sized
  have created := shape_paNew (V := List UInt8) granted (bytes.length + 1)
  rw [fresh] at created
  obtain ⟨array, new, shape⟩ := map_eq_some_iff.mp created
  obtain ⟨wf, blank, -⟩ := paNew_eq_some new
  obtain ⟨⟨ok, characters⟩, added, wf', grows, done⟩ := wf.putAll truncate isString list
    (by rw [pairs, blank]; exact accepts)
  rw [blank, shape, adds] at grows
  obtain rfl : ok = true := grows.status
  have dict := done rfl
  rw [pairs, blank] at dict
  refine ⟨characters, ?_, ⟨wf', ?_⟩, ?_⟩
  · rw [callStrSplit_one, new]
    dsimp only
    rw [splitLoop_eq truncate bytes 65536 0 array (Nat.zero_le _) (by omega), drop_zero]
    have all : array.putAll truncate isString ((characterEntries bytes).map fun e => (granted, e)) =
        some (true, characters) := added
    rw [all]
    rfl
  · rw [dict]
    exact Dict.Lawful.empty.putAll fun e listed => canonical e.1 (List.mem_map_of_mem listed)
  · rw [dict]
    exact built

/-- A string of 65535 bytes asks for too many entries. -/
theorem callStrSplit_large (arch : Arch) {bytes : List UInt8} (large : 65535 ≤ bytes.length) :
    callStrSplit truncate arch true granted (fun _ => granted) (fun _ => true) [.string bytes] =
      some (.error "out of memory creating split result") := by
  have none_created : (paNew granted (bytes.length + 1) : Option (PArray (List UInt8))) = none := by
    have created := shape_paNew (V := List UInt8) granted (bytes.length + 1)
    rw [Shape.fresh_large (by omega)] at created
    exact map_eq_none_iff.mp created
  rw [callStrSplit_one, none_created]

theorem values_renumbered (kept : Key → Bool) (next : Int) (entries : List (Key × List UInt8)) :
    (renumbered kept next entries).map Prod.snd = entries.map Prod.snd := by
  induction entries generalizing next with
  | nil => rfl
  | cons e rest ih =>
    rw [renumbered]
    split
    · rw [map_cons, map_cons, ih]
    · rw [map_cons, map_cons, ih]

/-- The characters of a part make up that part. -/
theorem flatten_characters (first behind : Nat) (bytes : List UInt8) :
    ((between first behind (characterEntries bytes)).map Prod.snd).flatten =
      between first behind bytes := by
  rw [characterEntries, ← between_map, List.map_map]
  generalize between first behind bytes = part
  induction part with
  | nil => rfl
  | cons b rest ih => rw [map_cons, flatten_cons, ih]; rfl

end Characters

/-! ## Bytes -/

section Bytes

theorem add_eq {a b : Int} (fits : Signed.Fits int64Min int64Max (a + b)) :
    Signed.add int64Min int64Max a b = some (a + b) := if_pos fits

theorem sub_eq {a b : Int} (fits : Signed.Fits int64Min int64Max (a - b)) :
    Signed.sub int64Min int64Max a b = some (a - b) := if_pos fits

theorem start_le (size : Nat) (offset : Int) : start size offset ≤ size := by
  unfold start
  split <;> omega

theorem substrOffset_eq {size : Nat} (small : size ≤ 65535) {offset : Int} (lower : int64Min ≤ offset) :
    substrOffset size offset = some (start size offset : Int) := by
  unfold int64Min at lower
  unfold substrOffset start
  by_cases negative : offset < 0
  · rw [if_pos negative, if_pos negative, add_eq (by unfold Signed.Fits int64Min int64Max; omega), map_some]
    dsimp only
    congr 1
    split <;> split <;> omega
  · rw [if_neg negative, if_neg negative, map_some]
    dsimp only
    congr 1
    split <;> split <;> omega

theorem substrLength_eq {size : Nat} (small : size ≤ 65535) (offset : Int) {length : Option Int}
    (fits : ∀ l ∈ length, int64Min ≤ l ∧ start size offset + l ≤ int64Max) :
    substrLength size (start size offset) length =
      some ((stop size offset length - start size offset : Nat) : Int) := by
  have within := start_le size offset
  cases length with
  | none =>
    rw [substrLength, sub_eq (by unfold Signed.Fits int64Min int64Max; omega)]
    congr 1
    unfold stop
    dsimp only
    omega
  | some l =>
    obtain ⟨lower, upper⟩ := fits l rfl
    unfold int64Min at lower
    unfold int64Max at upper
    unfold substrLength stop
    dsimp only
    by_cases negative : l < 0
    · rw [if_pos negative, if_pos negative, sub_eq (by unfold Signed.Fits int64Min int64Max; omega), bind_some,
        add_eq (by unfold Signed.Fits int64Min int64Max; omega), bind_some]
      by_cases empty : (size : Int) - start size offset + l < 0
      · rw [if_pos empty, add_eq (by unfold Signed.Fits int64Min int64Max; omega), bind_some, if_neg (by omega)]
        congr 1
        omega
      · rw [if_neg empty, add_eq (by unfold Signed.Fits int64Min int64Max; omega), bind_some, if_neg (by omega)]
        congr 1
        omega
    · rw [if_neg negative, if_neg negative, bind_some, if_neg negative,
        add_eq (by unfold Signed.Fits int64Min int64Max; omega), bind_some]
      by_cases beyond : (size : Int) < start size offset + l
      · rw [if_pos beyond, sub_eq (by unfold Signed.Fits int64Min int64Max; omega)]
        congr 1
        omega
      · rw [if_neg beyond]
        congr 1
        omega

theorem callSubstr_eq {cfg : Config} {bytes : List UInt8} (small : bytes.length ≤ 65535) {offset : Int}
    (lower : int64Min ≤ offset) {length : Option Int}
    (fits : ∀ l ∈ length, int64Min ≤ l ∧ start bytes.length offset + l ≤ int64Max) :
    callSubstr cfg (true, true) [.string bytes, .int offset, lengthValue length] = some (.ok
        (between (start bytes.length offset) (stop bytes.length offset length) bytes)) := by
  have argument : lengthArgument (lengthValue length) = some length := by cases length <;> rfl
  have code : callSubstr cfg (true, true) [.string bytes, .int offset, lengthValue length] =
      (substrOffset bytes.length offset).bind fun offset =>
        match lengthArgument (lengthValue length) with
        | none => some (.error (failArguments "substr"))
        | some length => (substrLength bytes.length offset length).map fun length =>
          stringResult true ((bytes.drop offset.toNat).take length.toNat) := rfl
  have part : between (start bytes.length offset) (stop bytes.length offset length) bytes =
      (bytes.drop (start bytes.length offset)).take
        (stop bytes.length offset length - start bytes.length offset) := rfl
  have short : ((bytes.drop (start bytes.length offset)).take
      (stop bytes.length offset length - start bytes.length offset)).length ≤ 65535 := by
    rw [length_take, length_drop]
    omega
  rw [code, substrOffset_eq small lower, bind_some, argument]
  dsimp only
  rw [substrLength_eq small offset fits, map_some, Int.toNat_natCast, Int.toNat_natCast, stringResult,
    if_neg (not_lt.mpr short), if_pos rfl, part]

end Bytes

/-! ## Both -/

section Both
variable {cfg : Config} (truncate : BitVec cfg.floatWidth → Option Int) (arch : Arch)

theorem renumbered_int (next : Int) (bytes : List UInt8) :
    ∀ e ∈ renumbered isString next (characterEntries bytes), isString e.1 = false := by
  induction bytes generalizing next with
  | nil => exact fun e listed => absurd listed not_mem_nil
  | cons b rest ih =>
    intro e listed
    rcases mem_cons.mp listed with rfl | later
    · rfl
    · exact ih (next + 1) e later

theorem slice_sizes {size : Nat} (short : size < 65535) (offset : Int) (length : Option Int) :
    ((∀ l ∈ length, l < 0) → requested size offset length % arch.sizes =
        stop size offset length - start size offset) ∧
      ∀ l ∈ length, 0 ≤ l → requested size offset length = l.toNat ∧
        stop size offset length - start size offset = min l.toNat (size - start size offset) := by
  have wide : 65535 < arch.sizes := by cases arch <;> decide
  constructor
  · intro negative
    have same : requested size offset length = stop size offset length - start size offset := by
      unfold requested stop
      cases length with
      | none => rfl
      | some l =>
        dsimp only
        rw [if_pos (negative l rfl), if_pos (negative l rfl)]
    have few : stop size offset length - start size offset ≤ size := by
      unfold stop
      cases length with
      | none => exact Nat.sub_le _ _
      | some l =>
        have := negative l rfl
        dsimp only
        rw [if_pos this]
        omega
    rw [same, Nat.mod_eq_of_lt (by omega)]
  · rintro l rfl positive
    unfold requested stop
    dsimp only
    rw [if_neg (Int.not_lt.mpr positive), if_neg (Int.not_lt.mpr positive)]
    refine ⟨rfl, ?_⟩
    omega

theorem sliceRoom_iff {characters : PArray (List UInt8)} {bytes : List UInt8} (short : bytes.length < 65535)
    (entries : characters.dict.entries = renumbered isString 0 (characterEntries bytes))
    (size : characters.size = bytes.length) (offset : Int) (length : Option Int) :
    SliceRoom cfg arch granted (fun _ => granted) characters offset length false ↔
      SubstrRoom arch bytes.length offset length := by
  obtain ⟨whole, given⟩ := slice_sizes arch short offset length
  have all : characters.visited.map Prod.snd = renumbered isString 0 (characterEntries bytes) :=
    (visited_entries characters).trans entries
  have visits : characters.visited.length = bytes.length := by
    rw [← length_map Prod.snd, all, length_renumbered]
    exact length_map _
  have numbers : ∀ e ∈ characters.visited, isString e.2.1 = false :=
    fun e listed => renumbered_int 0 bytes e.2 (all ▸ List.mem_map_of_mem listed)
  unfold SliceRoom
  rw [size]
  generalize listed : (between (start bytes.length offset) (stop bytes.length offset length)
    characters.visited).map (fun e => (granted, e.2)) = list
  have count : list.length = min (stop bytes.length offset length - start bytes.length offset)
      (bytes.length - start bytes.length offset) := by
    rw [← listed, length_map, between, length_take, length_drop, visits]
  have kept : ∀ e ∈ list, (false || isString e.2.1) = false := by
    intro e there
    rw [← listed] at there
    obtain ⟨e', part, rfl⟩ := List.mem_map.mp there
    exact numbers e' ((between_sublist _ _ _).subset part)
  have memory : ∀ e ∈ list, ∀ site, e.1 site = true := by
    intro e there site
    rw [← listed] at there
    obtain ⟨e', -, rfl⟩ := List.mem_map.mp there
    rfl
  have everywhere : ∀ site, granted site = true := fun _ => rfl
  by_cases asked : requested bytes.length offset length % arch.sizes ≤ 65535
  · rw [Shape.fresh_addAll everywhere asked (fun key => false || isString key) list kept memory (by omega)]
    have roomy := le_slots (max 8 (requested bytes.length offset length % arch.sizes))
    constructor
    · intro room
      refine ⟨short, fun l given_l positive => ?_⟩
      obtain ⟨requested, taken⟩ := given l given_l positive
      rw [requested] at asked room
      exact ⟨asked, by omega⟩
    · rintro ⟨-, room⟩
      cases length with
      | none =>
        rw [whole (fun l none => by cases none)] at roomy ⊢
        split <;> omega
      | some l =>
        by_cases negative : l < 0
        · rw [whole (fun l' same => by cases same; exact negative)] at roomy ⊢
          split <;> omega
        · obtain ⟨requested, taken⟩ := given l rfl (Int.not_lt.mp negative)
          have := (room l rfl (Int.not_lt.mp negative)).2
          rw [requested]
          omega
  · rw [Shape.fresh_large (Nat.lt_of_not_le asked)]
    constructor
    · intro impossible
      cases impossible
    · rintro ⟨-, room⟩
      exfalso
      cases length with
      | none =>
        rw [whole (fun l none => by cases none)] at asked
        have : stop bytes.length offset none = bytes.length := rfl
        omega
      | some l =>
        by_cases negative : l < 0
        · rw [whole (fun l' same => by cases same; exact negative), stop] at asked
          rw [if_pos negative] at asked
          omega
        · rw [(given l rfl (Int.not_lt.mp negative)).1] at asked
          exact asked (room l rfl (Int.not_lt.mp negative)).1

theorem flatten_slice {characters : PArray (List UInt8)} {bytes : List UInt8}
    (entries : characters.dict.entries = renumbered isString 0 (characterEntries bytes)) (offset : Int)
    (length : Option Int) : ((Arrays.slice offset length false characters.observe).map Prod.snd).flatten =
      between (start bytes.length offset) (stop bytes.length offset length) bytes := by
  have size : (renumbered isString 0 (characterEntries bytes)).length = bytes.length :=
    (length_renumbered _ _ _).trans (length_map _)
  rw [observe_eq, entries, Arrays.slice, values_renumbered, size, between_map, values_renumbered,
    ← between_map, flatten_characters]

theorem sumsFit {size : Nat} (small : size ≤ 65535) {offset : Int} (lower : int64Min ≤ offset) {length : Option Int}
    (lower' : ∀ l ∈ length, int64Min ≤ l) : SumsFit size offset length := by
  have within := start_le size offset
  unfold int64Min at lower
  refine ⟨fun negative => ?_, fun l given negative => ?_⟩
  · unfold Signed.Fits int64Min int64Max
    omega
  · have := lower' l given
    unfold int64Min at this
    unfold Signed.Fits int64Min int64Max
    omega

/-- **`substr` returns the bytes of the slice exactly when there is room** for as many entries as the length says. -/
theorem substr_iff {bytes : List UInt8} (string : bytes.length ≤ 65535) {offset : Int} {length : Option Int}
    (offset_fits : Signed.Fits cfg.intMin cfg.intMax offset)
    (length_fits : ∀ l ∈ length, Signed.Fits cfg.intMin cfg.intMax l) :
    SubstrLaw truncate arch bytes offset length ↔ SubstrRoom arch bytes.length offset length := by
  have limits : int64Min ≤ cfg.intMin ∧ cfg.intMax ≤ int64Max := by
    unfold int64Min int64Max Config.intMin Config.intMax
    split <;> omega
  by_cases short : bytes.length < 65535
  · obtain ⟨characters, split, lawful, entries⟩ := callStrSplit_some truncate arch short
    have size : characters.size = bytes.length := by
      rw [lawful.wf.size_dict, entries, length_renumbered]
      exact length_map _
    have passed : sliceArguments [.array characters, .int offset, sliceLengthValue length] =
        some (characters, offset, length, false) := by cases length <;> rfl
    obtain ⟨returns, needs⟩ := callArraySlice_room truncate lawful arch granted (fun _ => granted) passed
    rw [sliceRoom_iff arch short entries size offset length] at returns needs
    constructor
    · rintro ⟨characters', output, split', sliced, -⟩
      rw [split] at split'
      cases split'
      exact needs output sliced
    · intro room
      obtain ⟨output, sliced, observed⟩ := returns room
      have lower : int64Min ≤ offset := Int.le_trans limits.1 offset_fits.1
      have lower' : ∀ l ∈ length, int64Min ≤ l := fun l given => Int.le_trans limits.1 (length_fits l given).1
      have bytes_eq : (output.observe.map Prod.snd).flatten =
          between (start bytes.length offset) (stop bytes.length offset length) bytes := by
        rw [observed, flatten_slice entries]
      refine ⟨characters, output, split, sliced, sumsFit string lower lower', ?_, bytes_eq⟩
      rw [bytes_eq]
      refine callSubstr_eq string lower fun l given => ⟨lower' l given, ?_⟩
      -- a length near the limit asks for too many entries
      have upper := (length_fits l given).2
      have start := start_le bytes.length offset
      have asked := room.2 l given
      have wide : arch.sizes = 4294967296 ∨ arch.sizes = 18446744073709551616 := by
        cases arch
        · exact .inl rfl
        · exact .inr rfl
      unfold int64Max at limits ⊢
      by_cases negative : l < 0
      · omega
      · have few := (asked (Int.not_lt.mp negative)).1
        rcases wide with wide | wide <;> rw [wide] at few <;> omega
  · constructor
    · rintro ⟨characters, output, split, -⟩
      rw [callStrSplit_large truncate arch (Nat.le_of_not_lt short)] at split
      cases split
    · intro room
      exact absurd room.1 short

end Both

/-- `substr('pico', 1, -1)`, with the characters `i` and `c`. -/
theorem substr_iff_inner :
    SubstrLaw PArray.noFloatKeys .bits64 [112, 105, 99, 111] 1 (some (-1)) ↔ SubstrRoom .bits64 4 1 (some (-1)) :=
  substr_iff PArray.noFloatKeys .bits64 (by decide) ⟨by decide, by decide⟩
    (fun l given => by cases given; exact ⟨by decide, by decide⟩)

/-- A build with 64-bit integers and without floats. -/
def int64Build : Config := ⟨true, false, false, false, false⟩

/-- No float is a key of that build. -/
def noFloats : BitVec int64Build.floatWidth → Option Int := fun _ => none

/-- With the largest length, `substr('pico', 1, PHP_INT_MAX)` adds past the largest integer. -/
theorem largest_length_overflows :
    callSubstr int64Build (true, true) [.string [112, 105, 99, 111], .int 1, .int 9223372036854775807] = none ∧
      ¬ SubstrLaw noFloats .bits64 [112, 105, 99, 111] 1 (some 9223372036854775807) := by
  have overflows : callSubstr int64Build (true, true)
      [.string [112, 105, 99, 111], .int 1, .int 9223372036854775807] = none := by decide
  refine ⟨overflows, ?_⟩
  rintro ⟨characters, output, -, -, -, returned, -⟩
  cases overflows.symm.trans returned

end PhpPico.Strings
