import PhpPico.Arrays.Building
import PhpPico.Parray.Removal
import PhpPico.Pool.Alloc

/-!
# Slices

`array_slice` asks for an array of as many entries as it was told to copy, even where there are fewer.
-/

namespace PhpPico.Arrays
open List OrderedMap PArray

/-- A value a program passes to a function; of other values only the truth counts. -/
inductive Argument (V : Type) where
  | array (a : PArray V)
  | int (n : Int)
  | null
  | other (truthy : Bool)

/-- `pv_is_truthy`. -/
def Argument.isTruthy {V : Type} : Argument V → Bool
  | .array a => a.size != 0
  | .int n => n != 0
  | .null => false
  | .other truthy => truthy

section Slices
variable {cfg : Config} {V : Type} (truncate : BitVec cfg.floatWidth → Option Int)

/-- The arguments `call_array_slice` accepts: the array, the offset, the length unless it is null or missing, and
whether integer keys are kept. -/
def sliceArguments : List (Argument V) → Option (PArray V × Int × Option Int × Bool)
  | [.array source, .int offset] => some (source, offset, none, false)
  | [.array source, .int offset, .null] => some (source, offset, none, false)
  | [.array source, .int offset, .int length] => some (source, offset, some length, false)
  | [.array source, .int offset, .null, preserve] => some (source, offset, none, preserve.isTruthy)
  | [.array source, .int offset, .int length, preserve] => some (source, offset, some length, preserve.isTruthy)
  | _ => none

/-- The offset of `call_array_slice`, once it is within the array. -/
def clampOffset (size : Nat) (offset : Int) : Int :=
  let offset := if offset < 0 then size + offset else offset
  let offset := if offset < 0 then 0 else offset
  if offset > size then size else offset

/-- The length of `call_array_slice`; it is not bounded by the array. -/
def clampLength (size : Nat) (offset : Int) : Option Int → Int
  | none => size - offset
  | some length =>
    let length := if length < 0 then size - offset + length else length
    if length < 0 then 0 else length

def isString : Key → Bool
  | .int _ => false
  | .string _ => true

structure SliceState (V : Type) where
  ordinal : Nat
  length : Int
  output : PArray V
  failed : Bool

/-- A round of the loop of `call_array_slice`, with `array_set_owned` and `array_push_owned`. -/
def sliceRound (mem : Nat → Memory) (offset : Int) (preserve : Bool) (s : SliceState V) :
    Nat × Key × V → Round (SliceState V)
  | (position, key, value) =>
    if 0 < s.length then
      if offset.toNat ≤ s.ordinal then
        match s.output.put truncate (mem position) (fun key => preserve || isString key) (key, value) with
        | none => none
        | some (false, output) => some (false, { s with output, failed := true })
        | some (true, output) => some (true, ⟨s.ordinal + 1, s.length - 1, output, false⟩)
      else some (true, { s with ordinal := s.ordinal + 1 })
    else some (false, s)

/-- `call_array_slice`. `fresh` is the memory `pa_new` meets, and `mem` that of the round at a position. -/
def callArraySlice (arch : Arch) (fresh : Memory) (mem : Nat → Memory) (arguments : List (Argument V)) :
    Option (Except String (PArray V)) :=
  match sliceArguments arguments with
  | none => some (.error "array_slice() received invalid arguments")
  | some (source, offset, length, preserve) =>
    let offset := clampOffset source.size offset
    let length := clampLength source.size offset length
    match paNew fresh (length.toNat % arch.sizes) with
    | none => some (.error "out of memory creating slice")
    | some output =>
      match source.walk (sliceRound truncate mem offset preserve) ⟨0, length, output, false⟩ with
      | none => none
      | some s => some (if s.failed then .error "out of memory growing array result" else .ok s.output)

/-! ## What a slice is -/

/-- The position of the first entry. -/
def start (size : Nat) (offset : Int) : Nat := if offset < 0 then (size + offset).toNat else min offset.toNat size

/-- The position behind the last entry. -/
def stop (size : Nat) (offset : Int) : Option Int → Nat
  | none => size
  | some length => if length < 0 then (size + length).toNat else min (start size offset + length.toNat) size

/-- The entries from one position up to another. -/
def between {α : Type} (first behind : Nat) (list : List α) : List α := (list.drop first).take (behind - first)

/-- The slice of a list of entries. -/
def slice (offset : Int) (length : Option Int) (preserve : Bool) (entries : List (Key × V)) : List (Key × V) :=
  renumbered (fun key => preserve || isString key) 0
    (between (start entries.length offset) (stop entries.length offset length) entries)

/-- `array_slice` returns without an error, and returns the slice. -/
def SliceLaw (arch : Arch) (fresh : Memory) (mem : Nat → Memory) (arguments : List (Argument V)) : Prop :=
  ∀ source offset length preserve, sliceArguments arguments = some (source, offset, length, preserve) →
    ∃ output, callArraySlice truncate arch fresh mem arguments = some (.ok output) ∧
      output.observe = slice offset length preserve source.observe

/-- How many entries the new array is asked to have room for. -/
def requested (size : Nat) (offset : Int) : Option Int → Nat
  | none => size - start size offset
  | some length => if length < 0 then (size + length).toNat - start size offset else length.toNat

/-- There is room for as many entries as are asked for, and for each entry of the slice. -/
def SliceRoom (cfg : Config) (arch : Arch) (fresh : Memory) (mem : Nat → Memory) (source : PArray V) (offset : Int)
    (length : Option Int) (preserve : Bool) : Prop :=
  ((Shape.fresh fresh (requested source.size offset length % arch.sizes)).bind fun s =>
    Shape.addAll cfg (fun key => preserve || isString key) Dict.empty s
      ((between (start source.size offset) (stop source.size offset length) source.visited).map
        fun e => (mem e.1, e.2))).isSome = true

/-! ## The loop -/

theorem clampOffset_eq (size : Nat) (offset : Int) : clampOffset size offset = start size offset := by
  unfold clampOffset start
  dsimp only
  by_cases negative : offset < 0
  · rw [if_pos negative, if_pos negative]
    split <;> split <;> omega
  · rw [if_neg negative, if_neg negative, if_neg negative]
    split <;> omega

theorem clampLength_eq (size : Nat) (offset : Int) (length : Option Int) :
    clampLength size (clampOffset size offset) length = requested size offset length := by
  have within : start size offset ≤ size := by
    unfold start
    split <;> omega
  rw [clampOffset_eq]
  cases length with
  | none =>
    change ((size : Int) - start size offset) = ((size - start size offset : Nat) : Int)
    omega
  | some length =>
    unfold clampLength requested
    dsimp only
    by_cases negative : length < 0
    · rw [if_pos negative, if_pos negative]
      split <;> omega
    · rw [if_neg negative, if_neg negative, if_neg negative]
      omega

theorem between_eq_take {α : Type} (list : List α) (offset : Int) (length : Option Int) :
    (list.drop (start list.length offset)).take (requested list.length offset length) =
      between (start list.length offset) (stop list.length offset length) list := by
  unfold between
  cases length with
  | none => rfl
  | some length =>
    unfold requested stop
    dsimp only
    by_cases negative : length < 0
    · rw [if_pos negative, if_pos negative]
    · rw [if_neg negative, if_neg negative, take_eq_take_iff, length_drop]
      omega

/-- The loop adds the entries from the offset on until it has enough. -/
theorem rounds_slice (mem : Nat → Memory) (first : Nat) (preserve : Bool) (list : List (Nat × Key × V))
    (ordinal count : Nat) (output : PArray V) :
    (rounds (sliceRound truncate mem first preserve) list ⟨ordinal, count, output, false⟩).map
        (fun s => (!s.failed, s.output)) = output.putAll truncate (fun key => preserve || isString key)
        (((list.drop (first - ordinal)).take count).map fun e => (mem e.1, e.2)) := by
  induction list generalizing ordinal count output with
  | nil =>
    rw [drop_nil, take_nil]
    rfl
  | cons e rest ih =>
    obtain ⟨position, key, value⟩ := e
    rw [rounds, sliceRound]
    cases count with
    | zero =>
      rw [if_neg (by exact Int.lt_irrefl 0), take_zero]
      rfl
    | succ count =>
      have more : (0 : Int) < ((count + 1 : Nat) : Int) := by omega
      rw [if_pos more]
      by_cases reached : first ≤ ordinal
      · have here : first - ordinal = 0 := by omega
        have less : ((count + 1 : Nat) : Int) - 1 = (count : Int) := by omega
        rw [if_pos (by exact reached), here, drop_zero, take_succ_cons, map_cons, putAll]
        cases output.put truncate (mem position) (fun key => preserve || isString key) (key, value) with
        | none => rfl
        | some outcome =>
          obtain ⟨ok, output'⟩ := outcome
          cases ok with
          | false => rfl
          | true =>
            have rest_eq := ih (ordinal + 1) count output'
            have none_left : first - (ordinal + 1) = 0 := by omega
            rw [none_left, drop_zero] at rest_eq
            rw [less]
            exact rest_eq
      · have skipped : first - ordinal = first - (ordinal + 1) + 1 := by omega
        rw [if_neg (by exact reached), skipped, drop_succ_cons]
        exact ih (ordinal + 1) (count + 1) output

theorem between_map {α β : Type} (f : α → β) (first behind : Nat) (list : List α) :
    (between first behind list).map f = between first behind (list.map f) := by
  unfold between
  rw [map_take, map_drop]

theorem between_sublist {α : Type} (first behind : Nat) (list : List α) : (between first behind list).Sublist list :=
  (take_sublist _ _).trans (drop_sublist _ _)

/-- Entries of an array can be added to a new one, and are there as they are or renumbered. -/
theorem accepts_slice {source : PArray V} (h : source.Lawful cfg) {entries : List (Key × V)}
    (part : entries.Sublist source.dict.entries) (preserve : Bool) :
    Dict.empty.Accepts cfg (fun key => preserve || isString key) entries ∧
      (entries.foldl (Dict.put cfg fun key => preserve || isString key) Dict.empty).entries =
        renumbered (fun key => preserve || isString key) 0 entries ∧
      (preserve = false → (entries.foldl (Dict.put cfg fun key => preserve || isString key) Dict.empty).next =
        numbered isString entries) := by
  have keysPart : (keys entries).Sublist (keys source.dict.entries) := part.map Prod.fst
  have distinct := h.lawful.distinct.sublist keysPart
  have canonical : ∀ key ∈ keys entries, key.Canonical cfg :=
    fun key listed => h.lawful.canonical key (keysPart.subset listed)
  have apart : ∀ key : Key, key ∉ keys (Dict.empty : Dict V).entries := fun key => not_mem_nil
  cases preserve with
  | true =>
    obtain ⟨accepts, built⟩ := Dict.accepts_all (d := Dict.empty) distinct canonical fun key _ => apart key
    have all : (fun key => true || isString key) = fun _ => true := rfl
    rw [all, renumbered_all]
    exact ⟨accepts, built, fun kept => by cases kept⟩
  | false =>
    have strings : OnlyStrings (fun key => false || isString key) := fun _ => rfl
    have short : entries.length ≤ 65535 := by
      have fewer := part.length_le
      have size := h.wf.size_dict
      have used : source.size ≤ source.used := by
        rw [h.wf.size_eq, ← length_cells]
        exact reduceOption_length_le _
      have := h.wf.used_le
      have := h.wf.capacity_le
      omega
    have room : (0 : Int) + entries.length < cfg.intMax := by
      unfold Config.intMax
      split <;> omega
    obtain ⟨accepts, built, numbers⟩ :=
      Dict.accepts_renumbered strings Dict.numbered_empty (distinct.filter _) canonical
        (fun s _ _ => apart (.string s)) room
    exact ⟨accepts, built, fun _ => numbers.next_eq.trans (Int.zero_add _)⟩

theorem callArraySlice_room {source : PArray V} (h : source.Lawful cfg) (arch : Arch) (fresh : Memory)
    (mem : Nat → Memory) {arguments : List (Argument V)} {offset : Int} {length : Option Int} {preserve : Bool}
    (passed : sliceArguments arguments = some (source, offset, length, preserve)) :
    (SliceRoom cfg arch fresh mem source offset length preserve →
        ∃ output, callArraySlice truncate arch fresh mem arguments = some (.ok output) ∧
          output.observe = slice offset length preserve source.observe) ∧
      ∀ output, callArraySlice truncate arch fresh mem arguments = some (.ok output) →
        SliceRoom cfg arch fresh mem source offset length preserve := by
  have size : source.visited.length = source.size := by
    rw [h.wf.size_dict, ← visited_entries, length_map]
  have room := shape_paNew (V := V) fresh (requested source.size offset length % arch.sizes)
  unfold callArraySlice SliceRoom
  rw [passed]
  dsimp only
  rw [clampLength_eq, Int.toNat_natCast, clampOffset_eq, ← room]
  cases created : (paNew fresh (requested source.size offset length % arch.sizes) : Option (PArray V)) with
  | none =>
    constructor
    · intro impossible
      cases impossible
    · intro output returned
      cases returned
  | some output =>
    obtain ⟨wf, blank, -⟩ := paNew_eq_some created
    have part := between_sublist (start source.size offset) (stop source.size offset length) source.dict.entries
    obtain ⟨accepts, built, -⟩ := accepts_slice h part preserve
    have loop := rounds_slice truncate mem (start source.size offset) preserve source.visited 0
      (requested source.size offset length) output
    rw [Nat.sub_zero, ← size, between_eq_take, size] at loop
    have entries : ((between (start source.size offset) (stop source.size offset length) source.visited).map
        fun e => (mem e.1, e.2)).map Prod.snd =
          between (start source.size offset) (stop source.size offset length) source.dict.entries := by
      rw [List.map_map, ← visited_entries, ← between_map]
      rfl
    obtain ⟨⟨ok, output'⟩, added, -, grows, done⟩ := wf.putAll truncate (fun key => preserve || isString key)
      ((between (start source.size offset) (stop source.size offset length) source.visited).map
        fun e => (mem e.1, e.2)) (by rw [entries, blank]; exact accepts)
    rw [added] at loop
    dsimp only
    rw [walk_eq]
    obtain ⟨s, ran, outcome⟩ := Option.map_eq_some_iff.mp loop
    obtain ⟨failed, rfl⟩ := Prod.mk.inj outcome
    rw [ran]
    have status : ok = _ := grows.status
    rw [blank] at status
    simp only [Option.map_some, Option.bind_some]
    rw [← status]
    cases s with
    | mk ordinal left output' failed' =>
    cases failed' with
    | true =>
      rw [← failed]
      constructor
      · intro impossible
        cases impossible
      · intro output returned
        cases returned
    | false =>
      rw [← failed] at done ⊢
      refine ⟨fun _ => ⟨output', rfl, ?_⟩, fun _ _ => rfl⟩
      have content := congrArg Dict.entries (done rfl)
      have size' : source.observe.length = source.size := by rw [observe_eq, h.wf.size_dict]
      unfold slice
      rw [observe_eq, content, entries, blank, built, size', observe_eq]

/-- **`array_slice` returns the slice exactly when there is room** for as many entries as it was asked for, and for
each entry of the slice. -/
theorem slice_iff {source : PArray V} (made : source.Made truncate) (arch : Arch) (fresh : Memory)
    (mem : Nat → Memory) {arguments : List (Argument V)} {offset : Int} {length : Option Int} {preserve : Bool}
    (passed : sliceArguments arguments = some (source, offset, length, preserve)) :
    SliceLaw truncate arch fresh mem arguments ↔ SliceRoom cfg arch fresh mem source offset length preserve := by
  obtain ⟨returns, needs⟩ := callArraySlice_room truncate (made.lawful truncate) arch fresh mem passed
  constructor
  · intro law
    obtain ⟨output, returned, -⟩ := law source offset length preserve passed
    exact needs output returned
  · intro room source' offset' length' preserve' same
    obtain ⟨rfl, rfl, rfl, rfl⟩ : source' = source ∧ offset' = offset ∧ length' = length ∧ preserve' = preserve := by
      have equal := Option.some.inj (same.symm.trans passed)
      simpa only [Prod.mk.injEq] using equal
    exact returns room

end Slices

theorem slice_one : SliceLaw PArray.noFloatKeys .bits64 granted (fun _ => granted)
        [.array oneElement, .int 0, .int 1, .other true] ↔
      SliceRoom PArray.integerBuild .bits64 granted (fun _ => granted) oneElement 0 (some 1) true :=
  slice_iff PArray.noFloatKeys ⟨pushOnce, _, _, oneElement_reached, .head _⟩ .bits64 granted
    (fun _ => granted) rfl

/-- A slice of the largest length is refused, though the array has one element. -/
theorem largest_length_refused : oneElement.Made PArray.noFloatKeys ∧
      callArraySlice PArray.noFloatKeys .bits64 granted (fun _ => granted)
          [.array oneElement, .int 0, .int 9223372036854775807] = some (.error "out of memory creating slice") ∧
      ¬ SliceLaw PArray.noFloatKeys .bits64 granted (fun _ => granted)
          [.array oneElement, .int 0, .int 9223372036854775807] := by
  have refused : callArraySlice PArray.noFloatKeys .bits64 granted (fun _ => granted)
      [.array oneElement, .int 0, .int 9223372036854775807] = some (.error "out of memory creating slice") := by
    decide
  refine ⟨⟨pushOnce, _, _, oneElement_reached, .head _⟩, refused, fun law => ?_⟩
  obtain ⟨output, returned, -⟩ := law oneElement 0 (some 9223372036854775807) false rfl
  rw [refused] at returned
  cases returned

end PhpPico.Arrays
