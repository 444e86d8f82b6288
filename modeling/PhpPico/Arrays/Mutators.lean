import PhpPico.Arrays.Slice

/-!
# Functions that change their array

`array_unshift`, `array_pop` and `array_shift` build the array anew and put it in the place of the old one;
`array_push` adds to the array itself.
-/

namespace PhpPico.Arrays
open List Option OrderedMap PArray

/-- The names `call_array_mutator` knows. -/
inductive Mutator where
  | push | unshift | pop | shift
  deriving DecidableEq

def Mutator.name : Mutator → String
  | .push => "array_push"
  | .unshift => "array_unshift"
  | .pop => "array_pop"
  | .shift => "array_shift"

/-- A result. -/
inductive Returned (V : Type) where
  | int (n : Int)
  | value (v : V)
  | null
  deriving DecidableEq

/-- What a call leaves: its result, or an error with the text that is reported, and the array. -/
structure Mutated (V : Type) where
  result : Except (Option String) (Returned V)
  array : PArray V

/-- The memory a call meets: in `pa_new`, for each argument, and in the round at a position. -/
structure MutatorMemory where
  fresh : Memory
  argument : Nat → Memory
  entry : Nat → Memory

section Mutators
variable {cfg : Config} {V : Type} (truncate : BitVec cfg.floatWidth → Option Int)

/-- `fail_arguments`. -/
def failArguments (name : Mutator) (a : PArray V) : Mutated V :=
  ⟨.error (some (name.name ++ "() received invalid arguments")), a⟩

/-- The loop of `array_push`, and of `array_unshift` over its arguments, from the argument `i` on. -/
def pushArguments (mem : Nat → Memory) : Nat → PArray V → List V → Option (Bool × PArray V)
  | _, a, [] => some (true, a)
  | i, a, value :: rest =>
    match a.paPush truncate (mem i) value with
    | none => none
    | some (false, a) => some (false, a)
    | some (true, a) => pushArguments mem (i + 1) a rest

def callArrayPush (mem : MutatorMemory) (a : PArray V) (values : List V) : Option (Mutated V) :=
  if values = [] then some (failArguments .push a)
  else
    (pushArguments truncate mem.argument 0 a values).map fun outcome =>
      if outcome.1 then ⟨.ok (.int outcome.2.size), outcome.2⟩
      else ⟨.error (some "out of memory pushing array value"), outcome.2⟩

/-- The keys `append_source_entry` keeps. -/
def keeps (reindexInteger : Bool) (key : Key) : Bool := !reindexInteger || isString key

/-- A round of the loops that call `append_source_entry`, but for the entry at `skipped`; whether one has failed. -/
def rebuildRound (mem : Nat → Memory) (reindexInteger : Bool) (skipped : Option Nat) (s : Bool × PArray V) :
    Nat × Key × V → Round (Bool × PArray V)
  | (position, key, value) =>
    if some position = skipped then some (true, s)
    else
      match s.2.put truncate (mem position) (keeps reindexInteger) (key, value) with
      | none => none
      | some (false, replacement) => some (false, (true, replacement))
      | some (true, replacement) => some (true, (false, replacement))

def callArrayUnshift (mem : MutatorMemory) (a : PArray V) (values : List V) : Option (Mutated V) :=
  if values = [] then some (failArguments .unshift a)
  else
    match paNew mem.fresh (a.size + values.length) with
    | none => some ⟨.error (some "out of memory mutating array"), a⟩
    | some replacement =>
      match pushArguments truncate mem.argument 0 replacement values with
      | none => none
      | some (false, _) => some ⟨.error none, a⟩
      | some (true, replacement) =>
        (a.walk (rebuildRound truncate mem.entry true none) (false, replacement)).map fun s =>
          if s.1 then ⟨.error (some "out of memory rebuilding array"), a⟩ else ⟨.ok (.int s.2.size), s.2⟩

/-- A round of the loop that looks for the entry to take: the first one, or the last. -/
def selectRound (shift : Bool) (selected : Option (Nat × V)) : Nat × Key × V → Round (Option (Nat × V))
  | (position, _, value) =>
    if selected.isNone ∨ shift = false then some (!shift, some (position, value)) else some (!shift, selected)

/-- `array_pop` and `array_shift`. -/
def callArrayTake (mem : MutatorMemory) (shift : Bool) (a : PArray V) (values : List V) : Option (Mutated V) :=
  if values ≠ [] then some (failArguments (if shift then .shift else .pop) a)
  else
    match a.walk (selectRound shift) none with
    | none => none
    | some none => some ⟨.ok .null, a⟩
    | some (some (position, value)) =>
      match paNew mem.fresh (a.size - 1) with
      | none => some ⟨.error (some "out of memory mutating array"), a⟩
      | some replacement =>
        (a.walk (rebuildRound truncate mem.entry shift (some position)) (false, replacement)).map fun s =>
          if s.1 then ⟨.error (some "out of memory rebuilding array"), a⟩ else ⟨.ok (.value value), s.2⟩

/-- `call_array_mutator` on an array and the arguments behind it. -/
def callArrayMutator (mem : MutatorMemory) (a : PArray V) (values : List V) : Mutator → Option (Mutated V)
  | .push => callArrayPush truncate mem a values
  | .unshift => callArrayUnshift truncate mem a values
  | .pop => callArrayTake truncate mem false a values
  | .shift => callArrayTake truncate mem true a values

/-! ## What the functions are for -/

/-- The list of a map, and the index an append uses. -/
abbrev Listed (V : Type) := List (Key × V) × Int

/-- Values as entries that have no keys of their own yet. -/
def asEntries (values : List V) : List (Key × V) := values.map fun value => (.int 0, value)

/-- Values under the indices from `next` on. -/
def appended (next : Int) (values : List V) : List (Key × V) := renumbered (fun _ => false) next (asEntries values)

/-- There is an index for each of the values. -/
def Indexable (cfg : Config) (d : Dict V) (count : Nat) : Prop :=
  d.next + count ≤ cfg.intMax ∨ d.next + count = cfg.intMax + 1 ∧ Key.int cfg.intMax ∉ keys d.entries

/-- The next index once the last entry has been taken away: a last index is given back. -/
def nextAfterPop (d : Dict V) : Int :=
  if 0 < d.next ∧ (d.entries.getLast?.map Prod.fst) = some (.int (d.next - 1)) then d.next - 1 else d.next

/-- The result of a call and the list it leaves. A value without an index to put it under is an error. -/
inductive Mutates (cfg : Config) (d : Dict V) : Mutator → List V → Returned V → Listed V → Prop
  | push {values : List V} (indices : Indexable cfg d values.length) :
      Mutates cfg d .push values (.int (d.entries.length + values.length))
        (d.entries ++ appended d.next values, min (d.next + values.length) cfg.intMax)
  | unshift (values : List V) :
      Mutates cfg d .unshift values (.int (d.entries.length + values.length))
        (appended 0 values ++ renumbered isString values.length d.entries, values.length + numbered isString d.entries)
  | pop {entries : List (Key × V)} {key : Key} {value : V} (last : d.entries = entries ++ [(key, value)]) :
      Mutates cfg d .pop [] (.value value) (entries, nextAfterPop d)
  | shift {entries : List (Key × V)} {key : Key} {value : V} (first : d.entries = (key, value) :: entries) :
      Mutates cfg d .shift [] (.value value) (renumbered isString 0 entries, numbered isString entries)
  | pop_empty (empty : d.entries = []) : Mutates cfg d .pop [] .null ([], d.next)
  | shift_empty (empty : d.entries = []) : Mutates cfg d .shift [] .null ([], d.next)

theorem Mutates.indices {d : Dict V} {values : List V} {r : Returned V} {list : Listed V}
    (h : Mutates cfg d .push values r list) : Indexable cfg d values.length := by
  cases h with
  | push indices => exact indices

theorem Mutates.next {d : Dict V} {value : V} {list : Listed V} (h : Mutates cfg d .pop [] (.value value) list) :
    list.2 = nextAfterPop d := by
  cases h with
  | pop last => rfl

/-- A call returns the right value and leaves the right list, or reports an error and leaves the array as it was. -/
structure MutatorLaw (cfg : Config) (a : PArray V) (name : Mutator) (values : List V) (m : Mutated V) : Prop where
  done : ∀ r, m.result = .ok r → Mutates cfg a.dict name values r (m.array.observe, m.array.nextIndex)
  failed : ∀ e, m.result = .error e → (m.array.observe, m.array.nextIndex) = (a.observe, a.nextIndex)

/-! ## The loops -/

/-- The arguments from `i` on as entries, with the memory each of them meets. -/
def argumentEntries (mem : Nat → Memory) : Nat → List V → List (Memory × Key × V)
  | _, [] => []
  | i, value :: rest => (mem i, .int 0, value) :: argumentEntries mem (i + 1) rest

variable (mem : Nat → Memory) {kept : Key → Bool} {fresh : Memory} {hint : Nat}

theorem argumentEntries_map (i : Nat) (values : List V) :
    (argumentEntries mem i values).map Prod.snd = asEntries values := by
  unfold asEntries
  induction values generalizing i with
  | nil => rfl
  | cons value rest ih => rw [argumentEntries, map_cons, map_cons, ih]

theorem key_asEntries {values : List V} {key : Key} (listed : key ∈ keys (asEntries values)) : key = .int 0 := by
  obtain ⟨e, there, rfl⟩ := List.mem_map.mp listed
  obtain ⟨value, -, rfl⟩ := List.mem_map.mp there
  rfl

theorem length_asEntries (values : List V) : (asEntries values).length = values.length := length_map _

theorem numbered_asEntries (strings : OnlyStrings kept) (values : List V) :
    numbered kept (asEntries values) = values.length := by
  rw [← length_asEntries values]
  refine countP_eq_length.mpr fun e listed => ?_
  have key := key_asEntries (List.mem_map_of_mem listed)
  rw [key, strings 0]
  rfl

theorem renumbered_asEntries (strings : OnlyStrings kept) (values : List V) (next : Int) :
    renumbered kept next (asEntries values) = appended next values := by
  induction values generalizing next with
  | nil => rfl
  | cons value rest ih =>
    have step : renumbered kept next (asEntries (value :: rest)) =
        if kept (.int 0) then (.int 0, value) :: renumbered kept next (asEntries rest)
        else (.int next, value) :: renumbered kept (next + 1) (asEntries rest) := rfl
    rw [step, strings 0, if_neg Bool.false_ne_true, ih]
    rfl

theorem kept_asEntries (strings : OnlyStrings kept) (values : List V) : (keys (asEntries values)).filter kept = [] := by
  refine filter_eq_nil_iff.mpr fun key listed => ?_
  rw [key_asEntries listed, strings 0]
  exact Bool.false_ne_true

theorem pushArguments_eq (strings : OnlyStrings kept) (i : Nat) (a : PArray V) (values : List V) :
    pushArguments truncate mem i a values = a.putAll truncate kept (argumentEntries mem i values) := by
  induction values generalizing i a with
  | nil => rfl
  | cons value rest ih =>
    have pushed : a.put truncate (mem i) kept (.int 0, value) = a.paPush truncate (mem i) value := by
      unfold PArray.put
      rw [strings 0, if_neg Bool.false_ne_true]
    rw [pushArguments, argumentEntries, putAll, pushed]
    cases a.paPush truncate (mem i) value with
    | none => rfl
    | some outcome =>
      obtain ⟨ok, a'⟩ := outcome
      cases ok with
      | false => rfl
      | true => exact ih (i + 1) a'

/-- The entries of a loop but for the one at `skipped`, with the memory each of them meets. -/
def restEntries (mem : Nat → Memory) (skipped : Option Nat) (list : List (Nat × Key × V)) : List (Memory × Key × V) :=
  (list.filter fun e => some e.1 != skipped).map fun e => (mem e.1, e.2)

theorem restEntries_none (a : PArray V) : (restEntries mem none a.visited).map Prod.snd = a.dict.entries := by
  have all : a.visited.filter (fun e => some e.1 != none) = a.visited := filter_eq_self.mpr fun _ _ => rfl
  unfold restEntries
  rw [all, List.map_map, ← visited_entries]
  rfl

theorem rounds_rebuild (reindexInteger : Bool) (skipped : Option Nat) (list : List (Nat × Key × V))
    (replacement : PArray V) : (rounds (rebuildRound truncate mem reindexInteger skipped) list (false, replacement)).map
        (fun s => (!s.1, s.2)) = replacement.putAll truncate (keeps reindexInteger) (restEntries mem skipped list) := by
  induction list generalizing replacement with
  | nil => rfl
  | cons e rest ih =>
    obtain ⟨position, key, value⟩ := e
    rw [rounds, rebuildRound, restEntries]
    by_cases skip : some position = skipped
    · rw [if_pos skip, filter_cons_of_neg (by simpa using skip)]
      exact ih replacement
    · rw [if_neg skip, filter_cons_of_pos (by simpa using skip), map_cons, putAll]
      cases replacement.put truncate (mem position) (keeps reindexInteger) (key, value) with
      | none => rfl
      | some outcome =>
        obtain ⟨ok, replacement'⟩ := outcome
        cases ok with
        | false => rfl
        | true => exact ih replacement'

theorem rounds_select_first (list : List (Nat × Key × V)) :
    rounds (selectRound true) list none = some (list.head?.map fun e => (e.1, e.2.2)) := by
  cases list with
  | nil => rfl
  | cons e rest => rfl

theorem rounds_select_last (list : List (Nat × Key × V)) (selected : Option (Nat × V)) :
    rounds (selectRound false) list selected = some ((list.getLast?.map fun e => (e.1, e.2.2)).or selected) := by
  induction list generalizing selected with
  | nil => rfl
  | cons e rest ih =>
    have chosen : selectRound false selected e = some (true, some (e.1, e.2.2)) := if_pos (.inr rfl)
    rw [rounds, chosen]
    dsimp only
    rw [ih, getLast?_cons]
    cases rest.getLast? with
    | none => rfl
    | some last => rfl

/-! ## Building the array anew -/

/-- Whether a new array has room for the entries. -/
def Rebuilds (cfg : Config) (kept : Key → Bool) (fresh : Memory) (hint : Nat) (list : List (Memory × Key × V)) : Prop :=
  ((Shape.fresh fresh hint).bind fun s => Shape.addAll cfg kept Dict.empty s list).isSome = true

theorem putAll_fresh {replacement : PArray V} (created : paNew fresh hint = some replacement)
    (list : List (Memory × Key × V)) (accepts : Dict.empty.Accepts cfg kept (list.map Prod.snd)) :
    ∃ ok built, replacement.putAll truncate kept list = some (ok, built) ∧ built.Wf ∧
      (ok = true ↔ Rebuilds cfg kept fresh hint list) ∧
      (ok = true → built.dict = (list.map Prod.snd).foldl (Dict.put cfg kept) Dict.empty) := by
  obtain ⟨wf, blank, -⟩ := paNew_eq_some created
  have room := shape_paNew (V := V) fresh hint
  rw [created, map_some] at room
  obtain ⟨⟨ok, built⟩, added, wf', grows, done⟩ := wf.putAll truncate kept list (blank.symm ▸ accepts)
  have status : ok = _ := grows.status
  rw [blank] at done status
  refine ⟨ok, built, added, wf', ?_, done⟩
  unfold Rebuilds
  rw [← room, bind_some, ← status]

theorem not_rebuilds_of_none (refused : (paNew fresh hint : Option (PArray V)) = none)
    (list : List (Memory × Key × V)) : ¬ Rebuilds cfg kept fresh hint list := by
  have room := shape_paNew (V := V) fresh hint
  rw [refused, map_none] at room
  unfold Rebuilds
  rw [← room]
  exact Bool.false_ne_true

theorem paNew_hint {a : PArray V} (created : paNew fresh hint = some a) : hint ≤ 65535 := by
  obtain ⟨wf, -, room⟩ := paNew_eq_some created
  exact room.trans wf.capacity_le

theorem below_intMax (cfg : Config) {n : Int} (small : n ≤ 65535) : n < cfg.intMax := by
  unfold Config.intMax
  split <;> omega

section Laws
variable {a : PArray V} (mem : MutatorMemory) (values : List V)

/-- An error that leaves the array alone is within the law. -/
theorem MutatorLaw.error (name : Mutator) (e : Option String) : MutatorLaw cfg a name values ⟨.error e, a⟩ where
  done := fun _ impossible => by cases impossible
  failed := fun _ _ => rfl

/-- **`array_unshift`** keeps the law. -/
theorem unshift_law (h : a.Lawful cfg) :
    ∃ m, callArrayUnshift truncate mem a values = some m ∧ MutatorLaw cfg a .unshift values m := by
  unfold callArrayUnshift
  by_cases none_there : values = []
  · rw [if_pos none_there]
    exact ⟨_, rfl, .error values .unshift _⟩
  rw [if_neg none_there]
  cases created : (paNew mem.fresh (a.size + values.length) : Option (PArray V)) with
  | none => exact ⟨_, rfl, .error values .unshift _⟩
  | some replacement =>
    have strings : OnlyStrings isString := fun _ => rfl
    have list : (argumentEntries mem.argument 0 values ++ restEntries mem.entry none a.visited).map Prod.snd =
        asEntries values ++ a.dict.entries := by
      rw [map_append, argumentEntries_map, restEntries_none]
    have size := h.wf.size_dict
    have hint := paNew_hint created
    have distinct : ((keys (asEntries values ++ a.dict.entries)).filter isString).Nodup := by
      rw [OrderedMap.keys_append, filter_append, kept_asEntries strings, nil_append]
      exact h.lawful.distinct.filter _
    have canonical : ∀ key ∈ keys (asEntries values ++ a.dict.entries), key.Canonical cfg := by
      intro key listed
      rw [OrderedMap.keys_append, mem_append] at listed
      rcases listed with argument | entry
      · rw [key_asEntries argument]
        trivial
      · exact h.lawful.canonical key entry
    have room : (0 : Int) + (asEntries values ++ a.dict.entries).length < cfg.intMax := by
      apply below_intMax
      rw [length_append, length_asEntries]
      omega
    obtain ⟨accepts, built, numbers⟩ := Dict.accepts_renumbered strings (Dict.numbered_empty (V := V)) distinct
      canonical (fun _ _ _ => not_mem_nil) room
    obtain ⟨ok, result, added, wf, -, done⟩ := putAll_fresh truncate created
      (argumentEntries mem.argument 0 values ++ restEntries mem.entry none a.visited) (list ▸ accepts)
    rw [putAll_append, ← pushArguments_eq truncate mem.argument strings] at added
    dsimp only
    cases pushed : pushArguments truncate mem.argument 0 replacement values with
    | none =>
      rw [pushed] at added
      cases added
    | some outcome =>
      obtain ⟨pushedAll, pushedArray⟩ := outcome
      cases pushedAll with
      | false => exact ⟨_, rfl, .error values .unshift _⟩
      | true =>
        rw [pushed] at added
        have loop := rounds_rebuild truncate mem.entry true none a.visited pushedArray
        have keep : keeps true = isString := rfl
        rw [keep] at loop
        have added' : pushedArray.putAll truncate isString (restEntries mem.entry none a.visited) = some (ok, result) :=
          added
        rw [added'] at loop
        obtain ⟨s, ran, outcome⟩ := map_eq_some_iff.mp loop
        dsimp only
        rw [walk_eq, ran]
        refine ⟨_, rfl, ?_⟩
        obtain ⟨failed, rfl⟩ := Prod.mk.inj outcome
        obtain ⟨fails, array⟩ := s
        cases fails with
        | true => exact .error values .unshift _
        | false =>
          have dict := done failed.symm
          rw [list] at dict
          have entries : array.observe = appended 0 values ++ renumbered isString values.length a.dict.entries := by
            rw [observe_eq]
            refine (congrArg Dict.entries dict).trans (built.trans ?_)
            rw [renumbered_append, numbered_asEntries strings, renumbered_asEntries strings, Int.zero_add]
            rfl
          have next : array.nextIndex = values.length + numbered isString a.dict.entries := by
            refine (congrArg Dict.next dict).trans (numbers.next_eq.trans ?_)
            have counted := numbered_asEntries strings values
            unfold numbered at counted ⊢
            rw [countP_append, counted]
            omega
          have count : (array.size : Int) = a.dict.entries.length + values.length := by
            have length := congrArg List.length entries
            have same := wf.size_dict
            rw [observe_eq] at length
            rw [length_append, appended, length_renumbered, length_renumbered, length_asEntries] at length
            dsimp only at same
            omega
          refine ⟨fun r same => ?_, fun e impossible => by cases impossible⟩
          obtain rfl : Returned.int (array.size : Int) = r := Except.ok.inj same
          change Mutates cfg a.dict .unshift values (.int array.size) (array.observe, array.nextIndex)
          rw [entries, next, count]
          exact .unshift values

/-! ## Taking an entry away -/

theorem restEntries_one (mem : Nat → Memory) {before behind : List (Nat × Key × V)} {position : Nat} {e : Key × V}
    (visits : a.visited = before ++ (position, e) :: behind) :
    restEntries mem (some position) a.visited = (before ++ behind).map fun e => (mem e.1, e.2) := by
  have increasing := a.visited_increasing
  rw [visits, pairwise_append, pairwise_cons] at increasing
  obtain ⟨-, ⟨later, -⟩, earlier⟩ := increasing
  have kept_before : before.filter (fun e => some e.1 != some position) = before := by
    refine filter_eq_self.mpr fun e' listed => ?_
    have less : e'.1 < position := earlier e' listed (position, e) (.head _)
    simp only [bne_iff_ne, ne_eq, some.injEq]
    omega
  have kept_behind : behind.filter (fun e => some e.1 != some position) = behind := by
    refine filter_eq_self.mpr fun e' listed => ?_
    have more : position < e'.1 := later e' listed
    simp only [bne_iff_ne, ne_eq, some.injEq]
    omega
  have here : ((position, e) :: behind).filter (fun e => some e.1 != some position) =
      behind.filter (fun e => some e.1 != some position) :=
    filter_cons_of_neg (by simp)
  unfold restEntries
  rw [visits, filter_append, here, kept_before, kept_behind]

/-- Taking the entry at a position away succeeds exactly when the rest can be rebuilt. -/
theorem callArrayTake_eq (h : a.Lawful cfg) (shift : Bool) {before behind : List (Nat × Key × V)} {position : Nat}
    {e : Key × V} (visits : a.visited = before ++ (position, e) :: behind)
    (selected : a.walk (selectRound shift) none = some (some (position, e.2))) :
    ∃ m, callArrayTake truncate mem shift a [] = some m ∧
      (Rebuilds cfg (keeps shift) mem.fresh (a.size - 1) (restEntries mem.entry (some position) a.visited) →
        m.result = .ok (.value e.2) ∧ m.array.Wf ∧
          m.array.dict = ((before ++ behind).map Prod.snd).foldl (Dict.put cfg (keeps shift)) Dict.empty) ∧
      (¬ Rebuilds cfg (keeps shift) mem.fresh (a.size - 1) (restEntries mem.entry (some position) a.visited) →
        ∃ text, m = ⟨.error text, a⟩) := by
  have part : ((before ++ behind).map Prod.snd).Sublist a.dict.entries := by
    rw [← visited_entries, visits]
    exact ((sublist_cons_self _ behind).append_left before).map Prod.snd
  have rest : (restEntries mem.entry (some position) a.visited).map Prod.snd = (before ++ behind).map Prod.snd := by
    rw [restEntries_one mem.entry visits, List.map_map]
    rfl
  have accepts : Dict.empty.Accepts cfg (keeps shift) ((before ++ behind).map Prod.snd) :=
    (accepts_slice h part (!shift)).1
  unfold callArrayTake
  rw [if_neg (not_not.mpr rfl), selected]
  cases created : (paNew mem.fresh (a.size - 1) : Option (PArray V)) with
  | none =>
    refine ⟨_, rfl, fun rebuilds => ?_, fun _ => ⟨_, rfl⟩⟩
    exact absurd rebuilds (not_rebuilds_of_none created _)
  | some replacement =>
    obtain ⟨ok, built, added, wf, rebuilds, done⟩ := putAll_fresh truncate created
      (restEntries mem.entry (some position) a.visited) (by rw [rest]; exact accepts)
    have loop := rounds_rebuild truncate mem.entry shift (some position) a.visited replacement
    rw [added] at loop
    obtain ⟨s, ran, outcome⟩ := map_eq_some_iff.mp loop
    obtain ⟨failed, rfl⟩ := Prod.mk.inj outcome
    dsimp only
    rw [walk_eq, ran, ← rebuilds]
    obtain ⟨fails, array⟩ := s
    cases fails with
    | true =>
      have status : ok = false := failed.symm
      refine ⟨_, rfl, fun all => ?_, fun _ => ⟨_, rfl⟩⟩
      rw [status] at all
      cases all
    | false =>
      have status : ok = true := failed.symm
      refine ⟨_, rfl, fun _ => ⟨rfl, wf, (done status).trans (by rw [rest])⟩, fun unfinished => ?_⟩
      exact absurd status unfinished

/-- **`array_shift`** keeps the law. -/
theorem shift_law (h : a.Lawful cfg) :
    ∃ m, callArrayTake truncate mem true a values = some m ∧ MutatorLaw cfg a .shift values m := by
  by_cases extra : values ≠ []
  · unfold callArrayTake
    rw [if_pos extra]
    exact ⟨_, rfl, .error values .shift _⟩
  obtain rfl := not_not.mp extra
  have select := rounds_select_first a.visited
  rw [← walk_eq] at select
  cases visits : a.visited with
  | nil =>
    have empty : a.dict.entries = [] := by rw [← visited_entries, visits]; rfl
    rw [visits] at select
    unfold callArrayTake
    rw [if_neg (not_not.mpr rfl), select]
    refine ⟨_, rfl, fun r same => ?_, fun e impossible => by cases impossible⟩
    obtain rfl : Returned.null = r := Except.ok.inj same
    have shown : a.observe = [] := a.observe_eq.trans empty
    change Mutates cfg a.dict .shift [] .null (a.observe, a.dict.next)
    rw [shown]
    exact .shift_empty empty
  | cons first rest =>
    obtain ⟨position, key, value⟩ := first
    have parts : a.visited = [] ++ (position, key, value) :: rest := visits
    have first : a.dict.entries = (key, value) :: rest.map Prod.snd := by rw [← visited_entries, visits]; rfl
    rw [visits] at select
    obtain ⟨m, called, done, failed⟩ := callArrayTake_eq truncate mem h true parts select
    refine ⟨m, called, ?_⟩
    by_cases rebuilds : Rebuilds cfg (keeps true) mem.fresh (a.size - 1)
        (restEntries mem.entry (some position) a.visited)
    · obtain ⟨result, wf, dict⟩ := done rebuilds
      have part : (rest.map Prod.snd).Sublist a.dict.entries := first ▸ sublist_cons_self _ _
      obtain ⟨-, built, next⟩ := accepts_slice h part false
      refine ⟨fun r same => ?_, fun e impossible => by rw [result] at impossible; cases impossible⟩
      obtain rfl : Returned.value value = r := Except.ok.inj (result.symm.trans same)
      have shown : m.array.observe = renumbered isString 0 (rest.map Prod.snd) :=
        m.array.observe_eq.trans ((congrArg Dict.entries dict).trans built)
      have index : m.array.nextIndex = numbered isString (rest.map Prod.snd) :=
        (congrArg Dict.next dict).trans (next rfl)
      rw [shown, index]
      exact .shift first
    · obtain ⟨text, rfl⟩ := failed rebuilds
      exact .error [] .shift text

/-! ## The next index behind entries that keep their keys -/

/-- The next index is 0 or right behind a key. -/
def Tight (d : Dict V) : Prop := d.next = 0 ∨ Key.int (d.next - 1) ∈ keys d.entries

variable {d : Dict V} {entries : List (Key × V)}

theorem tight_put (tight : Tight d) (e : Key × V) (fresh : e.1 ∉ keys d.entries) :
    Tight (d.put cfg (fun _ => true) e) := by
  have entries : (d.put cfg (fun _ => true) e).entries = d.entries ++ [e] := Dict.set_fresh fresh e.2
  have next : (d.put cfg (fun _ => true) e).next = bumpIndex cfg d.next e.1 := by
    have target : d.put cfg (fun _ => true) e = d.set cfg e.1 e.2 := rfl
    rw [target, Dict.set, if_neg fresh]
  have stays : Key.int (d.next - 1) ∈ keys d.entries →
      Key.int (d.next - 1) ∈ keys (d.put cfg (fun _ => true) e).entries := by
    intro listed
    rw [entries, OrderedMap.keys_append]
    exact mem_append_left _ listed
  unfold Tight
  rw [next]
  cases key : e.1 with
  | string s => exact tight.imp id stays
  | int i =>
    unfold bumpIndex
    dsimp only
    split
    · right
      rw [entries, OrderedMap.keys_append, Int.add_sub_cancel]
      exact mem_append_right _ (mem_singleton.mpr key.symm)
    · exact tight.imp id stays

theorem tight_foldl (tight : Tight d) (accepts : d.Accepts cfg (fun _ => true) entries) :
    Tight (entries.foldl (Dict.put cfg fun _ => true) d) := by
  induction entries generalizing d with
  | nil => exact tight
  | cons e rest ih =>
    cases accepts with
    | cons fresh canonical others => exact ih (tight_put tight e fresh) others

theorem lawful_foldl {kept : Key → Bool} (h : d.Lawful cfg)
    (accepts : d.Accepts cfg kept entries) : (entries.foldl (Dict.put cfg kept) d).Lawful cfg := by
  induction entries generalizing d with
  | nil => exact h
  | cons e rest ih =>
    cases accepts with
    | cons fresh canonical others => exact ih (h.set canonical e.2) others

/-- The integer keys of a map are below the next index, but for the largest integer. -/
theorem lt_next (h : d.Lawful cfg) {k : Int} (listed : Key.int k ∈ keys d.entries)
    (small : k < cfg.intMax) : k < d.next := by
  obtain ⟨given, behind⟩ := h.behind
  exact behind.before k (behind.live k listed) small

theorem next_bounds (h : d.Lawful cfg) : 0 ≤ d.next ∧ d.next ≤ cfg.intMax := by
  obtain ⟨given, behind⟩ := h.behind
  exact ⟨behind.lower, behind.upper⟩

/-- The next index an append needs after a pop is the one behind the entries that are left. -/
def KeepsNext (d : Dict V) : Prop :=
  nextAfterPop d = 0 ∨ Key.int (nextAfterPop d - 1) ∈ keys d.entries.dropLast

/-- Behind the entries that are left the next index is the right one exactly when it is 0 or right behind a key. -/
theorem next_rebuilt_iff {built : Dict V} (h : d.Lawful cfg) {last : Key × V}
    (parts : d.entries = entries ++ [last]) (lawful : built.Lawful cfg) (tight : Tight built)
    (same : built.entries = entries) : built.next = nextAfterPop d ↔ KeepsNext d := by
  have bounds := next_bounds h
  have bounds' := next_bounds lawful
  have popped : nextAfterPop d = if 0 < d.next ∧ last.1 = .int (d.next - 1) then d.next - 1 else d.next := by
    unfold nextAfterPop
    rw [parts, getLast?_concat, map_some]
    simp only [some.injEq]
  have rest : d.entries.dropLast = entries := by rw [parts, dropLast_concat]
  have distinct := h.distinct
  rw [parts, OrderedMap.keys_append] at distinct
  have apart : last.1 ∉ keys entries := fun listed =>
    disjoint_of_nodup_append distinct listed (mem_singleton_self _)
  -- what is left is below the index after the pop
  have below : ∀ k, Key.int k ∈ keys entries → k < cfg.intMax → k < nextAfterPop d := by
    intro k listed small
    have before : k < d.next := lt_next h (by rw [parts, OrderedMap.keys_append]; exact mem_append_left _ listed) small
    rw [popped]
    split
    · next given =>
      have other : k ≠ d.next - 1 := by
        rintro rfl
        exact apart (given.2 ▸ listed)
      omega
    · exact before
  unfold KeepsNext
  rw [rest]
  constructor
  · intro equal
    rcases tight with zero | listed
    · exact .inl (equal.symm.trans zero)
    · rw [equal, same] at listed
      exact .inr listed
  · intro keeps
    have le : built.next ≤ nextAfterPop d := by
      rcases tight with zero | listed
      · omega
      · rw [same] at listed
        have := below _ listed (by omega)
        omega
    rcases keeps with zero | listed
    · omega
    · have := lt_next lawful (by rw [same]; exact listed) (by omega)
      omega

/-- **`array_pop`** keeps the law exactly when the index an append needs is behind the entries that are left, or
when it changes nothing. -/
theorem pop_law (h : a.Lawful cfg) : ∃ m, callArrayTake truncate mem false a values = some m ∧
      (MutatorLaw cfg a .pop values m ↔ values ≠ [] ∨ a.dict.entries = [] ∨ KeepsNext a.dict ∨
        ¬ Rebuilds cfg (fun _ => true) mem.fresh (a.size - 1)
          (a.visited.dropLast.map fun e => (mem.entry e.1, e.2))) := by
  by_cases extra : values ≠ []
  · unfold callArrayTake
    rw [if_pos extra]
    exact ⟨_, rfl, fun _ => .inl extra, fun _ => .error values .pop _⟩
  obtain rfl := not_not.mp extra
  have select := rounds_select_last a.visited none
  rw [← walk_eq, or_none] at select
  rcases eq_nil_or_concat' a.visited with visits | ⟨before, last, visits⟩
  · have empty : a.dict.entries = [] := by rw [← visited_entries, visits]; rfl
    rw [visits] at select
    unfold callArrayTake
    rw [if_neg (not_not.mpr rfl), select]
    refine ⟨_, rfl, fun _ => .inr (.inl empty), fun _ => ⟨fun r same => ?_, fun e impossible => by cases impossible⟩⟩
    obtain rfl : Returned.null = r := Except.ok.inj same
    have shown : a.observe = [] := a.observe_eq.trans empty
    change Mutates cfg a.dict .pop [] .null (a.observe, a.dict.next)
    rw [shown]
    exact .pop_empty empty
  · obtain ⟨position, key, value⟩ := last
    have parts : a.dict.entries = before.map Prod.snd ++ [(key, value)] := by
      rw [← visited_entries, visits, map_append]
      rfl
    have some_there : a.dict.entries ≠ [] := by
      rw [parts]
      exact append_ne_nil_of_right_ne_nil _ (cons_ne_nil _ _)
    rw [visits, getLast?_concat] at select
    obtain ⟨m, called, done, failed⟩ := callArrayTake_eq truncate mem h false visits select
    have rest : restEntries mem.entry (some position) a.visited =
        a.visited.dropLast.map fun e => (mem.entry e.1, e.2) := by
      rw [restEntries_one mem.entry visits, append_nil, visits, dropLast_concat]
    have all : keeps false = fun _ => true := rfl
    rw [rest, all] at done failed
    refine ⟨m, called, ?_⟩
    by_cases rebuilds : Rebuilds cfg (fun _ => true) mem.fresh (a.size - 1)
        (a.visited.dropLast.map fun e => (mem.entry e.1, e.2))
    · obtain ⟨result, wf, dict⟩ := done rebuilds
      rw [append_nil] at dict
      have part : (before.map Prod.snd).Sublist a.dict.entries := parts ▸ sublist_append_left _ _
      obtain ⟨accepts, built, -⟩ := accepts_slice h part true
      have accepts' : Dict.empty.Accepts cfg (fun _ => true) (before.map Prod.snd) := accepts
      have entries : m.array.dict.entries = before.map Prod.snd := by
        rw [dict]
        exact built.trans (renumbered_all 0 _)
      have lawful : m.array.dict.Lawful cfg := dict ▸ lawful_foldl Dict.Lawful.empty accepts'
      have tight : Tight m.array.dict := dict ▸ tight_foldl (.inl rfl) accepts'
      have next := next_rebuilt_iff h.lawful parts lawful tight entries
      have same : m.array.dict.next = m.array.nextIndex := rfl
      have shown : m.array.observe = before.map Prod.snd := m.array.observe_eq.trans entries
      rw [same] at next
      constructor
      · intro law
        have mutates := law.done _ result
        refine .inr (.inr (.inl (next.mp ?_)))
        generalize m.array.nextIndex = index at mutates
        cases mutates with
        | pop last => rfl
      · rintro (impossible | impossible | keeps | impossible)
        · exact absurd rfl impossible
        · exact absurd impossible some_there
        · refine ⟨fun r returned => ?_, fun e impossible => by rw [result] at impossible; cases impossible⟩
          obtain rfl : Returned.value value = r := Except.ok.inj (result.symm.trans returned)
          rw [shown, next.mpr keeps]
          exact .pop parts
        · exact absurd rebuilds impossible
    · obtain ⟨text, rfl⟩ := failed rebuilds
      exact ⟨fun _ => .inr (.inr (.inr rebuilds)), fun _ => .error [] .pop text⟩

/-! ## Pushing onto the array itself -/

theorem accepts_pushes (h : d.Lawful cfg) {values : List V} (indices : Indexable cfg d values.length) :
    d.Accepts cfg (fun _ => false) (asEntries values) ∧
      ((asEntries values).foldl (Dict.put cfg fun _ => false) d).entries = d.entries ++ appended d.next values ∧
      ((asEntries values).foldl (Dict.put cfg fun _ => false) d).next = min (d.next + values.length) cfg.intMax := by
  induction values generalizing d with
  | nil =>
    have upper := (next_bounds h).2
    refine ⟨.nil d, (append_nil _).symm, ?_⟩
    have start : (asEntries ([] : List V)).foldl (Dict.put cfg fun _ => false) d = d := rfl
    have none_there : ((([] : List V).length : Nat) : Int) = 0 := rfl
    rw [start, none_there]
    omega
  | cons value rest ih =>
    have upper := (next_bounds h).2
    have fresh : Key.int d.next ∉ keys d.entries := by
      intro listed
      by_cases small : d.next < cfg.intMax
      · exact Int.lt_irrefl _ (lt_next h listed small)
      · have largest : d.next = cfg.intMax := by omega
        rcases indices with few | ⟨-, free⟩
        · rw [length_cons] at few
          omega
        · rw [largest] at listed
          exact free listed
    have canonical : (Key.int d.next).Canonical cfg := trivial
    have put : d.put cfg (fun _ => false) (.int 0, value) = d.set cfg (.int d.next) value := rfl
    have added : (d.set cfg (.int d.next) value).entries = d.entries ++ [(Key.int d.next, value)] :=
      Dict.set_fresh fresh value
    have moved : (d.set cfg (.int d.next) value).next = if d.next < cfg.intMax then d.next + 1 else d.next := by
      rw [Dict.set, if_neg fresh]
      unfold bumpIndex
      simp
    have indices' : Indexable cfg (d.set cfg (.int d.next) value) rest.length := by
      unfold Indexable at indices ⊢
      rw [length_cons] at indices
      rw [moved, added, OrderedMap.keys_append, mem_append]
      by_cases small : d.next < cfg.intMax
      · rw [if_pos small]
        rcases indices with few | ⟨all, free⟩
        · left
          omega
        · right
          refine ⟨by omega, ?_⟩
          rintro (old | last)
          · exact free old
          · have same := Key.int.inj (mem_singleton.mp last)
            omega
      · rw [if_neg small]
        left
        omega
    obtain ⟨others, built, next⟩ := ih (h.set canonical value) indices'
    have step : (asEntries (value :: rest)).foldl (Dict.put cfg fun _ => false) d =
        (asEntries rest).foldl (Dict.put cfg fun _ => false) (d.set cfg (.int d.next) value) := rfl
    refine ⟨.cons fresh canonical (put ▸ others), ?_, ?_⟩
    · rw [step, built, added, append_assoc]
      by_cases more : rest = []
      · rw [more]
        rfl
      · have some_more := length_pos_of_ne_nil more
        unfold Indexable at indices
        rw [length_cons] at indices
        rw [moved, if_pos (by omega)]
        rfl
    · rw [step, next, moved, length_cons]
      split <;> omega

theorem paSet_present (h : a.Wf) {key : Key} (canonical : key.Canonical cfg) (present : key ∈ keys a.dict.entries)
    (mem : Memory) (value : V) : ∃ a', a.paSet truncate mem (key.toValue cfg) value = some (true, a') ∧ a'.Wf ∧
      a'.dict = a.dict.set cfg key value := by
  obtain ⟨ok, a', set, wf, done, -⟩ := h.paSet truncate mem (key.toValue cfg) value
  obtain ⟨found, walk, missing, -⟩ := h.findEntry key
  have code : a.paSet truncate mem (key.toValue cfg) value = some (ok, a') := set
  unfold PArray.paSet at set
  rw [canonical.normalizeKey] at set
  simp only [walk] at set
  cases found with
  | none => exact absurd present (missing rfl)
  | some p =>
    obtain rfl : true = ok := (Prod.mk.inj (some.inj set)).1
    obtain ⟨key', refers, dict⟩ := done rfl
    have same : key' = key := by
      have normal := ((normalizeKey_eq_some cfg truncate true (key.toValue cfg) key').mpr ⟨refers, fun _ => rfl⟩)
      rw [canonical.normalizeKey] at normal
      exact (some.inj normal).symm
    exact ⟨a', code, wf, same ▸ dict⟩

theorem paPush_cases (h : a.Wf) (mem : Memory) (value : V) :
    ∃ ok a', a.paPush truncate mem value = some (ok, a') ∧ a'.Wf ∧
      (ok = true → a'.dict = a.dict.set cfg (.int a.nextIndex) value) ∧ (ok = false → a'.dict = a.dict) := by
  obtain ⟨ok, a', set, wf, done, failed⟩ := h.paSet truncate mem (.int a.nextIndex : KeyValue cfg) value
  refine ⟨ok, a', set, wf, fun all => ?_, fun refused => (failed refused).1⟩
  obtain ⟨key, refers, dict⟩ := done all
  cases refers
  exact dict

theorem length_set (d : Dict V) (key : Key) (value : V) : d.entries.length ≤ (d.set cfg key value).entries.length := by
  by_cases present : key ∈ keys d.entries
  · rw [Dict.length_set_present present]
  · rw [Dict.set_fresh present, length_append]
    exact Nat.le_add_right _ _

/-- Pushes take nothing away. -/
theorem pushArguments_length (argument : Nat → Memory) (i : Nat) {a : PArray V} (h : a.Wf) (values : List V) :
    ∃ ok built, pushArguments truncate argument i a values = some (ok, built) ∧ built.Wf ∧
      a.dict.entries.length ≤ built.dict.entries.length := by
  induction values generalizing i a with
  | nil => exact ⟨true, a, rfl, h, le_rfl⟩
  | cons value rest ih =>
    obtain ⟨ok, a', pushed, wf, done, failed⟩ := paPush_cases truncate h (argument i) value
    rw [pushArguments, pushed]
    cases ok with
    | false => exact ⟨false, a', rfl, wf, by rw [failed rfl]⟩
    | true =>
      obtain ⟨ok, built, all, wf', longer⟩ := ih (i + 1) wf
      have step : a.dict.entries.length ≤ a'.dict.entries.length := by
        rw [done rfl]
        exact length_set _ _ value
      exact ⟨ok, built, all, wf', step.trans longer⟩

theorem pushArguments_overwrite (argument : Nat → Memory) (i : Nat) {a : PArray V} (h : a.Wf) (values : List V)
    (taken : Key.int a.nextIndex ∈ keys a.dict.entries) :
    ∃ built, pushArguments truncate argument i a values = some (true, built) := by
  induction values generalizing i a with
  | nil => exact ⟨a, rfl⟩
  | cons value rest ih =>
    have canonical : (Key.int a.nextIndex).Canonical cfg := trivial
    obtain ⟨a', pushed, wf, dict⟩ := paSet_present truncate h canonical taken (argument i) value
    have pushed' : a.paPush truncate (argument i) value = some (true, a') := pushed
    have next : a'.nextIndex = a.nextIndex := by
      have same := congrArg Dict.next dict
      rw [Dict.set, if_pos taken] at same
      exact same
    have taken' : Key.int a'.nextIndex ∈ keys a'.dict.entries := by
      rw [next, dict, Dict.set, if_pos taken, keys_set, if_pos taken]
      exact taken
    rw [pushArguments, pushed']
    exact ih (i + 1) wf taken'

/-- The first push fails. -/
def FirstFails (mem : MutatorMemory) (a : PArray V) : Prop :=
  Key.int a.nextIndex ∉ keys a.dict.entries ∧ a.shape.add (mem.argument 0) (a.nextIndex == (a.used : Int)) = none

/-- There is an index for each of the values, and room. -/
def AllFit (cfg : Config) (mem : MutatorMemory) (a : PArray V) (values : List V) : Prop :=
  Indexable cfg a.dict values.length ∧
    (Shape.addAll cfg (fun _ => false) a.dict a.shape (argumentEntries mem.argument 0 values)).isSome = true

theorem paPush_firstFails (h : a.Wf) (fails : FirstFails mem a) (value : V) :
    ∃ a', a.paPush truncate (mem.argument 0) value = some (false, a') ∧ a'.dict = a.dict := by
  obtain ⟨outcome, pushed, -, grows, -⟩ := h.paPush_fresh truncate fails.1 (mem.argument 0) value
  obtain ⟨ok, a', pushed', -, -, failed⟩ := paPush_cases truncate h (mem.argument 0) value
  obtain rfl := some.inj (pushed.symm.trans pushed')
  have status : ok = _ := grows.status
  rw [fails.2] at status
  have refused : ok = false := status
  subst refused
  exact ⟨a', pushed', failed rfl⟩

/-- **`array_push`** keeps the law exactly when it can push all values, or not even the first. -/
theorem push_law (h : a.Lawful cfg) : ∃ m, callArrayPush truncate mem a values = some m ∧
      (MutatorLaw cfg a .push values m ↔ values = [] ∨ FirstFails mem a ∨ AllFit cfg mem a values) := by
  unfold callArrayPush
  by_cases none_there : values = []
  · rw [if_pos none_there]
    exact ⟨_, rfl, fun _ => .inl none_there, fun _ => .error values .push _⟩
  rw [if_neg none_there]
  obtain ⟨ok, built, pushed, wf, -⟩ := pushArguments_length truncate mem.argument 0 h.wf values
  rw [pushed]
  refine ⟨_, rfl, ?_⟩
  have fits : AllFit cfg mem a values → ok = true := by
    rintro ⟨indices, room⟩
    obtain ⟨accepts, -⟩ := accepts_pushes h.lawful indices
    obtain ⟨outcome, all, -, grows, -⟩ := h.wf.putAll truncate (fun _ => false)
      (argumentEntries mem.argument 0 values) (by rw [argumentEntries_map]; exact accepts)
    rw [← pushArguments_eq truncate mem.argument (fun _ => rfl), pushed] at all
    obtain rfl := some.inj all
    exact grows.status.trans room
  obtain ⟨value, rest, rfl⟩ := exists_cons_of_ne_nil none_there
  have first : FirstFails mem a → ok = false ∧ built.dict = a.dict := by
    intro fails
    obtain ⟨a', refused, same⟩ := paPush_firstFails truncate mem h.wf fails value
    rw [pushArguments, refused] at pushed
    cases pushed
    exact ⟨rfl, same⟩
  cases ok with
  | true =>
    change MutatorLaw cfg a .push (value :: rest) ⟨.ok (.int built.size), built⟩ ↔ _
    have built_of : Indexable cfg a.dict (value :: rest).length →
        (Shape.addAll cfg (fun _ => false) a.dict a.shape (argumentEntries mem.argument 0 (value :: rest))).isSome =
            true ∧
          built.dict = (asEntries (value :: rest)).foldl (Dict.put cfg fun _ => false) a.dict := by
      intro indices
      obtain ⟨accepts, -⟩ := accepts_pushes h.lawful indices
      obtain ⟨outcome, all, -, grows, done⟩ := h.wf.putAll truncate (fun _ => false)
        (argumentEntries mem.argument 0 (value :: rest)) (by rw [argumentEntries_map]; exact accepts)
      rw [← pushArguments_eq truncate mem.argument (fun _ => rfl), pushed] at all
      obtain rfl := some.inj all
      exact ⟨grows.status.symm, (done rfl).trans (by rw [argumentEntries_map])⟩
    constructor
    · intro law
      have indices : Indexable cfg a.dict (value :: rest).length := (law.done _ rfl).indices
      exact .inr (.inr ⟨indices, (built_of indices).1⟩)
    · rintro (impossible | fails | ⟨indices, -⟩)
      · cases impossible
      · cases (first fails).1
      · obtain ⟨-, dict⟩ := built_of indices
        obtain ⟨-, entries, next⟩ := accepts_pushes h.lawful indices
        rw [← dict] at entries next
        refine ⟨fun r same => ?_, fun e impossible => by cases impossible⟩
        obtain rfl : Returned.int (built.size : Int) = r := Except.ok.inj same
        have size : (built.size : Int) = a.dict.entries.length + (value :: rest).length := by
          have length := congrArg List.length entries
          rw [length_append, appended, length_renumbered, length_asEntries, ← wf.size_dict] at length
          omega
        have index : built.nextIndex = min (a.dict.next + (value :: rest).length) cfg.intMax := next
        change Mutates cfg a.dict .push (value :: rest) (.int built.size) (built.observe, built.nextIndex)
        rw [size, index, observe_eq, entries]
        exact .push indices
  | false =>
    change MutatorLaw cfg a .push (value :: rest) ⟨.error (some "out of memory pushing array value"), built⟩ ↔ _
    constructor
    · intro law
      have same : built.observe = a.observe := (Prod.mk.inj (law.failed _ rfl)).1
      rw [observe_eq, observe_eq] at same
      refine .inr (.inl ?_)
      have free : Key.int a.nextIndex ∉ keys a.dict.entries := by
        intro taken
        obtain ⟨other, all⟩ := pushArguments_overwrite truncate mem.argument 0 h.wf (value :: rest) taken
        rw [pushed] at all
        cases all
      obtain ⟨outcome, begun, wf', grows, done⟩ := h.wf.paPush_fresh truncate free (mem.argument 0) value
      refine ⟨free, not_isSome_iff_eq_none.mp fun room => ?_⟩
      obtain ⟨ok, a'⟩ := outcome
      obtain rfl : ok = true := grows.status.trans room
      obtain ⟨ok', built', rest_pushed, -, longer⟩ := pushArguments_length truncate mem.argument 1 wf' rest
      rw [pushArguments, begun] at pushed
      obtain ⟨-, rfl⟩ := Prod.mk.inj (some.inj (rest_pushed.symm.trans pushed))
      have more := congrArg List.length (congrArg Dict.entries (done rfl))
      rw [Dict.set_fresh free, length_append, length_singleton] at more
      rw [same] at longer
      omega
    · rintro (impossible | fails | all)
      · cases impossible
      · have same := (first fails).2
        refine ⟨fun r impossible => (by cases impossible), fun e _ => ?_⟩
        have index : built.nextIndex = a.nextIndex := congrArg Dict.next same
        change (built.observe, built.nextIndex) = (a.observe, a.nextIndex)
        rw [index, observe_eq, observe_eq, same]
      · cases fits all

end Laws

/-- When a function keeps the law: `array_push` when it can push all values or not even the first, `array_pop` when
it changes nothing or the index an append needs is 0 or right behind an entry that is left. -/
def LawHolds (cfg : Config) (mem : MutatorMemory) (a : PArray V) (values : List V) : Mutator → Prop
  | .push => values = [] ∨ FirstFails mem a ∨ AllFit cfg mem a values
  | .pop => values ≠ [] ∨ a.dict.entries = [] ∨ KeepsNext a.dict ∨
      ¬ Rebuilds cfg (fun _ => true) mem.fresh (a.size - 1) (a.visited.dropLast.map fun e => (mem.entry e.1, e.2))
  | .unshift => True
  | .shift => True

/-- **The functions that change their array** do to its list what they are for, or report an error and leave it,
exactly where `LawHolds`. -/
theorem mutator_iff {a : PArray V} (made : a.Made truncate) (mem : MutatorMemory) (values : List V) (name : Mutator) :
    ∃ m, callArrayMutator truncate mem a values name = some m ∧
      (MutatorLaw cfg a name values m ↔ LawHolds cfg mem a values name) := by
  have h := made.lawful truncate
  cases name with
  | push => exact push_law truncate mem values h
  | pop => exact pop_law truncate mem values h
  | unshift =>
    obtain ⟨m, called, law⟩ := unshift_law truncate mem values h
    exact ⟨m, called, fun _ => trivial, fun _ => law⟩
  | shift =>
    obtain ⟨m, called, law⟩ := shift_law truncate mem values h
    exact ⟨m, called, fun _ => trivial, fun _ => law⟩

end Mutators

/-- There is memory for everything. -/
def allGranted : MutatorMemory := ⟨granted, fun _ => granted, fun _ => granted⟩

theorem pop_one : ∃ m, callArrayMutator PArray.noFloatKeys allGranted oneElement [] .pop = some m ∧
      (MutatorLaw PArray.integerBuild oneElement .pop [] m ↔
        LawHolds PArray.integerBuild allGranted oneElement [] .pop) :=
  mutator_iff PArray.noFloatKeys ⟨pushOnce, _, _, oneElement_reached, .head _⟩ allGranted [] .pop

/-- The calls that make an array with the keys 0 and 5. -/
def gapCalls : List (ArrayCall PArray.integerBuild Nat × Memory) :=
  [(.new 0, granted), (.set 0 (.int 0) 1, granted), (.set 0 (.int 5) 2, granted)]

/-- The array they make. -/
def gapArray : PArray Nat :=
  ⟨false, 2, 8, 6, [⟨some (.int 0, 1), emptyBucket⟩, ⟨some (.int 5, 2), emptyBucket⟩],
    [0, emptyBucket, emptyBucket, emptyBucket, emptyBucket, emptyBucket, 1, emptyBucket]⟩

theorem gapArray_reached : ∃ answers, PArray.run PArray.noFloatKeys [] gapCalls = some (answers, [gapArray]) :=
  ⟨[.status true, .status true, .status true], by rfl⟩

/-- The calls that make an array of seven elements. -/
def sevenCalls : List (ArrayCall PArray.integerBuild Nat × Memory) :=
  (.new 0, granted) :: replicate 7 (.push 0 7, granted)

/-- The array they make, with room for one element more. -/
def sevenElements : PArray Nat :=
  ⟨true, 7, 8, 7, (List.range 7).map fun i => ⟨some (.int i, 7), emptyBucket⟩, []⟩

theorem sevenElements_reached :
    ∃ answers, PArray.run PArray.noFloatKeys [] sevenCalls = some (answers, [sevenElements]) :=
  ⟨replicate 8 (.status true), by rfl⟩

/-- There is no memory for more entries when the second argument comes. -/
def secondRefused : MutatorMemory :=
  { allGranted with argument := fun i site => i != 1 || site != .entries }

/-- **Neither function keeps the law on every array.** An append behind a pop uses the key 1, which should be 5; and
where there is no memory for the second value, the first one has been pushed all the same. -/
theorem mutators_break_law : (gapArray.Made PArray.noFloatKeys ∧
      ∃ m, callArrayMutator PArray.noFloatKeys allGranted gapArray [] .pop = some m ∧ m.array.nextIndex = 1 ∧
        nextAfterPop gapArray.dict = 5 ∧ ¬ MutatorLaw PArray.integerBuild gapArray .pop [] m) ∧
    (sevenElements.Made PArray.noFloatKeys ∧
      ∃ m, callArrayMutator PArray.noFloatKeys secondRefused sevenElements [8, 9] .push = some m ∧
        m.result = .error (some "out of memory pushing array value") ∧ m.array.observe.length = 8 ∧
        ¬ MutatorLaw PArray.integerBuild sevenElements .push [8, 9] m) := by
  obtain ⟨answers, reached⟩ := gapArray_reached
  obtain ⟨answers', reached'⟩ := sevenElements_reached
  refine ⟨⟨⟨gapCalls, answers, _, reached, .head _⟩, ?_⟩, ⟨⟨sevenCalls, answers', _, reached', .head _⟩, ?_⟩⟩
  · refine ⟨⟨.ok (.value 2), ⟨true, 1, 8, 1, [⟨some (.int 0, 1), emptyBucket⟩], []⟩⟩, by rfl, rfl, by decide, ?_⟩
    intro law
    have next : (1 : Int) = nextAfterPop gapArray.dict := (law.done _ rfl).next
    exact absurd next (by decide)
  · refine ⟨⟨.error (some "out of memory pushing array value"),
      ⟨true, 8, 8, 8, ((List.range 7).map fun i => ⟨some (.int i, 7), emptyBucket⟩) ++
        [⟨some (.int 7, 8), emptyBucket⟩], []⟩⟩, by rfl, rfl, by decide, ?_⟩
    intro law
    have same := law.failed _ rfl
    exact absurd (congrArg (fun list => list.1.length) same) (by decide)

end PhpPico.Arrays
