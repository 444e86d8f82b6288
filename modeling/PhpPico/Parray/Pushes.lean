import PhpPico.Parray.Runs
import PhpPico.Parray.Slots

/-!
# What a push adds

`pa_push` uses the next index, which `pa_set` moves behind every integer key it adds, but for the largest integer. The
keys an array was given, itself or as the array it is a clone of, are recorded beside it.
-/

namespace PhpPico
open List OrderedMap

section Runs
variable {cfg : Config} {V : Type} (truncate : BitVec cfg.floatWidth → Option Int)

/-- The integer keys every array was given, once a call has been answered. -/
def PArray.recorded (mem : Memory) (arrays : List (PArray V)) (given : List (List Int)) :
    ArrayCall cfg V → ArrayAnswer V → List (List Int)
  | .new _, .status true => given ++ [[]]
  | .clone i, .status true => given ++ [given.getD i []]
  | .set i input _, .status true =>
    match normalizeKey cfg truncate (mem .emptyKey) input with
    | some (.int k) => given.modify i (k :: ·)
    | _ => given
  | .push i _, .status true =>
    match arrays[i]? with
    | some a => given.modify i (a.nextIndex :: ·)
    | none => given
  | _, _ => given

/-- A sequence of calls, each with the allocations that succeed in it, and the keys recorded. -/
def PArray.runRecorded (arrays : List (PArray V)) (given : List (List Int)) :
    List (ArrayCall cfg V × Memory) → Option (List (PArray V) × List (List Int))
  | [] => some (arrays, given)
  | (c, mem) :: rest =>
    match call truncate mem arrays c with
    | none => none
    | some (answer, arrays') => runRecorded arrays' (recorded truncate mem arrays given c answer) rest

/-- The push added one entry at the end, under an integer no entry has, and greater than every
integer key given before that is not negative. -/
structure PArray.Appends (given : List Int) (a : PArray V) (value : V) (a' : PArray V) (k : Int) : Prop where
  last : a'.observe = a.observe ++ [(Key.int k, value)]
  fresh : Key.int k ∉ keys a.observe
  greater : ∀ k' ∈ given, 0 ≤ k' → k' < k
  counted : a'.paCount = a.paCount + 1

/-! ## The next index -/

/-- The next index is behind every key given but the largest integer, and no entry has a key that
was not given. -/
structure Dict.Behind (cfg : Config) (d : Dict V) (given : List Int) : Prop where
  lower : 0 ≤ d.next
  upper : d.next ≤ cfg.intMax
  before : ∀ k ∈ given, k < cfg.intMax → k < d.next
  live : ∀ k, Key.int k ∈ keys d.entries → k ∈ given

theorem Dict.behind_empty : (Dict.empty : Dict V).Behind cfg [] where
  lower := Int.le_refl 0
  upper := Int.natCast_nonneg _
  before := fun k listed => by cases listed
  live := fun k listed => by cases listed

section Step
variable {d : Dict V} {given : List Int}

theorem Dict.Behind.set_int (h : d.Behind cfg given) (k : Int) (value : V) :
    (d.set cfg (.int k) value).Behind cfg (k :: given) := by
  unfold Dict.set
  by_cases present : Key.int k ∈ keys d.entries
  · rw [if_pos present]
    refine ⟨h.lower, h.upper, ?_, ?_⟩
    · intro k' listed small
      rcases mem_cons.mp listed with rfl | old
      · exact h.before k' (h.live k' present) small
      · exact h.before k' old small
    · intro k' entry
      rw [keys_set, if_pos present] at entry
      exact .tail _ (h.live k' entry)
  · rw [if_neg present]
    have lower := h.lower
    have upper := h.upper
    have moved : PArray.bumpIndex cfg d.next (.int k) =
        if d.next ≤ k ∧ k < cfg.intMax then k + 1 else d.next := rfl
    refine ⟨?_, ?_, ?_, ?_⟩
    · simp only [moved]
      split <;> omega
    · simp only [moved]
      split <;> omega
    · intro k' listed small
      simp only [moved]
      rcases mem_cons.mp listed with rfl | old
      · split <;> omega
      · have := h.before k' old small
        split <;> omega
    · intro k' entry
      rw [keys_set, if_neg present] at entry
      rcases mem_append.mp entry with old | new
      · exact .tail _ (h.live k' old)
      · cases mem_singleton.mp new
        exact .head _

theorem Dict.Behind.set_string (h : d.Behind cfg given) (s : PString) (value : V) :
    (d.set cfg (.string s) value).Behind cfg given := by
  have live : ∀ k, Key.int k ∈ keys (OrderedMap.set d.entries (.string s) value) → k ∈ given := by
    intro k entry
    rw [keys_set] at entry
    split at entry
    · exact h.live k entry
    · rcases mem_append.mp entry with old | new
      · exact h.live k old
      · cases mem_singleton.mp new
  unfold Dict.set
  split
  · exact ⟨h.lower, h.upper, h.before, live⟩
  · exact ⟨h.lower, h.upper, h.before, live⟩

theorem Dict.Behind.erase (h : d.Behind cfg given) (key : Key) : (d.erase key).Behind cfg given where
  lower := h.lower
  upper := h.upper
  before := h.before
  live := by
    intro k entry
    have sublist : (keys (OrderedMap.erase d.entries key)).Sublist (keys d.entries) := List.Sublist.map _ filter_sublist
    exact h.live k (sublist.subset entry)

end Step

/-! ## Runs -/

/-- Every map has its record. -/
structure Dict.Recorded (cfg : Config) (ds : List (Dict V)) (given : List (List Int)) : Prop where
  length_eq : given.length = ds.length
  behind : ∀ (i : Nat) (d : Dict V) (keys : List Int), ds[i]? = some d → given[i]? = some keys → d.Behind cfg keys

section Recorded
variable {ds : List (Dict V)} {given : List (List Int)}

theorem Dict.Recorded.exists_given (h : Dict.Recorded cfg ds given) {i : Nat} {d : Dict V} (on : ds[i]? = some d) :
    ∃ keys, given[i]? = some keys ∧ d.Behind cfg keys := by
  have lt : i < given.length := by
    rw [h.length_eq]
    exact (List.getElem?_eq_some_iff.mp on).1
  exact ⟨given[i], getElem?_eq_getElem lt, h.behind i d _ on (getElem?_eq_getElem lt)⟩

theorem Dict.Recorded.concat (h : Dict.Recorded cfg ds given) {d : Dict V} {keys : List Int}
    (behind : d.Behind cfg keys) : Dict.Recorded cfg (ds ++ [d]) (given ++ [keys]) where
  length_eq := by rw [length_append, length_append, h.length_eq, length_singleton, length_singleton]
  behind := by
    intro i d' keys' on at_i
    by_cases old : i < ds.length
    · rw [getElem?_append_left old] at on
      rw [getElem?_append_left (h.length_eq ▸ old)] at at_i
      exact h.behind i d' keys' on at_i
    · have last : i = ds.length := by
        have := (List.getElem?_eq_some_iff.mp on).1
        rw [length_append, length_singleton] at this
        omega
      subst last
      rw [getElem?_concat_length] at on
      rw [← h.length_eq, getElem?_concat_length] at at_i
      cases on
      cases at_i
      exact behind

theorem Dict.Recorded.update (h : Dict.Recorded cfg ds given) {i : Nat} {d d' : Dict V} (on : ds[i]? = some d)
    (f : List Int → List Int) (behind : ∀ keys, d.Behind cfg keys → d'.Behind cfg (f keys)) :
    Dict.Recorded cfg (ds.set i d') (given.modify i f) where
  length_eq := by rw [length_modify, List.length_set, h.length_eq]
  behind := by
    intro j e keys on_j at_j
    rw [getElem?_modify] at at_j
    obtain ⟨old, at_old, rfl⟩ := Option.map_eq_some_iff.mp at_j
    by_cases same : i = j
    · subst same
      rw [getElem?_set_self (List.getElem?_eq_some_iff.mp on).1] at on_j
      cases on_j
      rw [if_pos rfl]
      exact behind old (h.behind i d old on at_old)
    · rw [getElem?_set_ne same] at on_j
      rw [if_neg same]
      exact h.behind j e old on_j at_old

/-- A map is changed that was not given an integer key. -/
theorem Dict.Recorded.update_same (h : Dict.Recorded cfg ds given) {i : Nat} {d d' : Dict V} (on : ds[i]? = some d)
    (behind : ∀ keys, d.Behind cfg keys → d'.Behind cfg keys) : Dict.Recorded cfg (ds.set i d') given := by
  have unchanged := h.update on id behind
  rwa [modify_id] at unchanged

end Recorded

theorem PArray.normalizeKey_of_refersTo_int {input : KeyValue cfg} {k : Int} {emptyKey : Bool}
    (refers : RefersTo cfg truncate input (.int k)) : normalizeKey cfg truncate emptyKey input = some (.int k) := by
  apply (normalizeKey_eq_some cfg truncate emptyKey input _).mpr
  refine ⟨refers, ?_⟩
  rintro rfl
  cases refers

theorem PArray.recorded_step {mem : Memory} {arrays arrays' : List (PArray V)} {given : List (List Int)}
    {c : ArrayCall cfg V} {answer : ArrayAnswer V}
    (step : Dict.Step truncate mem (arrays.map dict) c answer (arrays'.map dict))
    (h : Dict.Recorded cfg (arrays.map dict) given) :
    Dict.Recorded cfg (arrays'.map dict) (recorded truncate mem arrays given c answer) := by
  generalize after : arrays'.map dict = ds' at step
  cases step with
  | new hint => exact h.concat Dict.behind_empty
  | new_failed => exact h
  | null on missing =>
    cases c <;> exact h
  | set value on refers =>
    rename_i i d input key
    cases key with
    | int k =>
      simp only [recorded, normalizeKey_of_refersTo_int truncate refers]
      exact h.update on (k :: ·) fun keys behind => behind.set_int k value
    | string s =>
      have recorded_eq : recorded truncate mem arrays given (.set i input value) (.status true) = given := by
        simp only [recorded]
        split
        · rename_i k normal
          have int := ((normalizeKey_eq_some cfg truncate _ input _).mp normal).1
          cases refers.unique int
        · rfl
      rw [recorded_eq]
      exact h.update_same on fun keys behind => behind.set_string s value
  | set_failed => exact h
  | push value on =>
    rename_i i d
    rw [getElem?_map] at on
    obtain ⟨a, at_i, rfl⟩ := Option.map_eq_some_iff.mp on
    simp only [recorded, at_i]
    have on' : (arrays.map dict)[i]? = some a.dict := by rw [getElem?_map, at_i]; rfl
    exact h.update on' (a.nextIndex :: ·) fun keys behind => behind.set_int a.nextIndex value
  | push_failed => exact h
  | get => exact h
  | get_failed => exact h
  | remove on refers present => exact h.update_same on fun keys behind => behind.erase _
  | remove_failed => exact h
  | clone on =>
    obtain ⟨keys, at_i, behind⟩ := h.exists_given on
    simp only [recorded, getD_eq_getElem?_getD, at_i, Option.getD_some]
    exact h.concat behind
  | clone_failed => exact h
  | iterate => exact h
  | count => exact h

theorem PArray.runRecorded_behind (calls : List (ArrayCall cfg V × Memory)) {arrays arrays' : List (PArray V)}
    {given given' : List (List Int)} (wf : ∀ a ∈ arrays, a.Wf) (h : Dict.Recorded cfg (arrays.map dict) given)
    (ran : runRecorded truncate arrays given calls = some (arrays', given')) :
    (∀ a ∈ arrays', a.Wf) ∧ Dict.Recorded cfg (arrays'.map dict) given' := by
  induction calls generalizing arrays given with
  | nil =>
    cases ran
    exact ⟨wf, h⟩
  | cons first rest ih =>
    obtain ⟨c, mem⟩ := first
    obtain ⟨answer, between, called, wf', step⟩ := call_step truncate mem wf c
    simp only [runRecorded, called] at ran
    exact ih wf' (recorded_step truncate step h) ran

/-! ## Pushing -/

theorem Dict.set_fresh {d : Dict V} {key : Key} (fresh : key ∉ keys d.entries) (value : V) :
    (d.set cfg key value).entries = d.entries ++ [(key, value)] := by
  rw [Dict.set, if_neg fresh, OrderedMap.set_of_not_mem value fresh]

theorem Dict.length_set_present {d : Dict V} {key : Key} (present : key ∈ keys d.entries) (value : V) :
    (d.set cfg key value).entries.length = d.entries.length := by
  rw [Dict.set, if_pos present, OrderedMap.set, if_pos present, length_map]

/-- What a successful push adds. -/
theorem PArray.appends_iff {a a' : PArray V} {given : List Int} {value : V} (wf : a.Wf) (wf' : a'.Wf)
    (behind : a.dict.Behind cfg given) (dict : a'.dict = a.dict.set cfg (.int a.nextIndex) value) :
    (∃ k, PArray.Appends given a value a' k) ↔ ∀ k ∈ given, k < cfg.intMax := by
  constructor
  · rintro ⟨k, appends⟩ k' listed
    have longer : a'.dict.entries.length = a.dict.entries.length + 1 := by
      rw [← wf'.size_dict, ← wf.size_dict]
      exact appends.counted
    have fresh : Key.int a.nextIndex ∉ keys a.dict.entries := by
      intro present
      rw [dict, Dict.length_set_present present] at longer
      omega
    have last := appends.last
    rw [observe_eq, observe_eq, dict, Dict.set_fresh fresh] at last
    have same : a.nextIndex = k := by
      have added := append_cancel_left last
      cases added
      rfl
    have upper : a.nextIndex ≤ cfg.intMax := behind.upper
    by_contra large
    have := appends.greater k' listed (by omega)
    omega
  · intro small
    have fresh : Key.int a.nextIndex ∉ keys a.dict.entries := by
      intro present
      have listed := behind.live _ present
      have : a.nextIndex < a.nextIndex := behind.before _ listed (small _ listed)
      omega
    have entries : a'.dict.entries = a.dict.entries ++ [(Key.int a.nextIndex, value)] := by
      rw [dict, Dict.set_fresh fresh]
    refine ⟨a.nextIndex, ?_, ?_, ?_, ?_⟩
    · rw [observe_eq, observe_eq, entries]
    · rw [observe_eq]
      exact fresh
    · exact fun k' listed _ => behind.before k' listed (small k' listed)
    · rw [paCount, paCount, wf'.size_dict, wf.size_dict, entries, length_append]
      rfl

/-- **A push appends, as long as the array was not given the largest integer as a key**: it adds an
entry behind all others under a new and greater key; and once the array was given the largest
integer, no push does. -/
theorem push_appends_iff (calls : List (ArrayCall cfg V × Memory)) {arrays : List (PArray V)}
    {given : List (List Int)} (ran : PArray.runRecorded truncate [] [] calls = some (arrays, given))
    {i : Nat} {a : PArray V} {keys : List Int} (at_i : arrays[i]? = some a) (given_i : given[i]? = some keys)
    (mem : Memory) (value : V) : ∃ ok a', a.paPush truncate mem value = some (ok, a') ∧
      (ok = true → ((∃ k, PArray.Appends keys a value a' k) ↔ ∀ k ∈ keys, k < cfg.intMax)) := by
  have start : Dict.Recorded cfg (([] : List (PArray V)).map PArray.dict) [] := ⟨rfl, fun i d keys on => by cases on⟩
  obtain ⟨wf, recorded⟩ := PArray.runRecorded_behind truncate calls (fun a listed => by cases listed) start ran
  have a_wf : a.Wf := wf a (mem_of_getElem? at_i)
  have on : (arrays.map PArray.dict)[i]? = some a.dict := by rw [getElem?_map, at_i]; rfl
  have behind : a.dict.Behind cfg keys := recorded.behind i a.dict keys on given_i
  obtain ⟨ok, a', pushed, wf', done, -⟩ := a_wf.paSet truncate mem (.int a.nextIndex : KeyValue cfg) value
  refine ⟨ok, a', pushed, fun succeeded => ?_⟩
  obtain ⟨key, refers, dict⟩ := done succeeded
  cases refers
  exact PArray.appends_iff a_wf wf' behind dict

end Runs

theorem new_array_push_appends :
    ∃ ok a', (PArray.blank : PArray Nat).paPush PArray.noFloatKeys granted 7 = some (ok, a') ∧ (ok = true →
        ((∃ k, PArray.Appends [] PArray.blank 7 a' k) ↔ ∀ k ∈ ([] : List Int), k < 2147483647)) :=
  have ran : PArray.runRecorded PArray.noFloatKeys [] [] [(.new 0, granted)] =
      some ([(PArray.blank : PArray Nat)], [[]]) := rfl
  have first : [(PArray.blank : PArray Nat)][0]? = some PArray.blank := rfl
  push_appends_iff PArray.noFloatKeys [(.new 0, granted)] ran first rfl granted 7

/-- A new array is given the key before the largest integer, and two values are pushed. -/
def pushTwice : List (ArrayCall PArray.integerBuild Nat × Memory) :=
  [(.new 0, granted), (.set 0 (.int 2147483646) 1, granted), (.push 0 2, granted)]

/-- The second push overwrites the first: the entry count stays as it was. -/
theorem push_overwrites : ¬ ∀ (arrays : List (PArray Nat)) (given : List (List Int)),
      PArray.runRecorded PArray.noFloatKeys [] [] pushTwice = some (arrays, given) →
      ∀ (i : Nat) (a : PArray Nat) (keys : List Int), arrays[i]? = some a → given[i]? = some keys →
        ∃ ok a', a.paPush PArray.noFloatKeys granted 3 = some (ok, a') ∧
          (ok = false ∨ ∃ k, PArray.Appends keys a 3 a' k) := by
  intro claim
  have counts : (PArray.runRecorded PArray.noFloatKeys [] [] pushTwice).map (fun r => (r.1.map fun a =>
      (a.paCount, (a.paPush PArray.noFloatKeys granted 3).map
        fun r => (r.1, r.2.paCount)), r.2.length)) = some ([(2, some (true, 2))], 1) := by decide +kernel
  obtain ⟨⟨arrays, given⟩, ran, counts⟩ := Option.map_eq_some_iff.mp counts
  obtain ⟨counts, records⟩ := Prod.mk.inj counts
  obtain ⟨a, rest, rfl, count, -⟩ := map_eq_cons_iff.mp counts
  obtain ⟨count, pushes⟩ := Prod.mk.inj count
  obtain ⟨ok, a', pushed, outcome⟩ := claim _ _ ran 0 a given[0] rfl (getElem?_eq_getElem _)
  rw [pushed] at pushes
  obtain ⟨succeeded, count'⟩ := Prod.mk.inj (Option.some.inj pushes)
  rcases outcome with failed | ⟨k, appends⟩
  · rw [failed] at succeeded
    cases succeeded
  · have counted := appends.counted
    change a'.paCount = 2 at count'
    omega

end PhpPico
