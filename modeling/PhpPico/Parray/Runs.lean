import PhpPico.Parray.Refine

/-!
# Programs of array calls

A program creates arrays, clones them and calls the functions of `parray.c` on them in any order, and any allocation
may fail. Its answers are those of insertion-ordered maps.
-/

namespace PhpPico
open List Option OrderedMap

/-- A call on an array; arrays are named in the order they were made. -/
inductive ArrayCall (cfg : Config) (V : Type) where
  | new (capacityHint : Nat)
  | set (array : Nat) (key : KeyValue cfg) (value : V)
  | push (array : Nat) (value : V)
  | get (array : Nat) (key : KeyValue cfg)
  | remove (array : Nat) (key : KeyValue cfg)
  | clone (array : Nat)
  | iterate (array : Nat)
  | count (array : Nat)

/-- The array a call is on, if there is one. -/
def ArrayCall.array? {cfg : Config} {V : Type} : ArrayCall cfg V → Option Nat
  | .new _ => none
  | .set i _ _ | .push i _ | .get i _ | .remove i _ | .clone i | .iterate i | .count i => some i

inductive ArrayAnswer (V : Type) where
  | status (ok : Bool)
  | found (value : Option V)
  | entries (list : List (Key × V))
  | count (n : Nat)

section Runs
variable {cfg : Config} {V : Type} (truncate : BitVec cfg.floatWidth → Option Int)

/-- A call on an array that exists. -/
def PArray.answer (mem : Memory) (arrays : List (PArray V)) (i : Nat) (a : PArray V) :
    ArrayCall cfg V → Option (ArrayAnswer V × List (PArray V))
  | .new _ => none
  | .set _ key value => (a.paSet truncate mem key value).map fun r => (.status r.1, arrays.set i r.2)
  | .push _ value => (a.paPush truncate mem value).map fun r => (.status r.1, arrays.set i r.2)
  | .get _ key => (a.paGet truncate mem key).map fun r => (.found r, arrays)
  | .remove _ key => (a.paRemove truncate mem key).map fun r => (.status r.1, arrays.set i r.2)
  | .clone _ =>
    match a.paClone mem with
    | none => some (.status false, arrays)
    | some copy => some (.status true, arrays ++ [copy])
  | .iterate _ => some (.entries a.observe, arrays)
  | .count _ => some (.count a.paCount, arrays)

/-- A call: its answer and the arrays afterwards, or nothing when it never returns. All functions
refuse a null pointer. -/
def PArray.call (mem : Memory) (arrays : List (PArray V)) (c : ArrayCall cfg V) :
    Option (ArrayAnswer V × List (PArray V)) :=
  match c with
  | .new capacityHint =>
    match paNew mem capacityHint with
    | none => some (.status false, arrays)
    | some a => some (.status true, arrays ++ [a])
  | c =>
    match c.array? with
    | none => none
    | some i =>
      match arrays[i]? with
      | none => some (.status false, arrays)
      | some a => answer truncate mem arrays i a c

/-- A sequence of calls, each with the allocations that succeed in it. -/
def PArray.run (arrays : List (PArray V)) :
    List (ArrayCall cfg V × Memory) → Option (List (ArrayAnswer V) × List (PArray V))
  | [] => some ([], arrays)
  | (c, mem) :: rest =>
    match call truncate mem arrays c with
    | none => none
    | some (answer, arrays) => (run arrays rest).map fun r => (answer :: r.1, r.2)

/-- What the same call answers and does on insertion-ordered maps. A call may fail for the reasons
given, and then changes nothing. -/
inductive Dict.Step (mem : Memory) (ds : List (Dict V)) : ArrayCall cfg V → ArrayAnswer V → List (Dict V) → Prop
  | new (hint : Nat) : Step mem ds (.new hint) (.status true) (ds ++ [Dict.empty])
  | new_failed {hint : Nat} (lack : (∃ site, mem site = false) ∨ 65535 < hint) :
      Step mem ds (.new hint) (.status false) ds
  | null {c : ArrayCall cfg V} {i : Nat} (on : c.array? = some i) (missing : ds[i]? = none) :
      Step mem ds c (.status false) ds
  | set {i : Nat} {d : Dict V} {input : KeyValue cfg} {key : Key} (value : V) (on : ds[i]? = some d)
      (refers : RefersTo cfg truncate input key) :
      Step mem ds (.set i input value) (.status true) (ds.set i (d.set cfg key value))
  | set_failed {i : Nat} {d : Dict V} {input : KeyValue cfg} (value : V) (on : ds[i]? = some d)
      (lack : (∀ key, ¬ RefersTo cfg truncate input key) ∨ PArray.Limited mem d) :
      Step mem ds (.set i input value) (.status false) ds
  | push {i : Nat} {d : Dict V} (value : V) (on : ds[i]? = some d) :
      Step mem ds (.push i value) (.status true) (ds.set i (d.set cfg (.int d.next) value))
  | push_failed {i : Nat} {d : Dict V} (value : V) (on : ds[i]? = some d)
      (lack : PArray.Limited mem d) : Step mem ds (.push i value) (.status false) ds
  | get {i : Nat} {d : Dict V} {input : KeyValue cfg} {key : Key} (on : ds[i]? = some d)
      (refers : RefersTo cfg truncate input key) :
      Step mem ds (.get i input) (.found (d.get key)) ds
  | get_failed {i : Nat} {d : Dict V} {input : KeyValue cfg} (on : ds[i]? = some d)
      (lack : (∀ key, ¬ RefersTo cfg truncate input key) ∨ mem .emptyKey = false) :
      Step mem ds (.get i input) (.found none) ds
  | remove {i : Nat} {d : Dict V} {input : KeyValue cfg} {key : Key} (on : ds[i]? = some d)
      (refers : RefersTo cfg truncate input key) (present : key ∈ keys d.entries) :
      Step mem ds (.remove i input) (.status true) (ds.set i (d.erase key))
  | remove_failed {i : Nat} {d : Dict V} {input : KeyValue cfg} (on : ds[i]? = some d)
      (lack : (∀ key, RefersTo cfg truncate input key → key ∉ keys d.entries) ∨ PArray.Limited mem d) :
      Step mem ds (.remove i input) (.status false) ds
  | clone {i : Nat} {d : Dict V} (on : ds[i]? = some d) : Step mem ds (.clone i) (.status true) (ds ++ [d])
  | clone_failed {i : Nat} {d : Dict V} (on : ds[i]? = some d) (lack : ∃ site, mem site = false) :
      Step mem ds (.clone i) (.status false) ds
  | iterate {i : Nat} {d : Dict V} (on : ds[i]? = some d) : Step mem ds (.iterate i) (.entries d.entries) ds
  | count {i : Nat} {d : Dict V} (on : ds[i]? = some d) : Step mem ds (.count i) (.count d.entries.length) ds

/-- A sequence of calls on insertion-ordered maps. -/
inductive Dict.Run : List (Dict V) → List (ArrayCall cfg V × Memory) → List (ArrayAnswer V) → List (Dict V) → Prop
  | done (ds : List (Dict V)) : Run ds [] [] ds
  | step {ds ds' ds'' : List (Dict V)} {c : ArrayCall cfg V} {mem : Memory} {answer : ArrayAnswer V}
      {rest : List (ArrayCall cfg V × Memory)} {answers : List (ArrayAnswer V)}
      (first : Dict.Step truncate mem ds c answer ds') (others : Run ds' rest answers ds'') :
      Run ds ((c, mem) :: rest) (answer :: answers) ds''

/-! ## The refinement -/

section Arrays
variable {arrays : List (PArray V)} {i : Nat} {a a' : PArray V}

theorem PArray.wf_set (wf : ∀ b ∈ arrays, b.Wf) (wf' : a'.Wf) : ∀ b ∈ arrays.set i a', b.Wf := by
  intro b hb
  rcases mem_or_eq_of_mem_set hb with old | rfl
  · exact wf b old
  · exact wf'

theorem PArray.wf_concat (wf : ∀ b ∈ arrays, b.Wf) (wf' : a'.Wf) : ∀ b ∈ arrays ++ [a'], b.Wf := by
  intro b hb
  rcases mem_append.mp hb with old | new
  · exact wf b old
  · rw [mem_singleton.mp new]; exact wf'

theorem PArray.dict_set_same (on : arrays[i]? = some a) (same : a'.dict = a.dict) :
    (arrays.set i a').map PArray.dict = arrays.map PArray.dict := by
  obtain ⟨hi, e⟩ := List.getElem?_eq_some_iff.mp on
  have within : i < (arrays.map PArray.dict).length := by rwa [length_map]
  have at_i : a'.dict = (arrays.map PArray.dict)[i] := by rw [same, ← e, getElem_map]
  rw [map_set, at_i]
  exact set_getElem_self _

theorem PArray.answer_step (mem : Memory) (wf : ∀ b ∈ arrays, b.Wf) (on : arrays[i]? = some a)
    (c : ArrayCall cfg V) (is_on : c.array? = some i) :
    ∃ answer arrays', PArray.answer truncate mem arrays i a c = some (answer, arrays') ∧ (∀ b ∈ arrays', b.Wf) ∧
      Dict.Step truncate mem (arrays.map dict) c answer (arrays'.map dict) := by
  have h : a.Wf := wf a (mem_of_getElem? on)
  have on' : (arrays.map dict)[i]? = some a.dict := by rw [getElem?_map, on]; rfl
  cases c with
  | new hint => cases is_on
  | set j input value =>
    cases is_on
    obtain ⟨ok, a', e, wf', done, failed⟩ := h.paSet truncate mem input value
    simp only [PArray.answer, e, map_some]
    refine ⟨_, _, rfl, wf_set wf wf', ?_⟩
    cases ok with
    | true =>
      obtain ⟨key, refers, dict⟩ := done rfl
      rw [map_set, dict]
      exact .set value on' refers
    | false =>
      obtain ⟨same, lack⟩ := failed rfl
      rw [dict_set_same on same]
      exact .set_failed value on' lack
  | push j value =>
    cases is_on
    obtain ⟨ok, a', e, wf', done, failed⟩ := h.paSet truncate mem (.int a.nextIndex : KeyValue cfg) value
    simp only [PArray.answer, PArray.paPush, e, map_some]
    refine ⟨_, _, rfl, wf_set wf wf', ?_⟩
    cases ok with
    | true =>
      obtain ⟨key, refers, dict⟩ := done rfl
      cases refers
      rw [map_set, dict]
      exact .push value on'
    | false =>
      obtain ⟨same, lack⟩ := failed rfl
      rw [dict_set_same on same]
      rcases lack with no_key | lack
      · exact absurd (.int a.nextIndex) (no_key _)
      · exact .push_failed value on' lack
  | get j input =>
    cases is_on
    obtain ⟨answer, e, found, missing⟩ := h.paGet truncate mem input
    simp only [PArray.answer, e, map_some]
    refine ⟨_, _, rfl, wf, ?_⟩
    cases answer with
    | some value =>
      obtain ⟨key, refers, got⟩ := found value rfl
      rw [← got]
      exact .get on' refers
    | none =>
      rcases missing rfl with absent | refused
      · by_cases is_key : ∃ key, RefersTo cfg truncate input key
        · obtain ⟨key, refers⟩ := is_key
          rw [← absent key refers]
          exact .get on' refers
        · exact .get_failed on' (.inl fun key refers => is_key ⟨key, refers⟩)
      · exact .get_failed on' (.inr refused)
  | remove j input =>
    cases is_on
    obtain ⟨ok, a', e, wf', done, failed⟩ := h.paRemove truncate mem input
    simp only [PArray.answer, e, map_some]
    refine ⟨_, _, rfl, wf_set wf wf', ?_⟩
    cases ok with
    | true =>
      obtain ⟨key, refers, present, dict⟩ := done rfl
      rw [map_set, dict]
      exact .remove on' refers present
    | false =>
      obtain ⟨same, lack⟩ := failed rfl
      rw [dict_set_same on same]
      exact .remove_failed on' lack
  | clone j =>
    cases is_on
    simp only [PArray.answer]
    cases e : a.paClone mem with
    | none => exact ⟨_, _, rfl, wf, .clone_failed on' (h.paClone_eq_none e)⟩
    | some copy =>
      obtain ⟨wf', same⟩ := h.paClone e
      refine ⟨_, _, rfl, wf_concat wf wf', ?_⟩
      rw [map_append, map_singleton, same]
      exact .clone on'
  | iterate j =>
    cases is_on
    refine ⟨_, _, rfl, wf, ?_⟩
    rw [a.observe_eq]
    exact .iterate on'
  | count j =>
    cases is_on
    refine ⟨_, _, rfl, wf, ?_⟩
    rw [paCount, h.size_dict]
    exact .count on'

/-- One call keeps the invariant of every array and answers as the maps do. -/
theorem PArray.call_step (mem : Memory) (wf : ∀ b ∈ arrays, b.Wf) (c : ArrayCall cfg V) :
    ∃ answer arrays', call truncate mem arrays c = some (answer, arrays') ∧ (∀ b ∈ arrays', b.Wf) ∧
      Dict.Step truncate mem (arrays.map dict) c answer (arrays'.map dict) := by
  by_cases is_new : ∃ hint, c = .new hint
  · obtain ⟨hint, rfl⟩ := is_new
    rw [call]
    cases e : (paNew mem hint : Option (PArray V)) with
    | none => exact ⟨_, _, rfl, wf, .new_failed (paNew_eq_none e)⟩
    | some a =>
      obtain ⟨wf', dict, -⟩ := paNew_eq_some e
      refine ⟨_, _, rfl, wf_concat wf wf', ?_⟩
      rw [map_append, map_singleton, dict]
      exact .new hint
  · have is_on : ∃ i, c.array? = some i := by
      cases c with
      | new hint => exact absurd ⟨hint, rfl⟩ is_new
      | set i | push i | get i | remove i | clone i | iterate i | count i => exact ⟨i, rfl⟩
    obtain ⟨i, is_on⟩ := is_on
    have unfolded : call truncate mem arrays c =
        match arrays[i]? with
        | none => some (.status false, arrays)
        | some a => PArray.answer truncate mem arrays i a c := by
      cases c with
      | new hint => cases is_on
      | set | push | get | remove | clone | iterate | count => cases is_on; rfl
    rw [unfolded]
    cases on : arrays[i]? with
    | none =>
      exact ⟨_, _, rfl, wf, .null is_on (by rw [getElem?_map, on]; rfl)⟩
    | some a => exact answer_step truncate mem wf on c is_on

end Arrays

/-- A run keeps the invariant and answers as the maps do, from any well-formed arrays. -/
theorem PArray.run_refines (calls : List (ArrayCall cfg V × Memory)) (arrays : List (PArray V))
    (wf : ∀ a ∈ arrays, a.Wf) : ∃ answers arrays', run truncate arrays calls = some (answers, arrays') ∧
      (∀ a ∈ arrays', a.Wf) ∧ Dict.Run truncate (arrays.map dict) calls answers (arrays'.map dict) := by
  induction calls generalizing arrays with
  | nil => exact ⟨[], arrays, rfl, wf, .done _⟩
  | cons first rest ih =>
    obtain ⟨c, mem⟩ := first
    obtain ⟨answer, between, e, wf', step⟩ := call_step truncate mem wf c
    obtain ⟨answers, final, e', wf'', others⟩ := ih between wf'
    refine ⟨answer :: answers, final, ?_, wf'', .step step others⟩
    simp only [run, e, e', map_some]

/-- **Arrays refine insertion-ordered maps**: every sequence of calls returns, whichever allocations fail; its answers
are those of the maps; and at the end (any moment) every array shows the entries of its map in order, under distinct
keys, counts them, and pushes at the same next index. -/
theorem arrays_refine_ordered_maps (calls : List (ArrayCall cfg V × Memory)) :
    ∃ answers arrays, PArray.run truncate [] calls = some (answers, arrays) ∧
      ∃ ds, Dict.Run truncate [] calls answers ds ∧ ds.length = arrays.length ∧
        ∀ (i : Nat) (a : PArray V) (d : Dict V), arrays[i]? = some a → ds[i]? = some d →
          a.observe = d.entries ∧ a.paCount = d.entries.length ∧ a.nextIndex = d.next ∧ (keys d.entries).Nodup := by
  obtain ⟨answers, arrays, e, wf, run⟩ := PArray.run_refines truncate calls [] fun a ha => by cases ha
  refine ⟨answers, arrays, e, arrays.map PArray.dict, run, length_map _, ?_⟩
  intro i a d at_a at_d
  rw [getElem?_map, at_a] at at_d
  cases at_d
  have h := wf a (mem_of_getElem? at_a)
  exact ⟨a.observe_eq, h.size_dict, rfl, h.distinct⟩

end Runs
end PhpPico
