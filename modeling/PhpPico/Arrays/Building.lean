import PhpPico.Arrays.Sizes
import PhpPico.Arrays.Walk
import PhpPico.Parray.Pushes

/-!
# Building arrays

The functions of `arrays.c` add entries to a new array, under their keys or under the next index.
-/

namespace PhpPico
open List OrderedMap

section Arrays
variable {V : Type}

/-! ## Keys as they are in arrays -/

/-- A key `normalize_key` leaves as it is. -/
def Key.Canonical (cfg : Config) : Key → Prop
  | .int _ => True
  | .string s => numericStringKey cfg s.bytes = none

/-- A key as a value. -/
def Key.toValue (cfg : Config) : Key → KeyValue cfg
  | .int i => .int i
  | .string s => .string s

variable {cfg : Config} (truncate : BitVec cfg.floatWidth → Option Int)

theorem Key.Canonical.normalizeKey {key : Key} (h : key.Canonical cfg) (emptyKey : Bool) :
    normalizeKey cfg truncate emptyKey (key.toValue cfg) = some key := by
  cases key with
  | int i => rfl
  | string s =>
    have text : numericStringKey cfg s.bytes = none := h
    simp only [Key.toValue, PhpPico.normalizeKey, text]

theorem RefersTo.canonical {input : KeyValue cfg} {key : Key} (h : RefersTo cfg truncate input key) :
    key.Canonical cfg := by
  cases h with
  | null => rfl
  | isTrue => trivial
  | isFalse => trivial
  | int i => trivial
  | float enabled whole => trivial
  | number reads => trivial
  | @text s no_number =>
    cases value : numericStringKey cfg s.bytes with
    | none => exact value
    | some n =>
      obtain ⟨digits, reads⟩ := (numericStringKey_eq_some cfg s.bytes n).mp value
      exact absurd reads (no_number n digits)

/-- What holds of every map a program gets: its keys are distinct and canonical, and the next index is behind the
integers. -/
structure Dict.Lawful (cfg : Config) (d : Dict V) : Prop where
  distinct : (keys d.entries).Nodup
  canonical : ∀ key ∈ keys d.entries, key.Canonical cfg
  behind : ∃ given, d.Behind cfg given

namespace Dict.Lawful
variable {d : Dict V}

theorem empty : (Dict.empty : Dict V).Lawful cfg where
  distinct := nodup_nil
  canonical := fun _ listed => absurd listed not_mem_nil
  behind := ⟨[], Dict.behind_empty⟩

theorem set (h : d.Lawful cfg) {key : Key} (canonical : key.Canonical cfg) (value : V) :
    (d.set cfg key value).Lawful cfg := by
  have entries : (d.set cfg key value).entries = OrderedMap.set d.entries key value := by
    unfold Dict.set
    split <;> rfl
  refine ⟨?_, ?_, ?_⟩
  · rw [entries]
    exact nodup_set key value h.distinct
  · intro key' listed
    rw [entries, keys_set] at listed
    split at listed
    · exact h.canonical key' listed
    · rcases mem_append.mp listed with old | new
      · exact h.canonical key' old
      · rw [mem_singleton.mp new]
        exact canonical
  · obtain ⟨given, behind⟩ := h.behind
    cases key with
    | int k => exact ⟨_, behind.set_int k value⟩
    | string s => exact ⟨_, behind.set_string s value⟩

theorem erase (h : d.Lawful cfg) (key : Key) : (d.erase key).Lawful cfg where
  distinct := nodup_erase key h.distinct
  canonical := by
    intro key' listed
    have sublist : (keys (OrderedMap.erase d.entries key)).Sublist (keys d.entries) := List.Sublist.map _ filter_sublist
    exact h.canonical key' (sublist.subset listed)
  behind := h.behind.imp fun _ behind => behind.erase key

end Dict.Lawful

theorem Dict.Step.lawful {mem : Memory} {ds ds' : List (Dict V)} {c : ArrayCall cfg V} {answer : ArrayAnswer V}
    (step : Dict.Step truncate mem ds c answer ds') (h : ∀ d ∈ ds, d.Lawful cfg) : ∀ d ∈ ds', d.Lawful cfg := by
  have concat : ∀ {d' : Dict V}, d'.Lawful cfg → ∀ d ∈ ds ++ [d'], d.Lawful cfg := by
    intro d' lawful d listed
    rcases mem_append.mp listed with old | new
    · exact h d old
    · rw [mem_singleton.mp new]
      exact lawful
  have update : ∀ {i : Nat} {d' : Dict V}, d'.Lawful cfg → ∀ d ∈ ds.set i d', d.Lawful cfg := by
    intro i d' lawful d listed
    rcases mem_or_eq_of_mem_set listed with old | rfl
    · exact h d old
    · exact lawful
  cases step with
  | new hint => exact concat Dict.Lawful.empty
  | set value on refers =>
    exact update ((h _ (mem_of_getElem? on)).set (RefersTo.canonical truncate refers) value)
  | @push i d value on =>
    have canonical : (Key.int d.next).Canonical cfg := trivial
    exact update ((h _ (mem_of_getElem? on)).set canonical value)
  | remove on refers present => exact update ((h _ (mem_of_getElem? on)).erase _)
  | clone on => exact concat (h _ (mem_of_getElem? on))
  | new_failed | null | set_failed | push_failed | get | get_failed | remove_failed | clone_failed | iterate
    | count => exact h

theorem Dict.Run.lawful {ds ds' : List (Dict V)} {calls : List (ArrayCall cfg V × Memory)}
    {answers : List (ArrayAnswer V)} (run : Dict.Run truncate ds calls answers ds') (h : ∀ d ∈ ds, d.Lawful cfg) :
    ∀ d ∈ ds', d.Lawful cfg := by
  induction run with
  | done ds => exact h
  | step first others ih => exact ih (first.lawful truncate h)

/-- An array some program of array calls makes. -/
def PArray.Made (a : PArray V) : Prop :=
  ∃ (calls : List (ArrayCall cfg V × Memory)) (answers : List (ArrayAnswer V)) (arrays : List (PArray V)),
    PArray.run truncate [] calls = some (answers, arrays) ∧ a ∈ arrays

/-- What holds of every array a program makes. -/
structure PArray.Lawful (cfg : Config) (a : PArray V) : Prop where
  wf : a.Wf
  lawful : a.dict.Lawful cfg

variable {a : PArray V} {entries : List (Key × V)} {d : Dict V}

theorem PArray.Made.lawful (made : a.Made truncate) : a.Lawful cfg := by
  obtain ⟨calls, answers, arrays, ran, listed⟩ := made
  obtain ⟨answers', arrays', ran', wf, run⟩ :=
    PArray.run_refines truncate calls [] fun a none => absurd none not_mem_nil
  obtain ⟨rfl, rfl⟩ := Prod.mk.inj (Option.some.inj (ran.symm.trans ran'))
  exact ⟨wf a listed, run.lawful truncate (fun d none => absurd none not_mem_nil) _ (List.mem_map_of_mem listed)⟩

/-! ## One entry more -/

theorem PArray.Wf.paSet_fresh {key : Key} (h : a.Wf) (canonical : key.Canonical cfg)
    (fresh : key ∉ keys a.dict.entries) (mem : Memory) (value : V) :
    ∃ outcome, a.paSet truncate mem (key.toValue cfg) value = some outcome ∧ outcome.2.Wf ∧
      Grows (a.shape.add mem (key == .int a.used)) outcome ∧
      (outcome.1 = true → outcome.2.dict = a.dict.set cfg key value) := by
  obtain ⟨found, walk, -, present⟩ := h.findEntry key
  have absent : found = none := by
    cases found with
    | none => rfl
    | some p =>
      obtain ⟨old, cell⟩ := present p.1 p.2 rfl
      exact absurd (mem_keys_live.mpr ⟨p.1, old, cell⟩) fresh
  subst absent
  obtain ⟨outcome, added, adds⟩ := h.addKey value cfg mem fresh
  refine ⟨outcome, ?_, adds.wf, h.addKey_grows value cfg mem added, adds.done⟩
  unfold PArray.paSet
  rw [canonical.normalizeKey]
  simp only [walk]
  exact added

theorem PArray.Wf.paPush_fresh (h : a.Wf) (fresh : Key.int a.nextIndex ∉ keys a.dict.entries) (mem : Memory)
    (value : V) : ∃ outcome, a.paPush truncate mem value = some outcome ∧ outcome.2.Wf ∧
      Grows (a.shape.add mem (a.nextIndex == a.used)) outcome ∧
      (outcome.1 = true → outcome.2.dict = a.dict.set cfg (.int a.nextIndex) value) := by
  have canonical : (Key.int a.nextIndex).Canonical cfg := trivial
  have same : (Key.int a.nextIndex == Key.int a.used) = (a.nextIndex == (a.used : Int)) := by
    by_cases equal : a.nextIndex = a.used
    · rw [equal, beq_self_eq_true, beq_self_eq_true]
    · rw [beq_eq_false_iff_ne.mpr equal, beq_eq_false_iff_ne]
      exact fun keys => equal (Key.int.inj keys)
  rw [← same]
  exact h.paSet_fresh truncate canonical fresh mem value

/-! ## Many entries -/

/-- The key an entry gets: its own where that is `kept`, and otherwise the next index. -/
def Dict.target (d : Dict V) (kept : Key → Bool) (key : Key) : Key := if kept key then key else .int d.next

/-- Add an entry under its key or under the next index. -/
def Dict.put (cfg : Config) (kept : Key → Bool) (d : Dict V) (e : Key × V) : Dict V :=
  d.set cfg (d.target kept e.1) e.2

theorem Dict.Lawful.putAll {kept : Key → Bool} (h : d.Lawful cfg)
    (canonical : ∀ e ∈ entries, e.1.Canonical cfg) : (entries.foldl (Dict.put cfg kept) d).Lawful cfg := by
  induction entries generalizing d with
  | nil => exact h
  | cons e rest ih =>
    have target : (d.target kept e.1).Canonical cfg := by
      unfold Dict.target
      split
      · exact canonical e (.head _)
      · trivial
    exact ih (h.set target e.2) fun e' listed => canonical e' (.tail _ listed)

/-- Each of the entries gets a key that is canonical and new. -/
inductive Dict.Accepts (cfg : Config) (kept : Key → Bool) : Dict V → List (Key × V) → Prop
  | nil (d : Dict V) : Accepts cfg kept d []
  | cons {d : Dict V} {e : Key × V} {rest : List (Key × V)} (fresh : d.target kept e.1 ∉ keys d.entries)
      (canonical : (d.target kept e.1).Canonical cfg) (others : Accepts cfg kept (d.put cfg kept e) rest) :
      Accepts cfg kept d (e :: rest)

/-- The sizes once entries have been added, each with the memory it meets. -/
def Shape.addAll (cfg : Config) (kept : Key → Bool) : Dict V → Shape → List (Memory × Key × V) → Option Shape
  | _, s, [] => some s
  | d, s, (mem, e) :: rest =>
    (s.add mem (d.target kept e.1 == .int d.added)).bind fun s => addAll cfg kept (d.put cfg kept e) s rest

namespace PArray

/-- `pa_set` under the key of an entry, or `pa_push`. -/
def put (mem : Memory) (kept : Key → Bool) (a : PArray V) (e : Key × V) : Option (Bool × PArray V) :=
  if kept e.1 then a.paSet truncate mem (e.1.toValue cfg) e.2 else a.paPush truncate mem e.2

/-- Add entries until one cannot be added. -/
def putAll (kept : Key → Bool) : PArray V → List (Memory × Key × V) → Option (Bool × PArray V)
  | a, [] => some (true, a)
  | a, (mem, e) :: rest =>
    match a.put truncate mem kept e with
    | none => none
    | some (false, a) => some (false, a)
    | some (true, a) => putAll kept a rest

theorem Wf.put {a : PArray V} {kept : Key → Bool} {e : Key × V} (h : a.Wf)
    (fresh : a.dict.target kept e.1 ∉ keys a.dict.entries) (canonical : (a.dict.target kept e.1).Canonical cfg)
    (mem : Memory) : ∃ outcome, a.put truncate mem kept e = some outcome ∧ outcome.2.Wf ∧
      Grows (a.shape.add mem (a.dict.target kept e.1 == .int a.dict.added)) outcome ∧
      (outcome.1 = true → outcome.2.dict = a.dict.put cfg kept e) := by
  unfold PArray.put Dict.put
  unfold Dict.target at fresh canonical ⊢
  cases keeps : kept e.1 with
  | true =>
    rw [keeps, if_pos rfl] at fresh canonical
    exact h.paSet_fresh truncate canonical fresh mem e.2
  | false =>
    rw [keeps, if_neg Bool.false_ne_true] at fresh canonical
    exact h.paSet_fresh truncate canonical fresh mem e.2

/-- **All entries are added exactly when the sizes allow it.** -/
theorem Wf.putAll {a : PArray V} (h : a.Wf) (kept : Key → Bool) (list : List (Memory × Key × V))
    (accepts : a.dict.Accepts cfg kept (list.map Prod.snd)) :
    ∃ outcome, a.putAll truncate kept list = some outcome ∧ outcome.2.Wf ∧
      Grows (Shape.addAll cfg kept a.dict a.shape list) outcome ∧
      (outcome.1 = true → outcome.2.dict = (list.map Prod.snd).foldl (Dict.put cfg kept) a.dict) := by
  induction list generalizing a with
  | nil => exact ⟨(true, a), rfl, h, ⟨rfl, fun s same => Option.some.inj same⟩, fun _ => rfl⟩
  | cons first rest ih =>
    obtain ⟨mem, e⟩ := first
    cases accepts with
    | cons fresh canonical others =>
      obtain ⟨⟨ok, a'⟩, added, wf, grows, done⟩ := h.put truncate fresh canonical mem
      unfold PArray.putAll Shape.addAll
      rw [added]
      cases room : a.shape.add mem (a.dict.target kept e.1 == .int a.dict.added) with
      | none =>
        rw [room] at grows
        obtain rfl : ok = false := grows.status
        exact ⟨(false, a'), rfl, wf, ⟨rfl, fun s none => by cases none⟩, fun c => by cases c⟩
      | some s =>
        rw [room] at grows
        obtain rfl : ok = true := grows.status
        have dict : a'.dict = a.dict.put cfg kept e := done rfl
        have others' : a'.dict.Accepts cfg kept (rest.map Prod.snd) := dict ▸ others
        obtain ⟨outcome, all, wf', grows', done'⟩ := ih wf others'
        rw [dict, grows.shape s rfl] at grows'
        rw [dict] at done'
        exact ⟨outcome, all, wf', grows', done'⟩

theorem putAll_append (kept : Key → Bool) (list list' : List (Memory × Key × V)) (a : PArray V) :
    a.putAll truncate kept (list ++ list') = (a.putAll truncate kept list).bind fun outcome =>
        if outcome.1 then outcome.2.putAll truncate kept list' else some outcome := by
  induction list generalizing a with
  | nil => rfl
  | cons first rest ih =>
    obtain ⟨mem, e⟩ := first
    rw [cons_append, putAll, putAll]
    cases a.put truncate mem kept e with
    | none => rfl
    | some outcome =>
      obtain ⟨ok, a'⟩ := outcome
      cases ok with
      | false => rfl
      | true => exact ih a'

end PArray

/-! ## What is built -/

/-- Entries under keys of their own where these are `kept`, and otherwise numbered from `next` on. -/
def renumbered (kept : Key → Bool) : Int → List (Key × V) → List (Key × V)
  | _, [] => []
  | next, (key, value) :: rest =>
    if kept key then (key, value) :: renumbered kept next rest
    else (.int next, value) :: renumbered kept (next + 1) rest

/-- How many of the entries are numbered. -/
def numbered (kept : Key → Bool) (entries : List (Key × V)) : Nat := entries.countP fun e => !kept e.1

theorem renumbered_all (next : Int) (entries : List (Key × V)) : renumbered (fun _ => true) next entries = entries := by
  induction entries with
  | nil => rfl
  | cons e rest ih => rw [renumbered, if_pos rfl, ih]

theorem renumbered_append (kept : Key → Bool) (next : Int) (entries entries' : List (Key × V)) :
    renumbered kept next (entries ++ entries') =
      renumbered kept next entries ++ renumbered kept (next + numbered kept entries) entries' := by
  induction entries generalizing next with
  | nil =>
    have none_there : (numbered kept ([] : List (Key × V)) : Int) = 0 := rfl
    rw [nil_append, none_there, Int.add_zero]
    rfl
  | cons e rest ih =>
    obtain ⟨key, value⟩ := e
    rw [cons_append, renumbered, renumbered]
    unfold numbered at ih ⊢
    cases keeps : kept key with
    | true =>
      rw [if_pos rfl, if_pos rfl, ih, countP_cons_of_neg (by rw [keeps]; decide)]
      rfl
    | false =>
      have sum : ∀ n : Nat, next + ((n + 1 : Nat) : Int) = next + 1 + n := by
        intro n
        omega
      rw [if_neg Bool.false_ne_true, if_neg Bool.false_ne_true, ih, countP_cons_of_pos (by rw [keeps]; decide), sum]
      rfl

theorem length_renumbered (kept : Key → Bool) (next : Int) (entries : List (Key × V)) :
    (renumbered kept next entries).length = entries.length := by
  induction entries generalizing next with
  | nil => rfl
  | cons e rest ih =>
    rw [renumbered]
    split
    · rw [length_cons, length_cons, ih]
    · rw [length_cons, length_cons, ih]

theorem Dict.accepts_all (distinct : (keys entries).Nodup) (canonical : ∀ key ∈ keys entries, key.Canonical cfg)
    (apart : ∀ key ∈ keys entries, key ∉ keys d.entries) : d.Accepts cfg (fun _ => true) entries ∧
      (entries.foldl (Dict.put cfg fun _ => true) d).entries = d.entries ++ entries := by
  induction entries generalizing d with
  | nil => exact ⟨.nil d, (append_nil _).symm⟩
  | cons e rest ih =>
    rw [OrderedMap.keys_cons] at distinct canonical apart
    obtain ⟨new, distinct'⟩ := nodup_cons.mp distinct
    have fresh : e.1 ∉ keys d.entries := apart e.1 (.head _)
    have added : (d.put cfg (fun _ => true) e).entries = d.entries ++ [e] := Dict.set_fresh fresh e.2
    obtain ⟨others, built⟩ := ih (d := d.put cfg (fun _ => true) e) distinct'
      (fun key listed => canonical key (.tail _ listed)) (by
        intro key listed
        rw [added, OrderedMap.keys_append, mem_append]
        rintro (old | same)
        · exact apart key (.tail _ listed) old
        · rw [mem_singleton.mp same] at listed
          exact new listed)
    refine ⟨.cons fresh (canonical e.1 (.head _)) others, ?_⟩
    rw [foldl_cons, built, added, append_assoc]
    rfl

/-- No integer key has reached the next index, which is far from the largest integer. -/
structure Dict.Numbered (d : Dict V) (next : Int) : Prop where
  next_eq : d.next = next
  before : ∀ k, Key.int k ∈ keys d.entries → k < next

/-- The next index is free, and its entry comes behind the others. -/
theorem Dict.Numbered.push {next : Int} (h : d.Numbered next) (room : next < cfg.intMax) (value : V) :
    Key.int next ∉ keys d.entries ∧ (d.set cfg (.int next) value).entries = d.entries ++ [(Key.int next, value)] ∧
      (d.set cfg (.int next) value).Numbered (next + 1) ∧ (d.set cfg (.int next) value).added = d.added + 1 := by
  have fresh : Key.int next ∉ keys d.entries := fun old => Int.lt_irrefl _ (h.before next old)
  have added : (d.set cfg (.int next) value).entries = d.entries ++ [(Key.int next, value)] :=
    Dict.set_fresh fresh value
  have set : d.set cfg (.int next) value =
      ⟨OrderedMap.set d.entries (.int next) value, PArray.bumpIndex cfg d.next (.int next), d.added + 1⟩ := by
    rw [Dict.set, if_neg fresh]
  refine ⟨fresh, added, ⟨?_, fun k listed => ?_⟩, by rw [set]⟩
  · have bumped : PArray.bumpIndex cfg d.next (.int next) =
        if d.next ≤ next ∧ next < cfg.intMax then next + 1 else d.next := rfl
    rw [set]
    rw [bumped, h.next_eq, if_pos ⟨Int.le_refl _, room⟩]
  · rw [added, OrderedMap.keys_append, mem_append] at listed
    rcases listed with old | last
    · have := h.before k old
      omega
    · have same := Key.int.inj (mem_singleton.mp last)
      omega

/-- A key that is kept is a string. -/
def OnlyStrings (kept : Key → Bool) : Prop := ∀ i, kept (.int i) = false

theorem Dict.accepts_renumbered {kept : Key → Bool} (strings : OnlyStrings kept) {next : Int}
    (h : d.Numbered next) (distinct : ((keys entries).filter kept).Nodup)
    (canonical : ∀ key ∈ keys entries, key.Canonical cfg)
    (apart : ∀ s, Key.string s ∈ keys entries → kept (.string s) = true → Key.string s ∉ keys d.entries)
    (room : next + entries.length < cfg.intMax) : d.Accepts cfg kept entries ∧
      (entries.foldl (Dict.put cfg kept) d).entries = d.entries ++ renumbered kept next entries ∧
      (entries.foldl (Dict.put cfg kept) d).Numbered (next + numbered kept entries) := by
  induction entries generalizing d next with
  | nil =>
    refine ⟨.nil d, (append_nil _).symm, ?_⟩
    have none_there : (numbered kept ([] : List (Key × V)) : Int) = 0 := rfl
    rw [none_there, Int.add_zero]
    exact h
  | cons e rest ih =>
    obtain ⟨key, value⟩ := e
    rw [OrderedMap.keys_cons] at distinct canonical apart
    rw [length_cons] at room
    have canonical' : ∀ key' ∈ keys rest, key'.Canonical cfg := fun key' listed => canonical key' (.tail _ listed)
    cases keeps : kept key with
    | true =>
      rw [filter_cons_of_pos keeps] at distinct
      obtain ⟨new, distinct'⟩ := nodup_cons.mp distinct
      obtain ⟨s, rfl⟩ : ∃ s, key = .string s := by
        cases key with
        | int i =>
          rw [strings i] at keeps
          cases keeps
        | string s => exact ⟨s, rfl⟩
      have target : d.target kept (.string s) = .string s := by rw [Dict.target, if_pos keeps]
      have fresh : Key.string s ∉ keys d.entries := apart s (.head _) keeps
      have put : d.put cfg kept (.string s, value) = d.set cfg (.string s) value := by rw [Dict.put, target]
      have added : (d.set cfg (.string s) value).entries = d.entries ++ [(Key.string s, value)] :=
        Dict.set_fresh fresh value
      have same : (d.set cfg (.string s) value).next = d.next := by
        rw [Dict.set, if_neg fresh]
        rfl
      have h' : (d.set cfg (.string s) value).Numbered next := by
        refine ⟨same.trans h.next_eq, fun k listed => ?_⟩
        rw [added, OrderedMap.keys_append, mem_append] at listed
        rcases listed with old | other
        · exact h.before k old
        · cases mem_singleton.mp other
      obtain ⟨others, built, numbers⟩ := ih h' distinct' canonical' (by
        intro s' listed kept'
        rw [added, OrderedMap.keys_append, mem_append]
        rintro (old | equal)
        · exact apart s' (.tail _ listed) kept' old
        · rw [mem_singleton.mp equal] at listed
          exact new (mem_filter.mpr ⟨listed, keeps⟩)) (by omega)
      have counted : numbered kept ((.string s, value) :: rest) = numbered kept rest := by
        unfold numbered
        rw [countP_cons_of_neg (by rw [keeps]; decide)]
      refine ⟨.cons ?_ ?_ (put ▸ others), ?_, ?_⟩
      · rw [target]
        exact fresh
      · rw [target]
        exact canonical _ (.head _)
      · rw [foldl_cons, put, built, added, renumbered, if_pos keeps, append_assoc]
        rfl
      · rw [foldl_cons, put, counted]
        exact numbers
    | false =>
      rw [filter_cons_of_neg (by rw [keeps]; exact Bool.false_ne_true)] at distinct
      have target : d.target kept key = .int next := by rw [Dict.target, keeps, h.next_eq]; rfl
      have put : d.put cfg kept (key, value) = d.set cfg (.int next) value := by rw [Dict.put, target]
      obtain ⟨fresh, added, h', -⟩ := Dict.Numbered.push h (by omega : next < cfg.intMax) value
      obtain ⟨others, built, numbers⟩ := ih h' distinct canonical' (by
        intro s' listed kept'
        rw [added, OrderedMap.keys_append, mem_append]
        rintro (old | equal)
        · exact apart s' (.tail _ listed) kept' old
        · cases mem_singleton.mp equal) (by omega)
      have counted : numbered kept ((key, value) :: rest) = numbered kept rest + 1 := by
        unfold numbered
        rw [countP_cons_of_pos (by rw [keeps]; decide)]
      refine ⟨.cons ?_ ?_ (put ▸ others), ?_, ?_⟩
      · rw [target]
        exact fresh
      · rw [target]
        trivial
      · rw [foldl_cons, put, built, added, renumbered, keeps, append_assoc]
        rfl
      · rw [foldl_cons, put, counted]
        have sum : next + ((numbered kept rest + 1 : Nat) : Int) = next + 1 + numbered kept rest := by omega
        rw [sum]
        exact numbers

theorem Dict.numbered_empty : (Dict.empty : Dict V).Numbered 0 where
  next_eq := rfl
  before := fun _ listed => absurd listed not_mem_nil

end Arrays

end PhpPico
