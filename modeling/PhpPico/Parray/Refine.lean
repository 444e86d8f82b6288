import PhpPico.Parray.Chains

/-!
# Arrays are insertion-ordered maps

The abstract array is a list of entries with distinct keys, oldest first, and the next index. Each function of
`parray.c` keeps the representation invariant and does what its name says, or fails and changes nothing.
-/

namespace PhpPico
open List Chain OrderedMap

/-! ## The abstract array -/

/-- An insertion-ordered map with the index the next push uses, and the number of entries ever
added to it. -/
structure Dict (V : Type) where
  entries : List (Key × V)
  next : Int
  added : Nat

namespace Dict
variable {V : Type}

def empty : Dict V := ⟨[], 0, 0⟩

/-- Give a key a value. -/
def set (cfg : Config) (d : Dict V) (key : Key) (value : V) : Dict V :=
  if key ∈ keys d.entries then { d with entries := OrderedMap.set d.entries key value }
  else ⟨OrderedMap.set d.entries key value, PArray.bumpIndex cfg d.next key, d.added + 1⟩

def erase (d : Dict V) (key : Key) : Dict V := { d with entries := OrderedMap.erase d.entries key }

def get (d : Dict V) (key : Key) : Option V := d.entries.lookup key

end Dict

namespace PArray
variable {V : Type}

/-- What an array stands for. -/
def dict (a : PArray V) : Dict V := ⟨live a.cells, a.nextIndex, a.used⟩

/-! ## Iteration -/

theorem firstLive_eq (entries : List (PEntry V)) (position : Nat) :
    match firstLive entries position with
    | none => live (entries.map PEntry.cell) = []
    | some (key, value, following) => ∃ d, d < entries.length ∧ following = position + d + 1 ∧
        live (entries.map PEntry.cell) = (key, value) :: live ((entries.drop (d + 1)).map PEntry.cell) := by
  induction entries generalizing position with
  | nil => simp [firstLive]
  | cons e rest ih =>
    obtain ⟨cell, link⟩ := e
    cases cell with
    | some kv =>
      simp only [firstLive]
      exact ⟨0, Nat.succ_pos _, rfl, by rw [map_cons, live, reduceOption_cons_of_some]; rfl⟩
    | none =>
      simp only [firstLive]
      have rest_eq : live ((⟨none, link⟩ :: rest : List (PEntry V)).map PEntry.cell) =
          live (rest.map PEntry.cell) := by
        rw [map_cons, live, reduceOption_cons_of_none]
      have step := ih (position + 1)
      cases found : firstLive rest (position + 1) with
      | none => rw [found] at step; exact rest_eq.trans step
      | some r =>
        rw [found] at step
        obtain ⟨d, lt, following, e⟩ := step
        exact ⟨d + 1, by simpa using lt, by rw [following]; omega, rest_eq.trans e⟩

theorem iterate_eq (a : PArray V) (calls position : Nat) (le : position ≤ a.used) (enough : a.used - position < calls) :
    a.iterate calls position = live ((a.entries.drop position).map PEntry.cell) := by
  induction calls generalizing position with
  | zero => omega
  | succ calls ih =>
    have step := firstLive_eq (a.entries.drop position) position
    rw [iterate, paEntryAt]
    cases found : firstLive (a.entries.drop position) position with
    | none => rw [found] at step; exact step.symm
    | some r =>
      obtain ⟨key, value, following⟩ := r
      rw [found] at step
      obtain ⟨d, lt, e, content⟩ := step
      rw [length_drop] at lt
      have used : a.used = a.entries.length := rfl
      subst e
      rw [content, drop_drop]
      show (key, value) :: a.iterate calls (position + d + 1) = _
      rw [ih _ (by omega) (by omega)]
      rfl

/-- **An iteration shows the abstract array.** -/
theorem observe_eq (a : PArray V) : a.observe = a.dict.entries := by
  rw [observe, iterate_eq a _ 0 (Nat.zero_le _) (by omega), drop_zero]
  rfl

/-! ## Each function -/

theorem blank_wf : (blank : PArray V).Wf where
  size_eq := rfl
  used_le := le_rfl
  capacity_le := Nat.zero_le _
  buckets_le := Nat.zero_le _
  distinct := nodup_nil
  packed_keys _ i hi := absurd hi (Nat.not_lt_zero i)
  threaded h := by cases h

variable {a a' : PArray V} {granted : Bool} {mem : Memory} {key : Key} (cfg : Config)

theorem Wf.ensureEntries {minimum : Nat} (h : a.Wf) (e : a.ensureEntries minimum granted = some a') :
    a'.Wf ∧ a'.dict = a.dict ∧ a'.packed = a.packed ∧ minimum ≤ a'.capacity := by
  obtain ⟨capacity, rfl, grows, room, le⟩ := ensureEntries_eq_some h.capacity_le e
  exact ⟨⟨h.size_eq, h.used_le.trans grows, le, h.buckets_le, h.distinct, h.packed_keys, h.threaded⟩, rfl, rfl, room⟩

theorem Wf.rehash {bucketCount : Nat} (h : a.Wf) (e : a.rehash bucketCount granted = some a') :
    a'.Wf ∧ a'.dict = a.dict ∧ a'.packed = false := by
  have le : a.used ≤ 65535 := h.used_le.trans h.capacity_le
  obtain ⟨packed, size, capacity, next, cells, pos, buckets_le, chains, threaded⟩ := rehash_eq_some le e
  have used : a'.used = a.used := by rw [← length_cells, cells, length_cells]
  refine ⟨⟨?_, ?_, ?_, buckets_le, ?_, fun c => ?_, fun _ => ⟨pos, chains, threaded⟩⟩, ?_, packed⟩
  · rw [size, cells]; exact h.size_eq
  · rw [used, capacity]; exact h.used_le
  · rw [capacity]; exact h.capacity_le
  · rw [cells]; exact h.distinct
  · rw [packed] at c; cases c
  · rw [dict, dict, cells, next, used]

theorem Wf.promoteHash (h : a.Wf)
    (e : a.promoteHash granted = some a') : a'.Wf ∧ a'.dict = a.dict ∧ a'.packed = false :=
  h.rehash e

/-- Below 16385 elements only memory can be missing for a promotion. -/
theorem promoteHash_eq_none (small : a.size ≤ 16384) (e : a.promoteHash granted = none) : granted = false := by
  have := promotedBuckets_le a.size 16 8 (.inl le_rfl)
  exact rehash_eq_none (by omega) e

theorem paNew_eq_some {hint : Nat} (e : paNew mem hint = some a) : a.Wf ∧ a.dict = Dict.empty ∧ hint ≤ a.capacity := by
  unfold paNew at e
  split at e
  · split at e
    · obtain ⟨wf, dict, -, room⟩ := blank_wf.ensureEntries e
      exact ⟨wf, dict, room⟩
    · next zero =>
      cases e
      have hint_zero : hint = 0 := not_not.mp zero
      exact ⟨blank_wf, rfl, by rw [hint_zero]; exact Nat.zero_le _⟩
  · cases e

theorem paNew_eq_none {hint : Nat} (e : (paNew mem hint : Option (PArray V)) = none) :
    (∃ site, mem site = false) ∨ 65535 < hint := by
  unfold paNew at e
  cases header : mem .header with
  | false => exact .inl ⟨.header, header⟩
  | true =>
    rw [header, if_pos rfl] at e
    split at e
    · by_contra enough
      obtain ⟨granted, small⟩ := not_or.mp enough
      have entries : mem .entries = true := by
        cases c : mem .entries with
        | true => rfl
        | false => exact absurd ⟨.entries, c⟩ granted
      have fits : ¬ 65535 < grownCapacity 0 hint := by
        simp only [grownCapacity, if_true]
        split <;> omega
      simp only [ensureEntries, blank, entries, if_true, if_neg fits] at e
      split at e <;> cases e
    · cases e

theorem Wf.paClone_eq_none (h : a.Wf) (e : paClone mem a = none) : ∃ site, mem site = false := by
  unfold PArray.paClone at e
  cases fresh : (paNew mem a.capacity : Option (PArray V)) with
  | none =>
    rcases paNew_eq_none fresh with refused | large
    · exact refused
    · exact absurd h.capacity_le (by omega)
  | some blank =>
    rw [fresh] at e
    cases packed : a.packed with
    | true => simp only [packed, if_true] at e; cases e
    | false =>
      simp only [packed, Bool.false_eq_true, if_false] at e
      exact ⟨.buckets, rehash_eq_none h.buckets_le e⟩

theorem Wf.paClone {copy : PArray V} (h : a.Wf) (e : paClone mem a = some copy) : copy.Wf ∧ copy.dict = a.dict := by
  unfold PArray.paClone at e
  cases fresh : (paNew mem a.capacity : Option (PArray V)) with
  | none => rw [fresh] at e; cases e
  | some blank =>
    rw [fresh] at e
    obtain ⟨wf, -, room⟩ := paNew_eq_some fresh
    cases packed : a.packed with
    | true =>
      simp only [packed, if_true] at e
      cases e
      exact ⟨⟨h.size_eq, h.used_le.trans room, wf.capacity_le, wf.buckets_le, h.distinct,
        fun _ => h.packed_keys packed, fun c => by cases c⟩, rfl⟩
    | false =>
      simp only [packed, Bool.false_eq_true, if_false] at e
      -- the copy has no buckets yet; only the other fields matter to the rehash
      obtain ⟨packed', size, capacity, next, cells, pos, buckets_le, chains, threaded⟩ :=
        rehash_eq_some (by exact h.used_le.trans h.capacity_le) e
      have used : copy.used = a.used := by rw [← length_cells, cells]; exact length_cells a
      refine ⟨⟨?_, ?_, ?_, buckets_le, ?_, fun c => ?_, fun _ => ⟨pos, chains, threaded⟩⟩, ?_⟩
      · rw [size, cells]; exact h.size_eq
      · rw [used, capacity]; exact h.used_le.trans room
      · rw [capacity]; exact wf.capacity_le
      · rw [cells]; exact h.distinct
      · rw [packed'] at c; cases c
      · rw [dict, dict, cells, next, used]; rfl

theorem Threaded.congr {entries entries' : List (PEntry V)} {buckets : List Nat}
    {chains : Nat → List Nat} {upTo : Nat} (h : Threaded entries buckets chains upTo)
    (links : ∀ i, next entries' i = next entries i)
    (same : ∀ (i : Nat) (key : Key), (∃ value, (entries'.map PEntry.cell)[i]? = some (some (key, value))) ↔
      ∃ value, (entries.map PEntry.cell)[i]? = some (some (key, value))) : Threaded entries' buckets chains upTo := by
  refine ⟨fun b hb => (h.linked b hb).congr fun i _ => links i, h.nodup, fun b hb i => ?_⟩
  rw [h.mem b hb i]
  constructor
  · rintro ⟨lt, key, value, cell, own⟩
    obtain ⟨value', cell'⟩ := (same i key).mpr ⟨value, cell⟩
    exact ⟨lt, key, value', cell', own⟩
  · rintro ⟨lt, key, value, cell, own⟩
    obtain ⟨value', cell'⟩ := (same i key).mp ⟨value, cell⟩
    exact ⟨lt, key, value', cell', own⟩

theorem setValue_cells {index : Nat} {old : V} (value : V) (cell : a.cells[index]? = some (some (key, old))) :
    (a.setValue index value).cells = a.cells.set index (some (key, value)) := by
  refine ext_getElem? fun i => ?_
  simp only [setValue, cells, getElem?_map, getElem?_modify, getElem?_set, length_map] at cell ⊢
  by_cases here : index = i
  · subst here
    have lt := lt_used_of_cell (a := a) (by simpa only [cells, getElem?_map] using cell)
    have lt' : index < a.entries.length := lt
    simp only [if_true, lt']
    rw [getElem?_eq_getElem lt'] at cell ⊢
    simp only [Option.map_some, Option.some.injEq] at cell ⊢
    simp [cell]
  · simp [here]

theorem setValue_next (a : PArray V) (index : Nat) (value : V) (i : Nat) :
    next (a.setValue index value).entries i = next a.entries i := by
  unfold next setValue
  rw [getElem?_modify]
  cases a.entries[i]? with
  | none => rfl
  | some e => by_cases here : index = i <;> simp [here]

theorem Wf.setValue {index : Nat} {old : V} (h : a.Wf) (value : V) (cell : a.cells[index]? = some (some (key, old))) :
    (a.setValue index value).Wf ∧ (a.setValue index value).dict = a.dict.set cfg key value := by
  have cells := setValue_cells value cell
  have used : (a.setValue index value).used = a.used := by
    rw [← length_cells, cells, List.length_set, length_cells]
  have content := live_update h.distinct cell value
  have present : key ∈ keys (live a.cells) := mem_keys_live.mpr ⟨index, old, cell⟩
  have cell_at : ∀ i, (a.setValue index value).cells[i]? =
      if index = i then some (some (key, value)) else a.cells[i]? := by
    intro i
    rw [cells, getElem?_set, length_cells, if_pos (lt_used_of_cell cell)]
  refine ⟨⟨?_, ?_, h.capacity_le, h.buckets_le, ?_, ?_, ?_⟩, ?_⟩
  · rw [cells, content]
    have same : (OrderedMap.set (live a.cells) key value).length = (live a.cells).length := by
      rw [OrderedMap.set, if_pos present, length_map]
    exact h.size_eq.trans same.symm
  · rw [used]; exact h.used_le
  · rw [cells, content]; exact nodup_set key value h.distinct
  · intro packed i hi
    rw [used] at hi
    obtain ⟨v, hv⟩ := h.packed_keys packed i hi
    rw [cell_at]
    by_cases here : index = i
    · subst here
      rw [cell] at hv
      cases hv
      exact ⟨value, if_pos rfl⟩
    · exact ⟨v, (if_neg here).trans hv⟩
  · intro hashed
    obtain ⟨pos, chains, t⟩ := h.threaded hashed
    refine ⟨pos, chains, ?_⟩
    rw [used]
    refine t.congr (setValue_next a index value) fun i k => ?_
    have := cell_at i
    unfold PArray.cells at this cell
    rw [this]
    by_cases here : index = i
    · subst here
      rw [if_pos rfl, cell]
      constructor
      · rintro ⟨v, e⟩; cases e; exact ⟨old, rfl⟩
      · rintro ⟨v, e⟩; cases e; exact ⟨value, rfl⟩
    · rw [if_neg here]
  · rw [dict, dict, Dict.set, if_pos present, cells, content, used]
    rfl

/-! ## Adding a key -/

theorem append_cells (a : PArray V) (key : Key) (value : V) :
    (a.append cfg key value).cells = a.cells ++ [some (key, value)] := by
  unfold append cells
  cases a.packed with
  | true => simp
  | false => simp

theorem append_used (a : PArray V) (key : Key) (value : V) : (a.append cfg key value).used = a.used + 1 := by
  rw [← length_cells, append_cells, length_append, length_cells, length_singleton]

theorem Wf.append (h : a.Wf) (value : V) (room : a.used < a.capacity) (fresh : key ∉ keys (live a.cells))
    (in_place : a.packed = true → key = .int a.used) :
    (a.append cfg key value).Wf ∧ (a.append cfg key value).dict = a.dict.set cfg key value := by
  have cells := append_cells cfg a key value
  have used := append_used cfg a key value
  have content : live (a.append cfg key value).cells = live a.cells ++ [(key, value)] := by
    rw [cells, live, reduceOption_append, reduceOption_singleton]; rfl
  have old : ∀ i, i < a.used → (a.append cfg key value).cells[i]? = a.cells[i]? := by
    intro i hi
    rw [cells, getElem?_append_left (by rwa [length_cells])]
  have new : (a.append cfg key value).cells[a.used]? = some (some (key, value)) := by
    rw [cells, ← length_cells, getElem?_concat_length]
  have capacity : (a.append cfg key value).capacity = a.capacity := by
    unfold PArray.append; cases a.packed <;> rfl
  have packed : (a.append cfg key value).packed = a.packed := by
    unfold PArray.append; cases a.packed <;> rfl
  have size : (a.append cfg key value).size = a.size + 1 := by
    unfold PArray.append; cases a.packed <;> rfl
  have next : (a.append cfg key value).nextIndex = bumpIndex cfg a.nextIndex key := by
    unfold PArray.append; cases a.packed <;> rfl
  have buckets : (a.append cfg key value).buckets.length = a.buckets.length := by
    unfold PArray.append
    cases a.packed with
    | true => rfl
    | false => exact List.length_set
  refine ⟨⟨?_, ?_, ?_, ?_, ?_, ?_, ?_⟩, ?_⟩
  · rw [size, content, length_append, h.size_eq]; rfl
  · rw [used, capacity]; exact room
  · rw [capacity]; exact h.capacity_le
  · rw [buckets]; exact h.buckets_le
  · rw [content, ← OrderedMap.set_of_not_mem value fresh]
    exact nodup_set key value h.distinct
  · intro is_packed i hi
    rw [packed] at is_packed
    rw [used] at hi
    by_cases last : i = a.used
    · rw [last]; exact ⟨value, by rw [new, in_place is_packed]⟩
    · rw [old i (by omega)]; exact h.packed_keys is_packed i (by omega)
  · intro hashed
    rw [packed] at hashed
    obtain ⟨pos, chains, t⟩ := h.threaded hashed
    have entries_eq : (a.append cfg key value).entries = a.entries ++
        [⟨some (key, value), a.buckets.getD (bucketOf a.buckets.length key) emptyBucket⟩] := by
      unfold PArray.append; rw [hashed]; rfl
    have buckets_eq : (a.append cfg key value).buckets =
        a.buckets.set (bucketOf a.buckets.length key) a.used := by
      unfold PArray.append; rw [hashed]; rfl
    have small : a.used < emptyBucket := room.trans_le h.capacity_le
    rw [used, buckets_eq, List.length_set]
    refine ⟨pos, _, t.push pos small new old (fun i hi => ?_) ?_⟩
    · rw [entries_eq]; exact next_append_of_lt _ hi
    · rw [entries_eq]; exact next_append_self _ _
  · rw [dict, dict, Dict.set, if_neg fresh, content, used, next, OrderedMap.set_of_not_mem value fresh]

/-- What a failing operation lacked: memory, or room in the 16-bit fields. -/
def Limited (mem : Memory) (d : Dict V) : Prop :=
  (∃ site, mem site = false) ∨ 16384 < d.entries.length ∨ 32768 ≤ d.added

theorem Wf.size_dict (h : a.Wf) : a.size = a.dict.entries.length := h.size_eq

/-- The outcome of adding `key` to an array that stands for `d`: done, or failed with everything
as it was. -/
structure Adds (cfg : Config) (mem : Memory) (d : Dict V) (key : Key) (value : V)
    (outcome : Bool × PArray V) : Prop where
  wf : outcome.2.Wf
  done : outcome.1 = true → outcome.2.dict = d.set cfg key value
  failed : outcome.1 = false → outcome.2.dict = d ∧ Limited mem d

section Adding
variable {a : PArray V} {key : Key} (value : V) (cfg : Config) (mem : Memory)

theorem Adds.of_failed (h : a.Wf) (lack : Limited mem a.dict) : Adds cfg mem a.dict key value (false, a) :=
  ⟨h, fun c => (by cases c), fun _ => ⟨rfl, lack⟩⟩

theorem Wf.addEntry (h : a.Wf) (fresh : key ∉ keys (live a.cells)) (in_place : a.packed = true → key = .int a.used) :
    Adds cfg mem a.dict key value (a.addEntry cfg mem key value) := by
  unfold PArray.addEntry
  cases e : a.ensureEntries (a.used + 1) (mem .entries) with
  | none =>
    refine Adds.of_failed value cfg mem h ?_
    by_cases small : a.used + 1 ≤ 32768
    · exact .inl ⟨.entries, ensureEntries_eq_none small e⟩
    · have added : a.dict.added = a.used := rfl
      exact .inr (.inr (by omega))
  | some grown =>
    obtain ⟨wf, same, packed, room⟩ := h.ensureEntries e
    have content : live grown.cells = live a.cells := congrArg Dict.entries same
    have used : grown.used = a.used := congrArg Dict.added same
    obtain ⟨wf', dict⟩ := wf.append cfg value (by omega) (by rw [content]; exact fresh)
      (by rw [packed, used]; exact in_place)
    exact ⟨wf', fun _ => by rw [dict, same], fun c => by cases c⟩

theorem Wf.addHashed (h : a.Wf) (fresh : key ∉ keys (live a.cells)) (in_place : a.packed = true → key = .int a.used) :
    Adds cfg mem a.dict key value (a.addHashed cfg mem key value) := by
  unfold PArray.addHashed
  by_cases crowded : a.packed = false ∧ a.buckets.length * 3 < (a.size + 1) * 4
  · rw [if_pos crowded]
    cases e : a.rehash (a.buckets.length * 2) (mem .buckets) with
    | none =>
      refine Adds.of_failed value cfg mem h ?_
      have size := h.size_dict
      by_cases small : a.size ≤ 16384
      · exact .inl ⟨.buckets, rehash_eq_none (by omega) e⟩
      · exact .inr (.inl (by omega))
    | some roomy =>
      obtain ⟨wf, same, hashed⟩ := h.rehash e
      have content : live roomy.cells = live a.cells := congrArg Dict.entries same
      rw [← same]
      exact wf.addEntry value cfg mem (by rw [content]; exact fresh) fun c => by rw [hashed] at c; cases c
  · rw [if_neg crowded]
    exact h.addEntry value cfg mem fresh in_place

theorem Wf.addKey (h : a.Wf) (fresh : key ∉ keys (live a.cells)) :
    ∃ outcome, PArray.addKey cfg mem a key value = some outcome ∧ Adds cfg mem a.dict key value outcome := by
  unfold PArray.addKey
  by_cases outside : a.packed = true ∧ key ≠ .int a.used
  · rw [if_pos outside]
    cases e : a.promoteHash (mem .promotion) with
    | none =>
      refine ⟨_, rfl, Adds.of_failed value cfg mem h ?_⟩
      have size := h.size_dict
      by_cases small : a.size ≤ 16384
      · exact .inl ⟨.promotion, promoteHash_eq_none small e⟩
      · exact .inr (.inl (by omega))
    | some promoted =>
      obtain ⟨wf, same, hashed⟩ := h.promoteHash e
      obtain ⟨found, walk, -⟩ := wf.findEntry key
      have content : live promoted.cells = live a.cells := congrArg Dict.entries same
      refine ⟨promoted.addHashed cfg mem key value, by simp only [walk], ?_⟩
      rw [← same]
      exact wf.addHashed value cfg mem (by rw [content]; exact fresh) fun c => by rw [hashed] at c; cases c
  · rw [if_neg outside]
    refine ⟨_, rfl, h.addHashed value cfg mem fresh fun packed => ?_⟩
    by_contra other
    exact outside ⟨packed, other⟩

end Adding

section Setting
variable {cfg : Config} (truncate : BitVec cfg.floatWidth → Option Int) {a : PArray V}

/-- The key of a call: the one the input stands for, unless the empty string cannot be had. -/
theorem normalizeKey_none {emptyKey : Bool} {input : KeyValue cfg}
    (e : normalizeKey cfg truncate emptyKey input = none) :
    (∀ key, ¬ RefersTo cfg truncate input key) ∨ emptyKey = false := by
  cases emptyKey with
  | false => exact .inr rfl
  | true =>
    refine .inl fun key refers => ?_
    rw [(normalizeKey_eq_some cfg truncate true input key).mpr ⟨refers, fun _ => rfl⟩] at e
    cases e

/-- **`pa_set`** sets the key its input stands for, or fails and changes nothing that can be
seen. It fails for a value that is no key, for lack of memory, or when the array is full. -/
theorem Wf.paSet (h : a.Wf) (mem : Memory) (input : KeyValue cfg) (value : V) :
    ∃ ok a', PArray.paSet truncate mem a input value = some (ok, a') ∧ a'.Wf ∧
      (ok = true → ∃ key, RefersTo cfg truncate input key ∧ a'.dict = a.dict.set cfg key value) ∧
      (ok = false → a'.dict = a.dict ∧ ((∀ key, ¬ RefersTo cfg truncate input key) ∨ Limited mem a.dict)) := by
  unfold PArray.paSet
  cases normal : normalizeKey cfg truncate (mem .emptyKey) input with
  | none =>
    refine ⟨false, a, rfl, h, fun c => (by cases c), fun _ => ⟨rfl, ?_⟩⟩
    rcases normalizeKey_none truncate normal with no_key | refused
    · exact .inl no_key
    · exact .inr (.inl ⟨.emptyKey, refused⟩)
  | some key =>
    have refers := ((normalizeKey_eq_some cfg truncate _ input key).mp normal).1
    obtain ⟨found, walk, missing, present⟩ := h.findEntry key
    simp only [walk]
    cases found with
    | none =>
      obtain ⟨⟨ok, a'⟩, e, adds⟩ := h.addKey value cfg mem (missing rfl)
      exact ⟨ok, a', e, adds.wf, fun c => ⟨key, refers, adds.done c⟩,
        fun c => ⟨(adds.failed c).1, .inr (adds.failed c).2⟩⟩
    | some p =>
      obtain ⟨i, link⟩ := p
      obtain ⟨old, cell⟩ := present i link rfl
      obtain ⟨wf, same⟩ := h.setValue cfg value cell
      exact ⟨true, _, rfl, wf, fun _ => ⟨key, refers, same⟩, fun c => by cases c⟩

theorem Wf.paGet (h : a.Wf) (mem : Memory) (input : KeyValue cfg) :
    ∃ answer, PArray.paGet truncate mem a input = some answer ∧ (∀ value, answer = some value →
        ∃ key, RefersTo cfg truncate input key ∧ a.dict.get key = some value) ∧ (answer = none →
        (∀ key, RefersTo cfg truncate input key → a.dict.get key = none) ∨ mem .emptyKey = false) := by
  unfold PArray.paGet
  cases normal : normalizeKey cfg truncate (mem .emptyKey) input with
  | none =>
    refine ⟨none, rfl, fun value c => (by cases c), fun _ => ?_⟩
    rcases normalizeKey_none truncate normal with no_key | refused
    · exact .inl fun key refers => absurd refers (no_key key)
    · exact .inr refused
  | some key =>
    have refers := ((normalizeKey_eq_some cfg truncate _ input key).mp normal).1
    obtain ⟨found, walk, missing, present⟩ := h.findEntry key
    simp only [walk]
    cases found with
    | none =>
      refine ⟨none, rfl, fun value c => (by cases c), fun _ => .inl fun key' refers' => ?_⟩
      rw [refers'.unique refers]
      exact lookup_of_not_mem (missing rfl)
    | some p =>
      obtain ⟨i, link⟩ := p
      obtain ⟨old, cell⟩ := present i link rfl
      simp only [cell, Option.join_some, Option.map_some]
      refine ⟨some old, rfl, fun value c => ?_, fun c => (by cases c)⟩
      cases c
      exact ⟨key, refers, live_lookup h.distinct cell⟩

end Setting

/-! ## Removing a key -/

section Removing
variable (a : PArray V) (key : Key) (index : Nat) (link : Link Nat)

/-- The array after the end of `pa_remove`. -/
def removed : PArray V :=
  let unlinked := a.setLink key link (next a.entries index)
  { unlinked with
    size := unlinked.size - 1
    entries := unlinked.entries.set index ⟨none, emptyBucket⟩ }

theorem setLink_cells (target : Nat) : (a.setLink key link target).cells = a.cells := by
  cases link with
  | head => rfl
  | after i =>
    refine ext_getElem? fun j => ?_
    simp only [setLink, cells, getElem?_map, getElem?_modify]
    cases a.entries[j]? with
    | none => rfl
    | some e => by_cases here : i = j <;> simp [here]

theorem removed_cells : (a.removed key index link).cells = a.cells.set index none := by
  have kept := setLink_cells a key link (next a.entries index)
  rw [← kept]
  exact map_set

theorem setLink_next (target i : Nat) (inside : ∀ j, link = .after j → j < a.used) :
    next (a.setLink key link target).entries i = redirect (next a.entries) link target i := by
  cases link with
  | head => simp [setLink, redirect]
  | after j =>
    have lt : j < a.entries.length := inside j rfl
    unfold setLink redirect next
    simp only [getElem?_modify, Link.after.injEq]
    by_cases here : j = i
    · subst here
      simp [getElem?_eq_getElem lt]
    · simp only [if_neg here]
      cases a.entries[i]? with
      | none => rfl
      | some e => rfl

variable {a key index link}

theorem Threaded.remove {chains : Nat → List Nat} (t : Threaded a.entries a.buckets chains a.used)
    (pos : 0 < a.buckets.length) (found : locate (keyAt a.entries key) .head (chains (bucketOf a.buckets.length key)) =
      some (index, link)) : Threaded (a.removed key index link).entries (a.removed key index link).buckets
      (fun b => if b = bucketOf a.buckets.length key then (chains b).erase index else chains b) a.used := by
  have hb := bucketOf_lt pos key
  obtain ⟨on_chain, -⟩ := locate_mem found
  obtain ⟨lt, -⟩ := (t.mem _ hb index).mp on_chain
  have link_on : ∀ j, link = .after j → j ∈ chains (bucketOf a.buckets.length key) := by
    rcases locate_link found with e | ⟨j, hj, e⟩
    · intro j c; rw [e] at c; cases c
    · intro k c; rw [e] at c; cases c; exact hj
  have inside : ∀ j, link = .after j → j < a.used := fun j e => ((t.mem _ hb j).mp (link_on j e)).1
  have length : (a.removed key index link).buckets.length = a.buckets.length := by
    cases link with
    | head => exact List.length_set
    | after j => rfl
  have next_eq : ∀ i, i ≠ index → next (a.removed key index link).entries i =
      redirect (next a.entries) link (next a.entries index) i := by
    intro i ne
    have := setLink_next a key link (next a.entries index) i inside
    rw [← this]
    exact (next_set _ _ _ _).trans (if_neg fun c => ne c.1.symm)
  have head_eq : ∀ b, b < a.buckets.length → (a.removed key index link).buckets.getD b emptyBucket =
      if b = bucketOf a.buckets.length key
      then redirectHead (a.buckets.getD b emptyBucket) link (next a.entries index)
      else a.buckets.getD b emptyBucket := by
    intro b _
    cases link with
    | head =>
      refine (getD_set a.buckets _ b _).trans ?_
      by_cases own : b = bucketOf a.buckets.length key
      · rw [if_pos ⟨own.symm, hb⟩, if_pos own, redirectHead_head]
      · rw [if_neg fun c => own c.1.symm, if_neg own]
    | after j =>
      rw [redirectHead_after, ite_self]
      rfl
  -- a cell on another chain is neither the removed one nor the one whose link changes
  have other : ∀ b, b < a.buckets.length → b ≠ bucketOf a.buckets.length key → ∀ i, i ∈ chains b →
      i ∉ chains (bucketOf a.buckets.length key) := by
    intro b hlt ne i hi hi'
    obtain ⟨-, k, v, cell, own⟩ := (t.mem b hlt i).mp hi
    obtain ⟨-, k', v', cell', own'⟩ := (t.mem _ hb i).mp hi'
    rw [cell] at cell'
    cases cell'
    exact ne (own.symm.trans own')
  refine ⟨fun b hlt => ?_, fun b hlt => ?_, fun b hlt i => ?_⟩
  · rw [length] at hlt
    rw [head_eq b hlt]
    by_cases own : b = bucketOf a.buckets.length key
    · rw [if_pos own, if_pos own]
      subst own
      refine ((t.linked _ hb).unlink (t.nodup _ hb) found).congr fun i hi => next_eq i ?_
      rintro rfl
      exact (t.nodup _ hb).not_mem_erase hi
    · rw [if_neg own, if_neg own]
      refine (t.linked b hlt).congr fun i hi => ?_
      have away := other b hlt own i hi
      rw [next_eq i fun e => away (e ▸ on_chain), redirect, if_neg fun e => away (link_on i e)]
  · rw [length] at hlt
    split
    · exact (t.nodup b hlt).erase index
    · exact t.nodup b hlt
  · rw [length] at hlt ⊢
    have cell_at : ((a.removed key index link).entries.map PEntry.cell)[i]? =
        if index = i then some none else (a.entries.map PEntry.cell)[i]? := by
      have := congrArg (fun cells => cells[i]?) (removed_cells a key index link)
      simp only [getElem?_set, length_cells, lt, if_true] at this
      exact this
    rw [cell_at]
    by_cases gone : index = i
    · subst gone
      have not_on : index ∉ (if b = bucketOf a.buckets.length key then (chains b).erase index
          else chains b) := by
        split
        · exact (t.nodup b hlt).not_mem_erase
        · next own => exact fun hi => other b hlt own index hi on_chain
      rw [if_pos rfl]
      refine ⟨fun hi => absurd hi not_on, ?_⟩
      rintro ⟨-, k, v, e, -⟩
      cases e
    · rw [if_neg gone, ← t.mem b hlt i]
      split
      · exact (t.nodup b hlt).mem_erase_iff.trans (and_iff_right fun e => gone e.symm)
      · exact Iff.rfl

/-- Taking out an entry of a hash table. -/
theorem Wf.removed {value : V} (h : a.Wf) {chains : Nat → List Nat} (hashed : a.packed = false)
    (t : Threaded a.entries a.buckets chains a.used) (pos : 0 < a.buckets.length)
    (found : locate (keyAt a.entries key) .head (chains (bucketOf a.buckets.length key)) =
      some (index, link)) (cell : a.cells[index]? = some (some (key, value))) :
    (a.removed key index link).Wf ∧ (a.removed key index link).dict = a.dict.erase key := by
  have cells := removed_cells a key index link
  have used : (a.removed key index link).used = a.used := by
    rw [← length_cells, cells, List.length_set, length_cells]
  have content := live_clear h.distinct cell
  have size : (a.removed key index link).size = a.size - 1 := by cases link <;> rfl
  have capacity : (a.removed key index link).capacity = a.capacity := by cases link <;> rfl
  have packed : (a.removed key index link).packed = a.packed := by cases link <;> rfl
  have nextIndex : (a.removed key index link).nextIndex = a.nextIndex := by cases link <;> rfl
  have length : (a.removed key index link).buckets.length = a.buckets.length := by
    cases link with
    | head => exact List.length_set
    | after j => rfl
  refine ⟨⟨?_, ?_, ?_, ?_, ?_, fun c => ?_, fun _ => ?_⟩, ?_⟩
  · have := length_clear cell
    rw [size, cells, h.size_eq]
    omega
  · rw [used, capacity]; exact h.used_le
  · rw [capacity]; exact h.capacity_le
  · rw [length]; exact h.buckets_le
  · rw [cells, content]; exact nodup_erase key h.distinct
  · rw [packed, hashed] at c; cases c
  · rw [length, used]
    exact ⟨pos, _, t.remove pos found⟩
  · rw [dict, dict, Dict.erase, cells, content, nextIndex, used]

theorem Wf.removeHashed (h : a.Wf) (hashed : a.packed = false) (key : Key) :
    ∃ ok a', a.removeHashed key = some (ok, a') ∧ a'.Wf ∧
      (ok = true → key ∈ keys a.dict.entries ∧ a'.dict = a.dict.erase key) ∧
      (ok = false → a'.dict = a.dict ∧ key ∉ keys a.dict.entries) := by
  obtain ⟨pos, chains, t⟩ := h.threaded hashed
  have walk := findEntry_of_threaded hashed pos t key
  obtain ⟨found, walk', missing, present⟩ := h.findEntry key
  rw [walk] at walk'
  have e := Option.some.inj walk'
  rw [PArray.removeHashed, walk]
  cases at_key : locate (keyAt a.entries key) .head (chains (bucketOf a.buckets.length key)) with
  | none =>
    rw [at_key] at e
    exact ⟨false, a, rfl, h, fun c => (by cases c), fun _ => ⟨rfl, missing e.symm⟩⟩
  | some p =>
    obtain ⟨index, link⟩ := p
    rw [at_key] at e
    obtain ⟨value, cell⟩ := present index (some link) e.symm
    obtain ⟨wf, dict⟩ := h.removed hashed t pos at_key cell
    exact ⟨true, a.removed key index link, rfl, wf,
      fun _ => ⟨mem_keys_live.mpr ⟨index, value, cell⟩, dict⟩, fun c => by cases c⟩

end Removing

/-- **`pa_remove`** removes the key its input stands for, or fails and changes nothing that can be seen: the key is
absent, there is no memory, or the array is too large to be hashed. -/
theorem Wf.paRemove {cfg : Config} (truncate : BitVec cfg.floatWidth → Option Int) (h : a.Wf) (mem : Memory)
    (input : KeyValue cfg) : ∃ ok a', PArray.paRemove truncate mem a input = some (ok, a') ∧ a'.Wf ∧
      (ok = true → ∃ key, RefersTo cfg truncate input key ∧ key ∈ keys a.dict.entries ∧ a'.dict = a.dict.erase key) ∧
      (ok = false → a'.dict = a.dict ∧ ((∀ key, RefersTo cfg truncate input key → key ∉ keys a.dict.entries) ∨
          Limited mem a.dict)) := by
  unfold PArray.paRemove
  cases normal : normalizeKey cfg truncate (mem .emptyKey) input with
  | none =>
    refine ⟨false, a, rfl, h, fun c => (by cases c), fun _ => ⟨rfl, ?_⟩⟩
    rcases normalizeKey_none truncate normal with no_key | refused
    · exact .inl fun key refers => absurd refers (no_key key)
    · exact .inr (.inl ⟨.emptyKey, refused⟩)
  | some key =>
    have refers := ((normalizeKey_eq_some cfg truncate _ input key).mp normal).1
    have on_hashed : ∀ b : PArray V, b.Wf → b.dict = a.dict → b.packed = false →
        ∃ ok a', b.removeHashed key = some (ok, a') ∧ a'.Wf ∧
          (ok = true → ∃ key, RefersTo cfg truncate input key ∧ key ∈ keys a.dict.entries ∧
            a'.dict = a.dict.erase key) ∧
          (ok = false → a'.dict = a.dict ∧ ((∀ key, RefersTo cfg truncate input key → key ∉ keys a.dict.entries) ∨
              Limited mem a.dict)) := by
      intro b wf same hashed
      obtain ⟨ok, a', e, wf', done, failed⟩ := wf.removeHashed hashed key
      rw [same] at done failed
      refine ⟨ok, a', e, wf', fun c => ⟨key, refers, done c⟩, fun c => ⟨(failed c).1, .inl ?_⟩⟩
      intro key' refers'
      rw [refers'.unique refers]
      exact (failed c).2
    cases packed : a.packed with
    | false =>
      simp only [Bool.false_eq_true, if_false]
      exact on_hashed a h rfl packed
    | true =>
      simp only [if_true]
      cases e : a.promoteHash (mem .promotion) with
      | none =>
        refine ⟨false, a, rfl, h, fun c => (by cases c), fun _ => ⟨rfl, .inr ?_⟩⟩
        have size := h.size_dict
        by_cases small : a.size ≤ 16384
        · exact .inl ⟨.promotion, promoteHash_eq_none small e⟩
        · exact .inr (.inl (by omega))
      | some promoted =>
        obtain ⟨wf, same, hashed⟩ := h.promoteHash e
        exact on_hashed promoted wf same hashed

end PArray
end PhpPico
