import PhpPico.Parray.Table
import Mathlib.Data.List.Perm.Subperm

/-!
# The representation of arrays

Where a key is found in an array, how entries are threaded into chains, and that growing, rehashing and looking up
respect it.
-/

namespace PhpPico
open List Chain OrderedMap

namespace PArray

variable {V : Type}

/-! ## The representation invariant -/

/-- Each of the first `upTo` entries that is not a tombstone is on the chain of its bucket, once,
and nothing else is. -/
structure Threaded (entries : List (PEntry V)) (buckets : List Nat) (chains : Nat → List Nat)
    (upTo : Nat) : Prop where
  linked : ∀ b, b < buckets.length → Linked (next entries) emptyBucket (buckets.getD b emptyBucket) (chains b)
  nodup : ∀ b, b < buckets.length → (chains b).Nodup
  mem : ∀ b, b < buckets.length → ∀ i, i ∈ chains b ↔
    i < upTo ∧ ∃ key value, (entries.map PEntry.cell)[i]? = some (some (key, value)) ∧ bucketOf buckets.length key = b

/-- The invariant of an array. -/
structure Wf (a : PArray V) : Prop where
  size_eq : a.size = (live a.cells).length
  used_le : a.used ≤ a.capacity
  capacity_le : a.capacity ≤ 65535
  buckets_le : a.buckets.length ≤ 65535
  distinct : (keys (live a.cells)).Nodup
  packed_keys : a.packed = true → ∀ i, i < a.used → ∃ value, a.cells[i]? = some (some (.int i, value))
  threaded : a.packed = false → 0 < a.buckets.length ∧ ∃ chains, Threaded a.entries a.buckets chains a.used

@[simp] theorem length_cells (a : PArray V) : a.cells.length = a.used := length_map _

variable {a : PArray V} {i : Nat} {entries : List (PEntry V)} {buckets : List Nat} {chains : Nat → List Nat}
  {granted : Bool}

theorem lt_used_of_cell {c : Option (Key × V)} (h : a.cells[i]? = some c) : i < a.used := by
  obtain ⟨hi, -⟩ := List.getElem?_eq_some_iff.mp h
  rwa [length_cells] at hi

theorem bucketOf_lt {n : Nat} (pos : 0 < n) (key : Key) : bucketOf n key < n := by
  have : bucketOf n key ≤ n - 1 := Nat.and_le_right
  omega

theorem next_set (entries : List (PEntry V)) (i j : Nat) (e : PEntry V) :
    next (entries.set i e) j = if i = j ∧ i < entries.length then e.next else next entries j := by
  unfold next
  rw [getElem?_set]
  by_cases same : i = j
  · subst same
    by_cases lt : i < entries.length
    · simp [lt]
    · simp [lt]
  · simp [same]

theorem next_append_of_lt {j : Nat} (e : PEntry V)
    (h : j < entries.length) : next (entries ++ [e]) j = next entries j := by
  unfold next
  rw [getElem?_append_left h]

theorem next_append_self (entries : List (PEntry V)) (e : PEntry V) :
    next (entries ++ [e]) entries.length = e.next := by
  unfold next
  rw [getElem?_concat_length]
  rfl

theorem getD_set (buckets : List Nat) (b c x : Nat) : (buckets.set b x).getD c emptyBucket =
      if b = c ∧ b < buckets.length then x else buckets.getD c emptyBucket := by
  rw [getD_eq_getElem?_getD, getD_eq_getElem?_getD, getElem?_set]
  by_cases same : b = c
  · subst same
    by_cases lt : b < buckets.length
    · simp [lt]
    · simp [lt]
  · simp [same]

theorem Threaded.length_le {upTo b : Nat} (h : Threaded entries buckets chains upTo) (hb : b < buckets.length) :
    (chains b).length ≤ upTo := by
  have sub : chains b ⊆ List.range upTo := by
    intro i hi
    exact mem_range.mpr ((h.mem b hb i).mp hi).1
  have := (subperm_of_subset (h.nodup b hb) sub).length_le
  rwa [length_range] at this

theorem Threaded.push {entries' : List (PEntry V)} {key : Key} {value : V}
    (h : Threaded entries buckets chains i) (pos : 0 < buckets.length) (small : i < emptyBucket)
    (cell : (entries'.map PEntry.cell)[i]? = some (some (key, value)))
    (cells : ∀ j, j < i → (entries'.map PEntry.cell)[j]? = (entries.map PEntry.cell)[j]?)
    (links : ∀ j, j < i → next entries' j = next entries j)
    (link : next entries' i = buckets.getD (bucketOf buckets.length key) emptyBucket) :
    Threaded entries' (buckets.set (bucketOf buckets.length key) i)
      (fun b => if b = bucketOf buckets.length key then i :: chains b else chains b) (i + 1) := by
  have hlt : bucketOf buckets.length key < buckets.length := bucketOf_lt pos key
  have fresh : ∀ b, b < buckets.length → i ∉ chains b := by
    intro b hb hi
    exact absurd ((h.mem b hb i).mp hi).1 (lt_irrefl i)
  have old : ∀ b, b < buckets.length →
      Linked (next entries') emptyBucket (buckets.getD b emptyBucket) (chains b) := by
    intro b hb
    exact (h.linked b hb).congr fun j hj => links j ((h.mem b hb j).mp hj).1
  refine ⟨?_, ?_, ?_⟩
  · intro b hb
    rw [List.length_set] at hb
    rw [getD_set]
    by_cases own : b = bucketOf buckets.length key
    · rw [if_pos ⟨own.symm, hlt⟩, if_pos own]
      refine ⟨rfl, ne_of_lt small, ?_⟩
      rw [link, ← own]
      exact old b hb
    · rw [if_neg fun c => own c.1.symm, if_neg own]
      exact old b hb
  · intro b hb
    rw [List.length_set] at hb
    by_cases own : b = bucketOf buckets.length key
    · rw [if_pos own]
      exact nodup_cons.mpr ⟨fresh b hb, h.nodup b hb⟩
    · rw [if_neg own]
      exact h.nodup b hb
  · intro b hb j
    rw [List.length_set] at hb ⊢
    have older : j < i → (j ∈ chains b ↔ ∃ k v,
        (entries'.map PEntry.cell)[j]? = some (some (k, v)) ∧ bucketOf buckets.length k = b) := by
      intro hj
      rw [h.mem b hb j, cells j hj]
      exact and_iff_right hj
    by_cases self : j = i
    · subst self
      rw [cell]
      constructor
      · intro hj
        have own : b = bucketOf buckets.length key := by
          by_contra other
          rw [if_neg other] at hj
          exact fresh b hb hj
        exact ⟨Nat.lt_succ_self _, key, value, rfl, own.symm⟩
      · rintro ⟨-, k, v, e, own⟩
        cases e
        rw [if_pos own.symm]
        exact .head _
    · have reduce : j ∈ (if b = bucketOf buckets.length key then i :: chains b else chains b) ↔
          j ∈ chains b := by
        split
        · exact mem_cons.trans (or_iff_right self)
        · exact Iff.rfl
      rw [reduce]
      constructor
      · intro hj
        have lt := ((h.mem b hb j).mp hj).1
        exact ⟨Nat.lt_succ_of_lt lt, (older lt).mp hj⟩
      · rintro ⟨lt, rest⟩
        exact (older (by omega)).mpr rest

/-- Passing over a tombstone. -/
theorem Threaded.skip (h : Threaded entries buckets chains i)
    (dead : ∀ key value, (entries.map PEntry.cell)[i]? ≠ some (some (key, value))) :
    Threaded entries buckets chains (i + 1) := by
  refine ⟨h.linked, h.nodup, fun b hb j => ?_⟩
  rw [h.mem b hb j]
  constructor
  · rintro ⟨lt, rest⟩
    exact ⟨Nat.lt_succ_of_lt lt, rest⟩
  · rintro ⟨lt, key, value, e, own⟩
    have : j ≠ i := by rintro rfl; exact dead key value e
    exact ⟨by omega, key, value, e, own⟩

/-! ## Growing and hashing -/

theorem le_grownCapacity (capacity minimum : Nat) :
    capacity ≤ grownCapacity capacity minimum ∧ minimum ≤ grownCapacity capacity minimum := by
  unfold grownCapacity
  by_cases zero : capacity = 0
  · simp only [zero, if_true]
    split <;> omega
  · simp only [zero, if_false]
    split <;> omega

theorem ensureEntries_eq_some {a' : PArray V} {minimum : Nat} (le : a.capacity ≤ 65535)
    (h : a.ensureEntries minimum granted = some a') :
    ∃ capacity, a' = { a with capacity } ∧ a.capacity ≤ capacity ∧ minimum ≤ capacity ∧ capacity ≤ 65535 := by
  simp only [ensureEntries] at h
  by_cases enough : minimum ≤ a.capacity
  · rw [if_pos enough] at h
    cases h
    exact ⟨a.capacity, rfl, le_rfl, enough, le⟩
  · rw [if_neg enough] at h
    by_cases beyond : 65535 < grownCapacity a.capacity minimum
    · rw [if_pos beyond] at h; cases h
    · rw [if_neg beyond] at h
      have ⟨grows, room⟩ := le_grownCapacity a.capacity minimum
      cases granted with
      | false => cases h
      | true => cases h; exact ⟨_, rfl, grows, room, not_lt.mp beyond⟩

/-- Up to half of the 16-bit capacities only memory can be missing. -/
theorem ensureEntries_eq_none {minimum : Nat} (small : minimum ≤ 32768)
    (h : a.ensureEntries minimum granted = none) : granted = false := by
  simp only [ensureEntries] at h
  by_cases enough : minimum ≤ a.capacity
  · rw [if_pos enough] at h; cases h
  · have fits : ¬ 65535 < grownCapacity a.capacity minimum := by
      unfold grownCapacity
      by_cases zero : a.capacity = 0
      · simp only [zero, if_true]
        split <;> omega
      · simp only [zero, if_false]
        split <;> omega
    rw [if_neg enough, if_neg fits] at h
    cases granted with
    | false => rfl
    | true => cases h

theorem map_cell_set {e : PEntry V} (same : (entries.map PEntry.cell)[i]? = some e.cell) :
    (entries.set i e).map PEntry.cell = entries.map PEntry.cell := by
  rw [map_set]
  obtain ⟨hi, he⟩ := List.getElem?_eq_some_iff.mp same
  rw [← he]
  exact set_getElem_self hi

theorem rehashEntry_threaded (h : Threaded entries buckets chains i) (pos : 0 < buckets.length)
    (small : i < emptyBucket) (hi : i < entries.length) :
    ∃ chains', Threaded (rehashEntry (entries, buckets) i).1 (rehashEntry (entries, buckets) i).2 chains' (i + 1) ∧
      (rehashEntry (entries, buckets) i).1.map PEntry.cell = entries.map PEntry.cell ∧
      (rehashEntry (entries, buckets) i).2.length = buckets.length := by
  have at_i : entries[i]? = some entries[i] := getElem?_eq_getElem hi
  cases e : entries[i] with
  | mk cell link =>
    rw [e] at at_i
    cases cell with
    | none =>
      have same : rehashEntry (entries, buckets) i = (entries, buckets) := by
        simp only [rehashEntry, at_i]
      rw [same]
      refine ⟨chains, h.skip fun key value c => ?_, rfl, rfl⟩
      rw [getElem?_map, at_i] at c
      cases c
    | some kv =>
      obtain ⟨key, value⟩ := kv
      simp only [rehashEntry, at_i]
      have cell_i : (entries.map PEntry.cell)[i]? = some (some (key, value)) := by
        rw [getElem?_map, at_i]; rfl
      have cells : (entries.set i ⟨some (key, value),
          buckets.getD (bucketOf buckets.length key) emptyBucket⟩).map PEntry.cell =
          entries.map PEntry.cell := map_cell_set cell_i
      refine ⟨_, h.push pos small (by rw [cells]; exact cell_i) (fun j _ => by rw [cells])
        (fun j hj => ?_) ?_, cells, List.length_set⟩
      · rw [next_set, if_neg fun c => ne_of_gt hj c.1]
      · simp [next_set, hi]

theorem rehash_loop (entries : List (PEntry V)) (bucketCount : Nat) (pos : 0 < bucketCount)
    (small : entries.length ≤ 65535) : ∀ n, n ≤ entries.length → ∃ chains, Threaded
        ((List.range n).foldl rehashEntry (entries, replicate bucketCount emptyBucket)).1
        ((List.range n).foldl rehashEntry (entries, replicate bucketCount emptyBucket)).2 chains n ∧
      ((List.range n).foldl rehashEntry (entries, replicate bucketCount emptyBucket)).1.map
        PEntry.cell = entries.map PEntry.cell ∧
      ((List.range n).foldl rehashEntry (entries, replicate bucketCount emptyBucket)).2.length = bucketCount := by
  intro n
  induction n with
  | zero =>
    intro _
    refine ⟨fun _ => [], ⟨fun b hb => ?_, fun b _ => nodup_nil, fun b _ i => ?_⟩, rfl, ?_⟩
    · simp only [range_zero, foldl_nil, length_replicate] at hb ⊢
      simp [getD_eq_getElem?_getD, hb]
    · simp
    · simp
  | succ n ih =>
    intro hn
    obtain ⟨chains, threaded, cells, len⟩ := ih (Nat.le_of_succ_le hn)
    rw [range_succ, foldl_append, foldl_cons, foldl_nil]
    generalize (List.range n).foldl rehashEntry (entries, replicate bucketCount emptyBucket) = table
      at threaded cells len ⊢
    have size : table.1.length = entries.length := by
      have := congrArg List.length cells
      rwa [length_map, length_map] at this
    obtain ⟨chains', threaded', cells', len'⟩ := rehashEntry_threaded threaded (by omega)
      (lt_of_lt_of_le hn small) (by omega)
    exact ⟨chains', threaded', cells'.trans cells, len'.trans len⟩

/-- **A rehash keeps the cells** and threads all entries into chains. -/
theorem rehash_eq_some {a' : PArray V} {bucketCount : Nat} (small : a.used ≤ 65535)
    (h : a.rehash bucketCount granted = some a') :
    a'.packed = false ∧ a'.size = a.size ∧ a'.capacity = a.capacity ∧ a'.nextIndex = a.nextIndex ∧
      a'.cells = a.cells ∧ 0 < a'.buckets.length ∧ a'.buckets.length ≤ 65535 ∧
      ∃ chains, Threaded a'.entries a'.buckets chains a'.used := by
  simp only [rehash] at h
  have pos : 0 < (if bucketCount < 8 then 8 else bucketCount) := by split <;> omega
  generalize (if bucketCount < 8 then 8 else bucketCount) = count at h pos
  by_cases beyond : 65535 < count
  · rw [if_pos beyond] at h; cases h
  · rw [if_neg beyond] at h
    cases granted with
    | false => cases h
    | true =>
      cases h
      obtain ⟨chains, threaded, cells, len⟩ := rehash_loop a.entries _ pos small a.used le_rfl
      have used : a.used = ((List.range a.used).foldl rehashEntry
          (a.entries, replicate count emptyBucket)).1.length := by
        have := congrArg List.length cells
        rw [length_map, length_map] at this
        exact this.symm
      refine ⟨rfl, rfl, rfl, rfl, cells, by rw [len]; exact pos, by rw [len]; exact not_lt.mp beyond, chains, ?_⟩
      exact Eq.mp (congrArg (Threaded _ _ chains) used) threaded

theorem rehash_eq_none {bucketCount : Nat} (small : bucketCount ≤ 65535)
    (h : a.rehash bucketCount granted = none) : granted = false := by
  simp only [rehash] at h
  have fits : ¬ 65535 < (if bucketCount < 8 then 8 else bucketCount) := by split <;> omega
  rw [if_neg fits] at h
  cases granted with
  | false => rfl
  | true => cases h

theorem promotedBuckets_le (size rounds buckets : Nat) (start : buckets ≤ 8 ∨ buckets < size * 4) :
    promotedBuckets size rounds buckets ≤ 8 ∨ promotedBuckets size rounds buckets < size * 4 := by
  induction rounds generalizing buckets with
  | zero => exact start
  | succ rounds ih =>
    rw [promotedBuckets]
    split
    · next more => exact ih _ (.inr (by omega))
    · exact start

/-! ## Looking up -/

theorem keyAt_eq_true {key : Key} : keyAt entries key i = true ↔
      ∃ value, (entries.map PEntry.cell)[i]? = some (some (key, value)) := by
  unfold keyAt
  rw [getElem?_map]
  cases entries[i]? with
  | none => simp
  | some e =>
    obtain ⟨cell, link⟩ := e
    cases cell with
    | none => simp
    | some kv => simp [Prod.ext_iff]

theorem findEntry_of_threaded (hashed : a.packed = false) (pos : 0 < a.buckets.length)
    (t : Threaded a.entries a.buckets chains a.used) (key : Key) :
    a.findEntry key = some ((locate (keyAt a.entries key) .head
      (chains (bucketOf a.buckets.length key))).map fun found => (found.1, some found.2)) := by
  have hb := bucketOf_lt pos key
  have walk := (t.linked _ hb).seek_eq (p := keyAt a.entries key)
    (Nat.lt_succ_of_le (t.length_le hb)) .head
  simp only [findEntry, hashed, Bool.false_eq_true, if_false, ne_of_gt pos, walk, Option.map_some]

/-- **A lookup ends**, and finds the entry of the key when there is one. -/
theorem Wf.findEntry (h : a.Wf) (key : Key) :
    ∃ found, a.findEntry key = some found ∧ (found = none → key ∉ keys (live a.cells)) ∧
      ∀ i link, found = some (i, link) → ∃ value, a.cells[i]? = some (some (key, value)) := by
  cases hashed : a.packed with
  | false =>
    obtain ⟨pos, chains, t⟩ := h.threaded hashed
    have hb := bucketOf_lt pos key
    refine ⟨_, findEntry_of_threaded hashed pos t key, ?_, ?_⟩
    · intro missing present
      obtain ⟨i, value, cell⟩ := mem_keys_live.mp present
      have on_chain := (t.mem _ hb i).mpr ⟨lt_used_of_cell cell, key, value, cell, rfl⟩
      have differs := locate_eq_none (Option.map_eq_none_iff.mp missing) i on_chain
      rw [keyAt_eq_true.mpr ⟨value, cell⟩] at differs
      cases differs
    · intro i link e
      obtain ⟨⟨j, link'⟩, at_j, e⟩ := Option.map_eq_some_iff.mp e
      cases e
      exact keyAt_eq_true.mp (locate_mem at_j).2
  | true =>
    cases key with
    | int i =>
      by_cases inside : 0 ≤ i ∧ i < a.used
      · refine ⟨some (i.toNat, none), by simp [PArray.findEntry, hashed, inside],
          fun e => (by cases e), fun j link e => ?_⟩
        cases e
        obtain ⟨value, cell⟩ := h.packed_keys hashed i.toNat (by omega)
        rw [Int.toNat_of_nonneg inside.1] at cell
        exact ⟨value, cell⟩
      · refine ⟨none, by simp only [PArray.findEntry, hashed, if_true, if_neg inside], fun _ present => ?_,
          fun j link e => by cases e⟩
        obtain ⟨j, value, cell⟩ := mem_keys_live.mp present
        have lt := lt_used_of_cell cell
        obtain ⟨value', cell'⟩ := h.packed_keys hashed j lt
        rw [cell] at cell'
        cases cell'
        exact inside ⟨by omega, by omega⟩
    | string s =>
      refine ⟨none, by simp [PArray.findEntry, hashed], fun _ present => ?_, fun j link e => by cases e⟩
      obtain ⟨j, value, cell⟩ := mem_keys_live.mp present
      obtain ⟨value', cell'⟩ := h.packed_keys hashed j (lt_used_of_cell cell)
      rw [cell] at cell'
      cases cell'

end PArray
end PhpPico
