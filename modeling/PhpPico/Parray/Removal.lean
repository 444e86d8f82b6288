import PhpPico.Parray.Runs
import PhpPico.Parray.Slots

/-!
# Removing an element

`pa_remove` gives a packed array buckets first. When it cannot, it returns 0, as for a key that is not there, and
`execute_array_unset` does not look at the answer.
-/

namespace PhpPico
open OrderedMap

section Removal
variable {cfg : Config} {V : Type} (truncate : BitVec cfg.floatWidth → Option Int)

/-- `array_for_write`, for the array and its reference count. -/
def PArray.arrayForWrite (mem : Memory) (a : PArray V) (refcnt : Nat) : Option (PArray V) :=
  if refcnt ≤ 2 then some a else a.paClone mem

/-- The value `execute_array_unset` pops as the array. -/
inductive UnsetBase (V : Type) where
  | array (a : PArray V) (refcnt : Nat)
  | other

/-- `execute_array_unset`: an error, or the array it pushes. The outer `none` is a lookup that never
ends. -/
def executeArrayUnset (mem : Memory) (base : UnsetBase V) (key : KeyValue cfg) :
    Option (Except (List UInt8) (PArray V)) :=
  match base with
  | .other => some (.error (ascii "Cannot use a non-array value as an array"))
  | .array a refcnt =>
    match a.arrayForWrite mem refcnt with
    | none => some (.error (ascii "out of memory separating array"))
    | some writable => (writable.paRemove truncate mem key).map fun r => .ok r.2

/-- The key the input stands for is not found in the array afterwards, it is counted no more, and all
other entries are as they were, in their order. -/
structure PArray.Removes (a : PArray V) (input : KeyValue cfg) (a' : PArray V) : Prop where
  gone : ∀ mem, a'.paGet truncate mem input = some none
  others : ∀ key, RefersTo cfg truncate input key → a'.observe = OrderedMap.erase a.observe key
  counted : ∀ key, RefersTo cfg truncate input key →
    a'.paCount = if key ∈ keys a.observe then a.paCount - 1 else a.paCount
  unchanged : (∀ key, ¬ RefersTo cfg truncate input key) → a'.observe = a.observe ∧ a'.paCount = a.paCount

/-- A packed array is given buckets: there is memory for them, and a 16-bit count holds them. -/
def PArray.Hashable (mem : Memory) (a : PArray V) : Prop :=
  a.packed = true → a.size ≤ 16384 ∧ mem .promotion = true

/-- The key is not there, or it is had and the array has buckets or can be given some. -/
def PArray.Removable (mem : Memory) (a : PArray V) (input : KeyValue cfg) : Prop :=
  (∀ key, RefersTo cfg truncate input key → key ∉ keys a.observe) ∨
    a.Hashable mem ∧ (input = .null → mem .emptyKey = true)

/-! ## Promotion -/

theorem PArray.le_promotedBuckets (size rounds buckets : Nat) : buckets ≤ promotedBuckets size rounds buckets := by
  induction rounds generalizing buckets with
  | zero => exact le_rfl
  | succ rounds ih =>
    rw [promotedBuckets]
    split
    · have := ih (buckets * 2)
      omega
    · exact le_rfl

/-- More than 16384 elements ask for more buckets than can be counted. -/
theorem PArray.promotedBuckets_large {size : Nat} (large : 16384 < size) : 65535 < promotedBuckets size 16 8 := by
  have grows : promotedBuckets size 16 8 = promotedBuckets size 3 65536 := by
    simp only [promotedBuckets]
    rw [if_pos (by omega), if_pos (by omega), if_pos (by omega), if_pos (by omega), if_pos (by omega),
      if_pos (by omega), if_pos (by omega), if_pos (by omega), if_pos (by omega), if_pos (by omega),
      if_pos (by omega), if_pos (by omega), if_pos (by omega)]
  have := le_promotedBuckets size 3 65536
  omega

theorem PArray.promoteHash_isSome_iff {a : PArray V} {memory : Bool} :
    (∃ hashed, a.promoteHash memory = some hashed) ↔ a.size ≤ 16384 ∧ memory = true := by
  constructor
  · rintro ⟨hashed, promoted⟩
    unfold promoteHash rehash at promoted
    have bound : ¬ 65535 < if promotedBuckets a.size 16 8 < 8 then 8 else promotedBuckets a.size 16 8 := by
      intro large
      simp only [if_pos large] at promoted
      cases promoted
    constructor
    · by_contra many
      have large : 65535 < promotedBuckets a.size 16 8 := promotedBuckets_large (by omega)
      rw [if_neg (by omega)] at bound
      exact bound large
    · cases memory with
      | true => rfl
      | false =>
        simp only [if_neg bound, Bool.false_eq_true, if_false] at promoted
        cases promoted
  · rintro ⟨small, rfl⟩
    cases promoted : a.promoteHash true with
    | none => cases promoteHash_eq_none small promoted
    | some hashed => exact ⟨hashed, rfl⟩

/-! ## Removing -/

namespace PArray
variable {a a' : PArray V} {mem : Memory} {input : KeyValue cfg}

/-- Where the key is had and there are buckets, the entry is taken out. -/
theorem Wf.paRemove_erases (h : a.Wf) {key : Key}
    (normal : normalizeKey cfg truncate (mem .emptyKey) input = some key) (hashable : a.Hashable mem) :
    ∃ ok a', a.paRemove truncate mem input = some (ok, a') ∧ a'.Wf ∧
      a'.dict.entries = OrderedMap.erase a.dict.entries key := by
  have on_hashed : ∀ b : PArray V, b.Wf → b.dict = a.dict → b.packed = false →
      ∃ ok a', b.removeHashed key = some (ok, a') ∧ a'.Wf ∧
        a'.dict.entries = OrderedMap.erase a.dict.entries key := by
    intro b wf same hashed
    obtain ⟨ok, a', removed, wf', done, failed⟩ := wf.removeHashed hashed key
    rw [same] at done failed
    refine ⟨ok, a', removed, wf', ?_⟩
    cases ok with
    | true =>
      rw [(done rfl).2]
      rfl
    | false => rw [(failed rfl).1, erase_of_not_mem (failed rfl).2]
  simp only [PArray.paRemove, normal]
  cases packed : a.packed with
  | false =>
    simp only [Bool.false_eq_true, if_false]
    exact on_hashed a h rfl packed
  | true =>
    obtain ⟨promoted, e⟩ := promoteHash_isSome_iff.mpr (hashable packed)
    obtain ⟨wf, same, hashed⟩ := h.promoteHash e
    simp only [if_true, e]
    exact on_hashed promoted wf same hashed

/-- Where it is not had, or there are no buckets, nothing is done. -/
theorem paRemove_stays (stuck : ¬ a.Hashable mem ∨ normalizeKey cfg truncate (mem .emptyKey) input = none) :
    a.paRemove truncate mem input = some (false, a) := by
  unfold paRemove
  cases normal : normalizeKey cfg truncate (mem .emptyKey) input with
  | none => rfl
  | some key =>
    rcases stuck with unhashable | no_key
    · have packed : a.packed = true := by
        by_contra hashed
        exact unhashable fun packed => absurd packed hashed
      have refused : a.promoteHash (mem .promotion) = none := by
        rw [← Option.not_isSome_iff_eq_none, Option.isSome_iff_exists]
        intro promoted
        exact unhashable fun _ => promoteHash_isSome_iff.mp promoted
      simp only [packed, if_true, refused]
    · rw [normal] at no_key
      cases no_key

theorem Wf.gone (h : a.Wf) (absent : ∀ key, RefersTo cfg truncate input key → key ∉ keys a.dict.entries)
    (mem : Memory) : a.paGet truncate mem input = some none := by
  obtain ⟨answer, got, found, -⟩ := h.paGet truncate mem input
  cases answer with
  | none => exact got
  | some value =>
    obtain ⟨key, refers, at_key⟩ := found value rfl
    rw [Dict.get, lookup_of_not_mem (absent key refers)] at at_key
    cases at_key

theorem Wf.paCount_eq (h : a.Wf) : a.paCount = a.observe.length := by
  rw [observe_eq, paCount, h.size_dict]

theorem length_erase_of_mem (distinct : (keys a.observe).Nodup) {key : Key} (present : key ∈ keys a.observe) :
    (OrderedMap.erase a.observe key).length = a.observe.length - 1 := by
  obtain ⟨e, listed, rfl⟩ := List.mem_map.mp present
  obtain ⟨before, after, split⟩ := List.append_of_mem listed
  rw [split] at distinct ⊢
  rw [erase_present distinct, List.length_append, List.length_append, List.length_cons]
  omega

/-- An array without the entry that is otherwise the same. -/
theorem Wf.removes (h : a.Wf) (h' : a'.Wf) {key : Key} (refers : RefersTo cfg truncate input key)
    (entries : a'.dict.entries = OrderedMap.erase a.dict.entries key) : a.Removes truncate input a' where
  gone := by
    apply h'.gone
    intro key' refers'
    rw [refers'.unique refers, entries]
    exact not_mem_keys_erase _ _
  others := by
    intro key' refers'
    rw [refers'.unique refers, observe_eq, observe_eq, entries]
  counted := by
    intro key' refers'
    rw [refers'.unique refers, h'.paCount_eq, h.paCount_eq]
    have content : a'.observe = OrderedMap.erase a.observe key := by rw [observe_eq, observe_eq, entries]
    rw [content]
    split
    · next present =>
      have distinct : (keys a.observe).Nodup := by
        rw [observe_eq]
        exact h.distinct
      exact length_erase_of_mem distinct present
    · next absent => rw [erase_of_not_mem absent]
  unchanged := fun no_key => absurd refers (no_key key)

theorem Wf.removes_self (h : a.Wf)
    (absent : ∀ key, RefersTo cfg truncate input key → key ∉ keys a.observe) : a.Removes truncate input a where
  gone := by
    apply h.gone
    intro key refers
    rw [← observe_eq]
    exact absent key refers
  others := fun key refers => (erase_of_not_mem (absent key refers)).symm
  counted := fun key refers => (if_neg (absent key refers)).symm
  unchanged := fun _ => ⟨rfl, rfl⟩

theorem Removes.absent_of_self (h : a.Removes truncate input a) {key : Key}
    (refers : RefersTo cfg truncate input key) : key ∉ keys a.observe := by
  intro present
  rw [h.others key refers] at present
  exact not_mem_keys_erase _ _ present

/-- **`pa_remove` removes exactly when it can**: the key is not there, or it is had and there are
buckets. -/
theorem Wf.removes_iff (h : a.Wf) (mem : Memory) (input : KeyValue cfg) :
    ∃ ok a', a.paRemove truncate mem input = some (ok, a') ∧ a'.Wf ∧
      (a.Removes truncate input a' ↔ a.Removable truncate mem input) := by
  by_cases stuck : ¬ a.Hashable mem ∨ normalizeKey cfg truncate (mem .emptyKey) input = none
  · refine ⟨false, a, paRemove_stays truncate stuck, h, ?_⟩
    constructor
    · exact fun removes => .inl fun key refers => removes.absent_of_self truncate refers
    · rintro (absent | ⟨hashable, had⟩)
      · exact h.removes_self truncate absent
      · rcases stuck with unhashable | no_key
        · exact absurd hashable unhashable
        · apply h.removes_self truncate
          intro key refers
          rw [(normalizeKey_eq_some cfg truncate _ input key).mpr ⟨refers, had⟩] at no_key
          cases no_key
  · push Not at stuck
    obtain ⟨hashable, has_key⟩ := stuck
    obtain ⟨key, normal⟩ := Option.ne_none_iff_exists'.mp has_key
    obtain ⟨refers, had⟩ := (normalizeKey_eq_some cfg truncate _ input key).mp normal
    obtain ⟨ok, a', removed, wf', entries⟩ := h.paRemove_erases truncate normal hashable
    exact ⟨ok, a', removed, wf', iff_of_true (h.removes truncate wf' refers entries) (.inr ⟨hashable, had⟩)⟩

theorem rehash_packed {b : PArray V} {bucketCount : Nat} {memory : Bool}
    (rehashed : a.rehash bucketCount memory = some b) : b.packed = false := by
  unfold rehash at rehashed
  generalize (if bucketCount < 8 then 8 else bucketCount) = count at rehashed
  by_cases large : 65535 < count
  · rw [if_pos large] at rehashed
    cases rehashed
  · rw [if_neg large] at rehashed
    cases memory with
    | false => cases rehashed
    | true =>
      cases rehashed
      rfl

theorem paClone_packed {copy : PArray V} (cloned : a.paClone mem = some copy) : copy.packed = a.packed := by
  unfold paClone at cloned
  cases fresh : (paNew mem a.capacity : Option (PArray V)) with
  | none => simp only [fresh, reduceCtorEq] at cloned
  | some blank =>
    cases packed : a.packed with
    | true =>
      simp only [fresh, packed, if_true, Option.some.injEq] at cloned
      rw [← cloned]
    | false =>
      simp only [fresh, packed, Bool.false_eq_true, if_false] at cloned
      exact rehash_packed cloned

/-- What `execute_array_unset` writes to stands for the same, and can be given buckets as well. -/
theorem Wf.arrayForWrite {writable : PArray V} {refcnt : Nat} (h : a.Wf)
    (written : a.arrayForWrite mem refcnt = some writable) :
    writable.Wf ∧ writable.dict = a.dict ∧ writable.packed = a.packed := by
  unfold PArray.arrayForWrite at written
  split at written
  · cases written
    exact ⟨h, rfl, rfl⟩
  · obtain ⟨wf, same⟩ := h.paClone written
    exact ⟨wf, same, paClone_packed written⟩

section Same
variable {b : PArray V} (wf : a.Wf) (wf' : b.Wf) (same : b.dict = a.dict)
include wf wf' same

theorem Wf.paCount_same : b.paCount = a.paCount := by
  rw [wf.paCount_eq, wf'.paCount_eq, observe_eq, observe_eq, same]

theorem Wf.removes_same : b.Removes truncate input a' ↔ a.Removes truncate input a' := by
  have count := wf.paCount_same wf' same
  have content : b.observe = a.observe := by rw [observe_eq, observe_eq, same]
  constructor
  · rintro ⟨gone, others, counted, unchanged⟩
    rw [count, content] at *
    exact ⟨gone, others, counted, unchanged⟩
  · rintro ⟨gone, others, counted, unchanged⟩
    rw [← count, ← content] at *
    exact ⟨gone, others, counted, unchanged⟩

theorem Wf.removable_same (packed : b.packed = a.packed) :
    b.Removable truncate mem input ↔ a.Removable truncate mem input := by
  have content : b.observe = a.observe := by rw [observe_eq, observe_eq, same]
  have size : b.size = a.size := wf.paCount_same wf' same
  unfold Removable Hashable
  rw [content, size, packed]

end Same

end PArray

/-- **An element is removed exactly when it can be**, by `pa_remove` and by `unset`: its key must be had, and a packed
array given buckets. Otherwise it stays, and `unset` reports nothing. -/
theorem removal_iff (calls : List (ArrayCall cfg V × Memory)) {answers : List (ArrayAnswer V)}
    {arrays : List (PArray V)} (ran : PArray.run truncate [] calls = some (answers, arrays)) {a : PArray V}
    (listed : a ∈ arrays) (mem : Memory) (input : KeyValue cfg) :
    (∃ ok a', a.paRemove truncate mem input = some (ok, a') ∧
      (a.Removes truncate input a' ↔ a.Removable truncate mem input)) ∧
    ∀ refcnt, ∃ outcome, executeArrayUnset truncate mem (.array a refcnt) input = some outcome ∧
      ∀ a', outcome = .ok a' → (a.Removes truncate input a' ↔ a.Removable truncate mem input) := by
  obtain ⟨answers', arrays', ran', wf, -⟩ := PArray.run_refines truncate calls [] fun a listed => by cases listed
  rw [ran] at ran'
  cases ran'
  have h : a.Wf := wf a listed
  constructor
  · obtain ⟨ok, a', removed, -, removes⟩ := h.removes_iff truncate mem input
    exact ⟨ok, a', removed, removes⟩
  · intro refcnt
    cases written : a.arrayForWrite mem refcnt with
    | none =>
      refine ⟨.error (ascii "out of memory separating array"), by simp only [executeArrayUnset, written], ?_⟩
      intro a' failed
      cases failed
    | some writable =>
      obtain ⟨wf', same, packed⟩ := h.arrayForWrite written
      obtain ⟨ok, a', removed, -, removes⟩ := wf'.removes_iff truncate mem input
      refine ⟨.ok a', by simp only [executeArrayUnset, written, removed, Option.map_some], ?_⟩
      rintro a'' ⟨⟩
      rw [← h.removes_same truncate wf' same, ← h.removable_same truncate wf' same packed]
      exact removes

end Removal

/-- The calls that make an array of one element, under 0. -/
def pushOnce : List (ArrayCall PArray.integerBuild Nat × Memory) := [(.new 0, granted), (.push 0 7, granted)]

/-- The array they make. -/
def oneElement : PArray Nat := ⟨true, 1, 8, 1, [⟨some (.int 0, 7), emptyBucket⟩], []⟩

theorem oneElement_reached :
    PArray.run PArray.noFloatKeys [] pushOnce = some ([.status true, .status true], [oneElement]) := by
  rfl

theorem oneElement_removal : (∃ ok a', oneElement.paRemove PArray.noFloatKeys granted (.int 0) = some (ok, a') ∧
      (oneElement.Removes PArray.noFloatKeys (.int 0) a' ↔ oneElement.Removable PArray.noFloatKeys granted (.int 0))) ∧
    ∀ refcnt, ∃ outcome, executeArrayUnset PArray.noFloatKeys granted (.array oneElement refcnt) (.int 0) =
        some outcome ∧ ∀ a', outcome = .ok a' → (oneElement.Removes PArray.noFloatKeys (.int 0) a' ↔
        oneElement.Removable PArray.noFloatKeys granted (.int 0)) :=
  removal_iff PArray.noFloatKeys pushOnce oneElement_reached (.head _) granted (.int 0)

/-- There is memory for everything but the buckets of a promotion. -/
def noBuckets : Memory := fun site => site != .promotion

/-- Without memory for buckets an element stays, and `unset` reports nothing. -/
theorem unset_leaves_element : executeArrayUnset PArray.noFloatKeys noBuckets (.array oneElement 2) (.int 0) =
        some (.ok oneElement) ∧ oneElement.observe = [(.int 0, 7)] ∧
      ¬ oneElement.Removes PArray.noFloatKeys (.int 0) oneElement := by
  refine ⟨rfl, by decide, fun removes => ?_⟩
  have absent := removes.absent_of_self _ (.int 0)
  exact absurd (by decide) absent

end PhpPico
