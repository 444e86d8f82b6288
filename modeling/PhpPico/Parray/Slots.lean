import PhpPico.Parray.Refine
import Mathlib.Data.Nat.Log

/-!
# Entry slots

A removed entry keeps its slot. While changes go on, an array that stays small runs out of slots as soon as more
entries have been added than its capacity can grow to by doubling.
-/

namespace PhpPico
open Option OrderedMap

/-! ## Changes without end -/

/-- A change of one array: an insertion or a removal. -/
inductive Change (cfg : Config) (V : Type) where
  | set (key : KeyValue cfg) (value : V)
  | push (value : V)
  | remove (key : KeyValue cfg)

section Changes
variable {cfg : Config} {V : Type} (truncate : BitVec cfg.floatWidth → Option Int)

/-- There is memory for everything. -/
def granted : Memory := fun _ => true

/-- The call for a change. -/
def PArray.change (a : PArray V) : Change cfg V → Option (Bool × PArray V)
  | .set key value => a.paSet truncate granted key value
  | .push value => a.paPush truncate granted value
  | .remove key => a.paRemove truncate granted key

/-- The array after so many changes. -/
def PArray.after (a : PArray V) (changes : Nat → Change cfg V) : Nat → Option (PArray V)
  | 0 => some a
  | n + 1 => (a.after changes n).bind fun b => (b.change truncate (changes n)).map Prod.snd

/-- An insertion, at a key that a value stands for. -/
def Change.Inserts : Change cfg V → Prop
  | .set key _ => ∃ k, RefersTo cfg truncate key k
  | .push _ => True
  | .remove _ => False

/-- No insertion fails. -/
def PArray.InsertionsSucceed (a : PArray V) (changes : Nat → Change cfg V) : Prop :=
  ∀ n, ∃ b, a.after truncate changes n = some b ∧
    ((changes n).Inserts truncate → ∃ b', b.change truncate (changes n) = some (true, b'))

/-- A change of the map. -/
def Dict.change (d : Dict V) : Change cfg V → Dict V
  | .set key value => (normalizeKey cfg truncate true key).elim d fun k => d.set cfg k value
  | .push value => d.set cfg (.int d.next) value
  | .remove key => (normalizeKey cfg truncate true key).elim d d.erase

/-- The map after so many changes. -/
def Dict.after (d : Dict V) (changes : Nat → Change cfg V) : Nat → Dict V
  | 0 => d
  | n + 1 => (d.after changes n).change truncate (changes n)

end Changes

/-- The last of the capacities that doubling leads to: 16 bits hold it. -/
def slots (capacity : Nat) : Nat := if capacity = 0 then 32768 else capacity * 2 ^ Nat.log 2 (65535 / capacity)

/-! ## Growing -/

theorem le_slots (capacity : Nat) : capacity ≤ slots capacity := by
  unfold slots
  split
  · omega
  · exact Nat.le_mul_of_pos_right _ (Nat.two_pow_pos _)

/-- The next capacity. -/
def doubled (capacity : Nat) : Nat := if capacity = 0 then 8 else capacity * 2

theorem log_step {capacity : Nat} (pos : capacity ≠ 0) (fits : capacity * 2 ≤ 65535) :
    Nat.log 2 (65535 / capacity) = Nat.log 2 (65535 / (capacity * 2)) + 1 := by
  have two_le : 2 ≤ 65535 / capacity := (Nat.le_div_iff_mul_le (pos_of_ne_zero pos)).mpr (by omega)
  rw [← Nat.div_div_eq_div_mul]
  exact Nat.log_of_one_lt_of_le (by omega) two_le

theorem slots_doubled {capacity : Nat} (fits : doubled capacity ≤ 65535) : slots (doubled capacity) = slots capacity := by
  unfold doubled at fits ⊢
  by_cases zero : capacity = 0
  · have log : Nat.log 2 (65535 / 8) = 12 := Nat.log_eq_of_pow_le_of_lt_pow (by omega) (by omega)
    rw [if_pos zero, zero, slots, slots, if_neg (by omega), if_pos rfl, log]
    omega
  · rw [if_neg zero] at fits ⊢
    rw [slots, slots, if_neg (by omega), if_neg zero, log_step zero fits, pow_succ]
    ring

theorem slots_full {capacity : Nat} (full : 65535 < doubled capacity) (le : capacity ≤ 65535) :
    slots capacity = capacity := by
  have pos : capacity ≠ 0 := by
    rintro rfl
    exact absurd full (by decide)
  rw [doubled, if_neg pos] at full
  have one : 65535 / capacity = 1 := Nat.div_eq_of_lt_le (by omega) (by omega)
  rw [slots, if_neg pos, one, Nat.log_one_right, Nat.pow_zero, mul_one]

namespace PArray
variable {V : Type} {a a' : PArray V}

theorem grownCapacity_succ (capacity : Nat) : grownCapacity capacity (capacity + 1) = doubled capacity := by
  unfold grownCapacity doubled
  dsimp only
  split <;> split <;> omega

theorem ensureEntries_succ (full : a.used = a.capacity) (memory : Bool) :
    a.ensureEntries (a.used + 1) memory =
      if 65535 < doubled a.capacity then none
      else if memory then some { a with capacity := doubled a.capacity } else none := by
  unfold ensureEntries
  rw [full, if_neg (by omega), grownCapacity_succ]

/-- The slots there can be stay the same when an array grows. -/
theorem Wf.slots_ensureEntries {memory : Bool} (h : a.Wf) (e : a.ensureEntries (a.used + 1) memory = some a') :
    slots a'.capacity = slots a.capacity := by
  by_cases room : a.used + 1 ≤ a.capacity
  · rw [PArray.ensureEntries, if_pos room] at e
    rw [some.inj e]
  · have le := h.used_le
    rw [ensureEntries_succ (by omega)] at e
    split at e
    · cases e
    · next fits =>
      split at e
      · rw [← some.inj e]
        exact slots_doubled (by omega)
      · cases e

/-- An array grows while there can be more slots than are used. -/
theorem Wf.ensureEntries_granted (h : a.Wf) (free : a.used < slots a.capacity) :
    ∃ grown, a.ensureEntries (a.used + 1) true = some grown := by
  by_cases room : a.used + 1 ≤ a.capacity
  · exact ⟨a, by rw [PArray.ensureEntries, if_pos room]⟩
  · have le := h.used_le
    rw [ensureEntries_succ (by omega), if_pos rfl]
    by_cases beyond : 65535 < doubled a.capacity
    · rw [slots_full beyond h.capacity_le] at free
      omega
    · exact ⟨_, if_neg beyond⟩

/-- It never uses more. -/
theorem Wf.used_le_slots (h : a.Wf) : a.used ≤ slots a.capacity := h.used_le.trans (le_slots _)

theorem Wf.rehash_slots {bucketCount : Nat} {memory : Bool} (h : a.Wf) (e : a.rehash bucketCount memory = some a') :
    slots a'.capacity = slots a.capacity := by
  obtain ⟨-, -, capacity, -⟩ := rehash_eq_some (h.used_le.trans h.capacity_le) e
  rw [capacity]

/-! ## One change -/

section Adding
variable (cfg : Config) {key : Key} (value : V)

/-- The slots there can be stay the same, and an entry is added if there is one left. -/
structure Fits (a : PArray V) (outcome : Bool × PArray V) : Prop where
  slots : slots outcome.2.capacity = slots a.capacity
  added : a.used < PhpPico.slots a.capacity → outcome.1 = true

theorem Fits.trans {b : PArray V} {outcome : Bool × PArray V} (fits : Fits b outcome)
    (slots : PhpPico.slots b.capacity = PhpPico.slots a.capacity) (used : b.used = a.used) : Fits a outcome :=
  ⟨fits.slots.trans slots, fun free => fits.added (by rw [slots, used]; exact free)⟩

@[simp] theorem append_capacity : (a.append cfg key value).capacity = a.capacity := by
  unfold append
  split <;> rfl

theorem Wf.addEntry_fits (h : a.Wf) : Fits a (a.addEntry cfg granted key value) := by
  unfold PArray.addEntry
  cases e : a.ensureEntries (a.used + 1) (granted .entries) with
  | none =>
    refine ⟨rfl, fun free => ?_⟩
    obtain ⟨grown, some⟩ := h.ensureEntries_granted free
    rw [show granted .entries = true from rfl, some] at e
    cases e
  | some grown => exact ⟨by rw [append_capacity, h.slots_ensureEntries e], fun _ => rfl⟩

theorem Wf.addHashed_fits (h : a.Wf) (small : a.size ≤ 16384) : Fits a (a.addHashed cfg granted key value) := by
  unfold PArray.addHashed
  split
  · next crowded =>
    cases e : a.rehash (a.buckets.length * 2) (granted .buckets) with
    | none => cases rehash_eq_none (by omega) e
    | some roomy =>
      obtain ⟨wf, same, -⟩ := h.rehash e
      exact (wf.addEntry_fits cfg value).trans (h.rehash_slots e) (congrArg Dict.added same)
  · exact h.addEntry_fits cfg value

theorem Wf.addKey_fits (h : a.Wf) (small : a.size ≤ 16384) {outcome : Bool × PArray V}
    (adds : a.addKey cfg granted key value = some outcome) : Fits a outcome := by
  unfold PArray.addKey at adds
  split at adds
  · cases e : a.promoteHash (granted .promotion) with
    | none => cases promoteHash_eq_none small e
    | some promoted =>
      obtain ⟨wf, same, -⟩ := h.promoteHash e
      obtain ⟨found, walk, -⟩ := wf.findEntry key
      have size : promoted.size = a.size := by rw [wf.size_dict, same, h.size_dict]
      simp only [e, walk] at adds
      rw [← some.inj adds]
      exact (wf.addHashed_fits cfg value (by omega)).trans (h.rehash_slots e) (congrArg Dict.added same)
  · rw [← some.inj adds]
    exact h.addHashed_fits cfg value small

end Adding

section Changing
variable {cfg : Config} (truncate : BitVec cfg.floatWidth → Option Int)

/-- A change is made, or there is nothing to change, or the slots are used up. -/
structure Changes (a : PArray V) (c : Change cfg V) (outcome : Bool × PArray V) : Prop where
  wf : outcome.2.Wf
  slots : slots outcome.2.capacity = slots a.capacity
  done : outcome.1 = true → outcome.2.dict = a.dict.change truncate c
  failed : outcome.1 = false → outcome.2.dict = a.dict ∧ (¬ c.Inserts truncate ∧ a.dict.change truncate c = a.dict ∨
      c.Inserts truncate ∧ PhpPico.slots a.capacity < (a.dict.change truncate c).added)

theorem Wf.change_set (h : a.Wf) (small : a.size ≤ 16384) (input : KeyValue cfg) (value : V) :
    ∃ outcome, a.paSet truncate granted input value = some outcome ∧ Changes truncate a (.set input value) outcome := by
  unfold PArray.paSet
  cases normal : normalizeKey cfg truncate (granted .emptyKey) input with
  | none =>
    have no_key : ¬ (Change.set input value).Inserts truncate := by
      rintro ⟨key, refers⟩
      rcases normalizeKey_none truncate normal with none | none
      · exact none key refers
      · cases none
    have same : a.dict.change truncate (.set input value) = a.dict := by
      rw [Dict.change, show normalizeKey cfg truncate true input = none from normal, elim_none]
    exact ⟨_, rfl, h, rfl, fun c => (by cases c), fun _ => ⟨rfl, .inl ⟨no_key, same⟩⟩⟩
  | some key =>
    have inserts : (Change.set input value).Inserts truncate :=
      ⟨key, ((normalizeKey_eq_some cfg truncate _ input key).mp normal).1⟩
    have changed : a.dict.change truncate (.set input value) = a.dict.set cfg key value := by
      rw [Dict.change, show normalizeKey cfg truncate true input = some key from normal, elim_some]
    obtain ⟨found, walk, missing, present⟩ := h.findEntry key
    simp only [walk]
    cases found with
    | none =>
      have fresh := missing rfl
      obtain ⟨outcome, e, adds⟩ := h.addKey value cfg granted fresh
      have fits := h.addKey_fits cfg value small e
      refine ⟨outcome, e, adds.wf, fits.slots, fun c => by rw [changed, adds.done c], fun c => ?_⟩
      refine ⟨(adds.failed c).1, .inr ⟨inserts, ?_⟩⟩
      have full : ¬ a.used < PhpPico.slots a.capacity := fun free => by
        rw [fits.added free] at c
        cases c
      have added : (a.dict.set cfg key value).added = a.used + 1 := by
        rw [Dict.set, if_neg (show key ∉ keys a.dict.entries from fresh)]
        rfl
      rw [changed, added]
      omega
    | some p =>
      obtain ⟨i, link⟩ := p
      obtain ⟨old, cell⟩ := present i link rfl
      obtain ⟨wf, same⟩ := h.setValue cfg value cell
      exact ⟨_, rfl, wf, rfl, fun _ => by rw [changed, same], fun c => by cases c⟩

theorem removeHashed_capacity {key : Key} {outcome : Bool × PArray V} (e : a.removeHashed key = some outcome) :
    outcome.2.capacity = a.capacity := by
  unfold PArray.removeHashed at e
  split at e
  · cases e
  · rw [← some.inj e]
  · next index link _ =>
    rw [← some.inj e]
    rcases link with - | - | j <;> rfl

theorem Wf.change_remove (h : a.Wf) (small : a.size ≤ 16384) (input : KeyValue cfg) :
    ∃ outcome, a.paRemove truncate granted input = some outcome ∧ Changes truncate a (.remove input) outcome := by
  unfold PArray.paRemove
  cases normal : normalizeKey cfg truncate (granted .emptyKey) input with
  | none =>
    have same : a.dict.change truncate (.remove input) = a.dict := by
      rw [Dict.change, show normalizeKey cfg truncate true input = none from normal, elim_none]
    exact ⟨_, rfl, h, rfl, fun c => (by cases c), fun _ => ⟨rfl, .inl ⟨id, same⟩⟩⟩
  | some key =>
    have changed : a.dict.change truncate (.remove input) = a.dict.erase key := by
      rw [Dict.change, show normalizeKey cfg truncate true input = some key from normal, elim_some]
    have hashed : ∃ b : PArray V, (if a.packed then a.promoteHash (granted .promotion) else some a) = some b ∧
        b.Wf ∧ b.dict = a.dict ∧ b.packed = false ∧ slots b.capacity = slots a.capacity := by
      cases packed : a.packed with
      | false => exact ⟨a, by simp, h, rfl, packed, rfl⟩
      | true =>
        cases e : a.promoteHash (granted .promotion) with
        | none => cases promoteHash_eq_none small e
        | some promoted =>
          obtain ⟨wf, same, hashed⟩ := h.promoteHash e
          exact ⟨promoted, by simp, wf, same, hashed, h.rehash_slots e⟩
    obtain ⟨b, e, wf, same, hashed, slots⟩ := hashed
    obtain ⟨ok, a', removes, wf', done, failed⟩ := wf.removeHashed hashed key
    simp only [e, removes]
    refine ⟨_, rfl, wf', (congrArg PhpPico.slots (removeHashed_capacity removes)).trans slots, fun c => ?_, fun c => ?_⟩
    · rw [changed, (done c).2, same]
    · obtain ⟨unchanged, absent⟩ := failed c
      rw [same] at unchanged absent
      refine ⟨unchanged, .inl ⟨id, ?_⟩⟩
      rw [changed, Dict.erase, erase_of_not_mem absent]

/-- **One change** of a small array, with memory available. -/
theorem Wf.change (h : a.Wf) (small : a.size ≤ 16384) (c : Change cfg V) :
    ∃ outcome, a.change truncate c = some outcome ∧ Changes truncate a c outcome := by
  cases c with
  | set input value => exact h.change_set truncate small input value
  | push value =>
    -- a push is a set at the next index
    obtain ⟨outcome, e, changes⟩ := h.change_set truncate small (.int a.nextIndex) value
    refine ⟨outcome, e, changes.wf, changes.slots, changes.done, fun c => ?_⟩
    obtain ⟨same, ⟨no_key, -⟩ | full⟩ := changes.failed c
    · exact absurd ⟨.int a.nextIndex, .int _⟩ no_key
    · exact ⟨same, .inr ⟨trivial, full.2⟩⟩
  | remove input => exact h.change_remove truncate small input

end Changing

/-! ## All changes -/

section Runs
variable {cfg : Config} (truncate : BitVec cfg.floatWidth → Option Int) (changes : Nat → Change cfg V)

/-- The number of entries never gets large. -/
def StaysSmall (a : PArray V) : Prop := ∀ n b, a.after truncate changes n = some b → b.paCount ≤ 16384

/-- After so many changes the array stands for the map after them. -/
structure Follows (a b : PArray V) (n : Nat) : Prop where
  wf : b.Wf
  slots : slots b.capacity = slots a.capacity
  dict : b.dict = a.dict.after truncate changes n

variable {truncate changes}

theorem after_succ {n : Nat} {b : PArray V} {outcome : Bool × PArray V} (reached : a.after truncate changes n = some b)
    (e : b.change truncate (changes n) = some outcome) : a.after truncate changes (n + 1) = some outcome.2 := by
  rw [after, reached, bind_some, e, map_some]

/-- While there is a slot for each entry, the array follows the map. -/
theorem Wf.follows (h : a.Wf) (small : a.StaysSmall truncate changes)
    (room : ∀ m b, a.after truncate changes m = some b → Follows truncate changes a b m →
      (changes m).Inserts truncate → (a.dict.after truncate changes (m + 1)).added ≤ slots a.capacity) (n : Nat) :
    ∃ b, a.after truncate changes n = some b ∧ Follows truncate changes a b n := by
  induction n with
  | zero => exact ⟨a, rfl, h, rfl, rfl⟩
  | succ n ih =>
    obtain ⟨b, reached, follows⟩ := ih
    obtain ⟨⟨ok, b'⟩, e, change⟩ := follows.wf.change truncate (small n b reached) (changes n)
    have slots := change.slots.trans follows.slots
    refine ⟨b', after_succ reached e, change.wf, slots, ?_⟩
    rw [Dict.after, ← follows.dict]
    cases ok with
    | true => exact change.done rfl
    | false =>
      obtain ⟨same, ⟨-, unchanged⟩ | ⟨inserts, full⟩⟩ := change.failed rfl
      · rw [unchanged, ← same]
      · have enough := room n b reached follows inserts
        rw [Dict.after, ← follows.dict, ← follows.slots] at enough
        omega

theorem Wf.added_le (h : a.Wf) (small : a.StaysSmall truncate changes) (all : a.InsertionsSucceed truncate changes)
    (n : Nat) : (a.dict.after truncate changes n).added ≤ slots a.capacity := by
  have room (m : Nat) (b : PArray V) (reached : a.after truncate changes m = some b)
      (follows : Follows truncate changes a b m) (inserts : (changes m).Inserts truncate) :
      (a.dict.after truncate changes (m + 1)).added ≤ slots a.capacity := by
    obtain ⟨c, reached', succeeds⟩ := all m
    rw [reached] at reached'
    obtain ⟨b', e⟩ := succeeds inserts
    rw [← some.inj reached'] at e
    obtain ⟨outcome, e', change⟩ := follows.wf.change truncate (small m b reached) (changes m)
    rw [e] at e'
    rw [← some.inj e'] at change
    have used := change.wf.used_le_slots
    rw [Dict.after, ← follows.dict, ← change.done rfl, ← follows.slots, ← change.slots]
    exact used
  obtain ⟨b, -, follows⟩ := h.follows small room n
  rw [← follows.dict, ← follows.slots]
  exact follows.wf.used_le_slots

/-- **A small array never runs out of slots** if and only if the entries ever added to it are no more than
the capacity can grow to. -/
theorem insertionsSucceed_iff (h : a.Wf) (small : a.StaysSmall truncate changes) :
    a.InsertionsSucceed truncate changes ↔ ∀ n, (a.dict.after truncate changes n).added ≤ slots a.capacity := by
  constructor
  · exact h.added_le small
  · intro enough n
    obtain ⟨b, reached, follows⟩ := h.follows small (fun m _ _ _ _ => enough (m + 1)) n
    refine ⟨b, reached, fun inserts => ?_⟩
    obtain ⟨⟨ok, b'⟩, e, change⟩ := follows.wf.change truncate (small n b reached) (changes n)
    cases ok with
    | true => exact ⟨b', e⟩
    | false =>
      obtain ⟨-, ⟨none, -⟩ | ⟨-, full⟩⟩ := change.failed rfl
      · exact absurd inserts none
      · have room := enough (n + 1)
        rw [Dict.after, ← follows.dict, ← follows.slots] at room
        omega

end Runs

/-! ## One key -/

/-- A build without floats. -/
def integerBuild : Config := ⟨false, false, false, false, false⟩

/-- No float is a key of a build without floats. -/
def noFloatKeys : BitVec integerBuild.floatWidth → Option Int := fun _ => none

/-- Changes at the key 0. -/
def atZero (sets : Nat → Bool) (n : Nat) : Change integerBuild Unit :=
  if sets n then .set (.int 0) () else .remove (.int 0)

/-- The map has at most the entry at 0. -/
def OnlyZero (d : Dict Unit) : Prop := d.entries = [] ∨ d.entries = [(.int 0, ())]

theorem OnlyZero.change {d : Dict Unit} (h : OnlyZero d) (sets : Nat → Bool) (n : Nat) :
    OnlyZero (d.change (fun _ => none) (atZero sets n)) := by
  obtain ⟨entries, next, added⟩ := d
  unfold atZero
  cases sets n with
  | true => rcases h with rfl | rfl <;> exact .inr rfl
  | false => rcases h with rfl | rfl <;> exact .inl rfl

theorem blank_staysSmall (sets : Nat → Bool) : blank.StaysSmall (fun _ => none) (atZero sets) := by
  have small (b : PArray Unit) (wf : b.Wf) (only : OnlyZero b.dict) : b.size ≤ 16384 := by
    rw [wf.size_dict]
    rcases only with e | e <;> rw [e] <;> decide
  have reached (n : Nat) : ∃ b, blank.after (fun _ => none) (atZero sets) n = some b ∧ b.Wf ∧ OnlyZero b.dict := by
    induction n with
    | zero => exact ⟨blank, rfl, blank_wf, .inl rfl⟩
    | succ n ih =>
      obtain ⟨b, reached, wf, only⟩ := ih
      obtain ⟨⟨ok, b'⟩, e, change⟩ := wf.change _ (small b wf only) (atZero sets n)
      refine ⟨b', after_succ reached e, change.wf, ?_⟩
      cases ok with
      | true => rw [change.done rfl]; exact only.change sets n
      | false => rw [(change.failed rfl).1]; exact only
  intro n b at_n
  obtain ⟨b', at_n', wf, only⟩ := reached n
  rw [at_n] at at_n'
  rw [some.inj at_n']
  exact small b' wf only

/-- The same key is set again and again. -/
theorem overwriting_succeeds : blank.InsertionsSucceed (fun _ => none) (atZero fun _ => true) := by
  refine (insertionsSucceed_iff blank_wf (blank_staysSmall _)).mpr fun n => ?_
  have one : ∀ n, blank.dict.after (fun _ => none) (atZero fun _ => true) (n + 1) = ⟨[(.int 0, ())], 1, 1⟩ := by
    intro n
    induction n with
    | zero => rfl
    | succ n ih => rw [Dict.after, ih]; rfl
  cases n with
  | zero => exact Nat.zero_le _
  | succ n => rw [one]; decide

/-- A key is set and removed again and again: each time it takes another slot. -/
theorem alternation_fails : ¬ (blank.StaysSmall (fun _ => none) (atZero fun n => n % 2 == 0) →
    blank.InsertionsSucceed (fun _ => none) (atZero fun n => n % 2 == 0)) := by
  intro claimed
  have small := blank_staysSmall fun n => n % 2 == 0
  have added (n : Nat) : (blank.dict.after (fun _ => none) (atZero fun n => n % 2 == 0) (2 * n)).entries = [] ∧
      (blank.dict.after (fun _ => none) (atZero fun n => n % 2 == 0) (2 * n)).added = n := by
    induction n with
    | zero => exact ⟨rfl, rfl⟩
    | succ n ih =>
      have even : (2 * n) % 2 = 0 := by omega
      have odd : (2 * n + 1) % 2 = 1 := by omega
      rw [show 2 * (n + 1) = 2 * n + 1 + 1 from rfl, Dict.after, Dict.after, atZero, atZero, even, odd]
      revert ih
      generalize blank.dict.after (fun _ => none) (atZero fun n => n % 2 == 0) (2 * n) = d
      rintro ⟨empty, count⟩
      obtain ⟨entries, next, added⟩ := d
      cases empty
      cases count
      exact ⟨rfl, rfl⟩
  have limit := blank_wf.added_le small (claimed small) (2 * 32769)
  rw [(added 32769).2] at limit
  exact absurd limit (by decide)

end PArray
end PhpPico
