import PhpPico.Parray.Refine

/-!
# Walking along arrays

The functions of `arrays.c` go through an array with `pa_entry_at`, from one position to the next.
-/

namespace PhpPico
open List OrderedMap

section Arrays
variable {V : Type}

/-- What the body of a loop says: whether the loop goes on, and the state. -/
abbrev Round (σ : Type) := Option (Bool × σ)

namespace PArray
variable {σ : Type}

/-- A loop `while (position < array->used) { if (!pa_entry_at(array, position, ...)) break; ... }`. The body gets the
position, the key and the value. -/
def eachEntry (a : PArray V) (body : σ → Nat × Key × V → Round σ) : Nat → Nat → σ → Option σ
  | 0, _, state => some state
  | calls + 1, position, state =>
    match a.paEntryAt position with
    | none => some state
    | some (key, value, following) =>
      match body state (position, key, value) with
      | none => none
      | some (false, state) => some state
      | some (true, state) => eachEntry a body calls following state

/-- The loop from the first entry. -/
def walk (a : PArray V) (body : σ → Nat × Key × V → Round σ) (state : σ) : Option σ :=
  a.eachEntry body (a.used + 1) 0 state

/-- The same loop over a list. -/
def rounds {α : Type} (body : σ → α → Round σ) : List α → σ → Option σ
  | [], state => some state
  | x :: rest, state =>
    match body state x with
    | none => none
    | some (false, state) => some state
    | some (true, state) => rounds body rest state

/-- The entries behind `index`, each with the position of the loop when it comes to it. -/
def visits : List (Option (Key × V)) → Nat → Nat → List (Nat × Key × V)
  | [], _, _ => []
  | none :: rest, index, position => visits rest (index + 1) position
  | some (key, value) :: rest, index, position => (position, key, value) :: visits rest (index + 1) (index + 1)

/-- The entries of an array, each with the position of the loop when it comes to it. -/
def visited (a : PArray V) : List (Nat × Key × V) := visits a.cells 0 0

theorem visits_entries (cells : List (Option (Key × V))) (index position : Nat) :
    (visits cells index position).map Prod.snd = live cells := by
  induction cells generalizing index position with
  | nil => rfl
  | cons cell rest ih =>
    cases cell with
    | none => exact ih (index + 1) position
    | some e =>
      have here : live (some e :: rest) = e :: live rest := reduceOption_cons_of_some e rest
      rw [visits, map_cons, ih, here]

theorem visited_entries (a : PArray V) : a.visited.map Prod.snd = a.dict.entries := visits_entries a.cells 0 0

theorem visits_increasing (cells : List (Option (Key × V))) {index position : Nat} (start : position ≤ index) :
    (visits cells index position).Pairwise (fun e e' => e.1 < e'.1) ∧
      ∀ e ∈ visits cells index position, position ≤ e.1 := by
  induction cells generalizing index position with
  | nil => exact ⟨Pairwise.nil, fun e listed => absurd listed not_mem_nil⟩
  | cons cell rest ih =>
    cases cell with
    | none => exact ih (Nat.le_succ_of_le start)
    | some e =>
      obtain ⟨increasing, behind⟩ := ih (le_refl (index + 1))
      refine ⟨pairwise_cons.mpr ⟨fun e' listed => ?_, increasing⟩, fun e' listed => ?_⟩
      · have := behind e' listed
        omega
      · rcases mem_cons.mp listed with rfl | later
        · exact le_rfl
        · have := behind e' later
          omega

theorem visited_increasing (a : PArray V) : a.visited.Pairwise (fun e e' => e.1 < e'.1) :=
  (visits_increasing a.cells (le_refl 0)).1

/-- What `pa_entry_at` finds from an index on is the first entry the loop visits there. -/
theorem firstLive_visits (entries : List (PEntry V)) (index position : Nat) :
    match firstLive entries index with
    | none => visits (entries.map PEntry.cell) index position = []
    | some (key, value, following) => ∃ d, d < entries.length ∧ following = index + d + 1 ∧
        visits (entries.map PEntry.cell) index position =
          (position, key, value) :: visits ((entries.drop (d + 1)).map PEntry.cell) following following := by
  induction entries generalizing index with
  | nil => rfl
  | cons e rest ih =>
    obtain ⟨cell, link⟩ := e
    cases cell with
    | some kv => exact ⟨0, Nat.succ_pos _, rfl, rfl⟩
    | none =>
      have step := ih (index + 1)
      have skipped : firstLive (⟨none, link⟩ :: rest) index = firstLive rest (index + 1) := rfl
      rw [skipped]
      cases found : firstLive rest (index + 1) with
      | none =>
        rw [found] at step
        exact step
      | some r =>
        rw [found] at step
        obtain ⟨d, lt, following, shows⟩ := step
        refine ⟨d + 1, Nat.succ_lt_succ lt, ?_, shows⟩
        rw [following]
        omega

/-- **The loop visits the entries one after another.** -/
theorem eachEntry_eq (a : PArray V) (body : σ → Nat × Key × V → Round σ) (calls position : Nat) (state : σ)
    (le : position ≤ a.used) (enough : a.used - position < calls) : a.eachEntry body calls position state =
      rounds body (visits ((a.entries.drop position).map PEntry.cell) position position) state := by
  induction calls generalizing position state with
  | zero => omega
  | succ calls ih =>
    have step := firstLive_visits (a.entries.drop position) position position
    rw [eachEntry, paEntryAt]
    cases found : firstLive (a.entries.drop position) position with
    | none =>
      rw [found] at step
      rw [step]
      rfl
    | some r =>
      obtain ⟨key, value, following⟩ := r
      rw [found] at step
      obtain ⟨d, lt, next, shows⟩ := step
      rw [length_drop] at lt
      have used : a.used = a.entries.length := rfl
      rw [shows, rounds]
      dsimp only
      cases body state (position, key, value) with
      | none => rfl
      | some outcome =>
        obtain ⟨more, state⟩ := outcome
        cases more with
        | false => rfl
        | true =>
          rw [drop_drop, next]
          have rest := ih (position + d + 1) state (by omega) (by omega)
          rw [← add_assoc]
          exact rest

theorem walk_eq (a : PArray V) (body : σ → Nat × Key × V → Round σ) (state : σ) :
    a.walk body state = rounds body a.visited state := by
  unfold walk
  rw [eachEntry_eq a body _ 0 state (Nat.zero_le _) (by omega), drop_zero]
  rfl

end PArray

end Arrays

end PhpPico
