import PhpPico.Arrays.Building
import PhpPico.Parray.Slots

/-!
# Lists

An array that gets its values one after another has the keys 0, 1, 2 and so on, and stays packed. It takes as many as
its capacity can grow to by doubling.
-/

namespace PhpPico
open OrderedMap

/-! ## Sizes of packed arrays -/

/-- The sizes of a packed array without holes. -/
structure Shape.Packed (s : Shape) : Prop where
  packed : s.packed = true
  used_le : s.used ≤ s.capacity
  bound : s.capacity ≤ 65535

namespace Shape
variable {s : Shape} {mem : Memory}

/-- A value pushed onto a packed array needs a slot and nothing else. -/
theorem Packed.add_eq (h : s.Packed) : s.add mem true = s.addEntry mem := by
  rw [Shape.add, if_neg (fun c => by cases c.2), addHashed, if_neg (fun c => by rw [h.packed] at c; cases c.1)]

theorem Packed.add (h : s.Packed) (all : ∀ site, mem site = true) (free : s.used < slots s.capacity) :
    ∃ s', s.add mem true = some s' ∧ s'.Packed ∧ s'.used = s.used + 1 ∧ slots s'.capacity = slots s.capacity := by
  have used_le := h.used_le
  rw [h.add_eq, addEntry, all]
  by_cases room : s.used + 1 ≤ s.capacity
  · rw [ensure, if_pos room]
    exact ⟨_, rfl, ⟨h.packed, room, h.bound⟩, rfl, rfl⟩
  · have full : s.used = s.capacity := by omega
    have fits : ¬ 65535 < doubled s.capacity := by
      intro beyond
      rw [slots_full beyond h.bound] at free
      omega
    rw [ensure, if_neg room, full, PArray.grownCapacity_succ, if_neg fits, if_pos rfl]
    refine ⟨_, rfl, ⟨h.packed, ?_, by dsimp only; omega⟩, rfl, slots_doubled (by omega)⟩
    change s.capacity + 1 ≤ doubled s.capacity
    unfold doubled
    split <;> omega

/-- No entry more fits when all the slots there can be are used. -/
theorem Packed.add_full (h : s.Packed) (full : slots s.capacity ≤ s.used) : s.add mem true = none := by
  have used_le := h.used_le
  have equal : s.used = s.capacity := le_antisymm used_le (le_trans (le_slots _) full)
  have beyond : 65535 < doubled s.capacity := by
    by_contra fits
    have more : doubled s.capacity ≤ slots s.capacity := slots_doubled (Nat.le_of_not_lt fits) ▸ le_slots _
    have grows : s.capacity < doubled s.capacity := by
      unfold doubled
      split <;> omega
    omega
  rw [h.add_eq, addEntry, ensure, if_neg (by omega), equal, PArray.grownCapacity_succ, if_pos beyond]
  rfl

theorem fresh_packed (all : ∀ site, mem site = true) {hint : Nat} (small : hint ≤ 65535) :
    ∃ s, fresh mem hint = some s ∧ s.Packed ∧ s.used = 0 ∧
      slots s.capacity = slots (if hint = 0 then 0 else max 8 hint) := by
  unfold fresh
  rw [all, if_pos rfl, all]
  by_cases zero : hint = 0
  · rw [if_neg (not_not.mpr zero), if_pos zero]
    exact ⟨_, rfl, ⟨rfl, le_refl 0, Nat.zero_le _⟩, rfl, rfl⟩
  · have grown : PArray.grownCapacity 0 hint = max 8 hint := by
      unfold PArray.grownCapacity
      dsimp only
      split <;> split <;> omega
    rw [if_pos zero, if_neg zero, ensure, if_neg (by dsimp only; omega)]
    rw [grown, if_neg (by omega), if_pos rfl]
    exact ⟨_, rfl, ⟨rfl, Nat.zero_le _, by dsimp only; omega⟩, rfl, rfl⟩

end Shape

/-! ## Values pushed in a row -/

section Lists
variable {cfg : Config} {V : Type}

/-- All the entries of a map have numbers, which count them. -/
structure Dict.Counted (d : Dict V) : Prop where
  numbered : d.Numbered d.added

theorem Dict.counted_empty : (Dict.empty : Dict V).Counted := ⟨Dict.numbered_empty⟩

/-- **Values are pushed in a row exactly when there can be as many slots.** -/
theorem Shape.addAll_packed (kept : Key → Bool) (list : List (Memory × Key × V))
    (pushed : ∀ e ∈ list, kept e.2.1 = false) (all : ∀ e ∈ list, ∀ site, e.1 site = true) {d : Dict V} {s : Shape}
    (h : s.Packed) (counted : d.Counted) (same : d.added = s.used) (room : (s.used : Int) + list.length < cfg.intMax) :
    (addAll cfg kept d s list).isSome = true ↔ s.used + list.length ≤ slots s.capacity := by
  induction list generalizing d s with
  | nil =>
    have fits : s.used ≤ slots s.capacity := h.used_le.trans (le_slots _)
    exact ⟨fun _ => fits, fun _ => rfl⟩
  | cons e rest ih =>
    obtain ⟨mem, key, value⟩ := e
    rw [List.length_cons] at room ⊢
    have number : d.target kept key = .int d.added := by
      rw [Dict.target, pushed _ List.mem_cons_self, if_neg Bool.false_ne_true, counted.numbered.next_eq]
    have step : addAll cfg kept d s ((mem, key, value) :: rest) =
        (s.add mem (d.target kept key == .int d.added)).bind fun s =>
          addAll cfg kept (d.put cfg kept (key, value)) s rest :=
      rfl
    have put : d.put cfg kept (key, value) = d.set cfg (.int d.added) value := by rw [Dict.put, number]
    rw [step, number, beq_self_eq_true, put]
    by_cases free : s.used < slots s.capacity
    · obtain ⟨s', added, h', used, slots'⟩ := h.add (all _ (.head _)) free
      have below : (d.added : Int) < cfg.intMax := by omega
      obtain ⟨-, -, numbered, more⟩ := counted.numbered.push below value
      have numbered' : (d.set cfg (.int d.added) value).Numbered (d.set cfg (.int d.added) value).added := by
        rw [more]
        exact numbered
      rw [added, Option.bind_some, ih (fun e listed => pushed e (List.mem_cons_of_mem _ listed))
        (fun e listed => all e (List.mem_cons_of_mem _ listed)) h' ⟨numbered'⟩ (by rw [more, used, same]) (by omega),
        used, slots']
      omega
    · rw [h.add_full (Nat.le_of_not_lt free)]
      constructor
      · intro impossible
        cases impossible
      · intro fits
        omega

/-- A new array takes as many values as the slots it was asked for can be doubled to. -/
theorem Shape.fresh_addAll {mem : Memory} (granted : ∀ site, mem site = true) {hint : Nat} (small : hint ≤ 65535)
    (kept : Key → Bool) (list : List (Memory × Key × V)) (pushed : ∀ e ∈ list, kept e.2.1 = false)
    (all : ∀ e ∈ list, ∀ site, e.1 site = true) (few : list.length ≤ 65535) :
    ((Shape.fresh mem hint).bind fun s => Shape.addAll cfg kept Dict.empty s list).isSome = true ↔
      list.length ≤ slots (if hint = 0 then 0 else max 8 hint) := by
  obtain ⟨s, fresh, packed, used, slots_eq⟩ := fresh_packed granted small
  have room : (s.used : Int) + list.length < cfg.intMax := by
    rw [used]
    unfold Config.intMax
    split <;> omega
  rw [fresh, Option.bind_some, addAll_packed kept list pushed all packed Dict.counted_empty used.symm room, used,
    zero_add, slots_eq]

end Lists

end PhpPico
