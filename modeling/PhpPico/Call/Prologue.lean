import PhpPico.Call.Entering

/-!
# The code in front of a body

Defaults are stored one after the other, only where the argument is missing; promoted properties are set to what the
slots hold then. Neither loses a reference.
-/

namespace PhpPico.Call

open Machine

/-! ## Storing -/

variable {base : Nat}

/-- Storing a value moves the reference to it into the slot, and gives up the one the slot had. -/
theorem storeLocal_references (m : Machine) {n slot : Nat} (v : Slot) (bound : slot < n) (a : Nat) :
    references (((m.retain v).storeLocal (base + slot) v).cells base n) a =
      references (m.cells base n) a - owns (m.stack (base + slot)) a + owns v a := by
  have cells : ((m.retain v).storeLocal (base + slot) v).cells base n = (m.cells base n).set slot v := by
    rw [storeLocal, cells_set _ _ _ _ _ (by omega), Nat.add_sub_cancel_left,
      cells_congr (n := m) (fun i _ => by rw [release_stack, retain_stack])]
  have inside : slot < (m.cells base n).length := by simpa using bound
  have old : (m.cells base n)[slot] = m.stack (base + slot) := by
    have get := cells_getElem? m base n slot
    rw [if_pos bound, List.getElem?_eq_getElem inside] at get
    exact Option.some.inj get
  rw [cells, references, references, List.count_set inside, old]
  have held : m.stack (base + slot) = .heap a → 0 < (m.cells base n).count (.heap a) := by
    intro same
    exact List.count_pos_iff.mpr (same ▸ old ▸ List.getElem_mem inside)
  by_cases was : m.stack (base + slot) = .heap a
  · have one := held was
    by_cases is : v = .heap a <;> simp [owns, was, is] <;> omega
  · by_cases is : v = .heap a <;> simp [owns, was, is]

theorem storeLocal_refcnt (m : Machine) (position : Nat) (v : Slot) (a : Nat) :
    ((m.retain v).storeLocal position v).refcnt a = m.refcnt a + owns v a - owns (m.stack position) a := by
  simp [storeLocal, Machine.set]

theorem storeLocal_stack (m : Machine) (position : Nat) (v : Slot) (i : Nat) :
    ((m.retain v).storeLocal position v).stack i = if i = position then v else m.stack i := by
  simp [storeLocal, Machine.set]

/-! ## Defaults -/

section Defaults
variable {program : Program} {c : Callable} {base argumentCount : Nat}

variable {m after : Machine} {codes : List DefaultCode}

theorem runDefaults_cons {code : DefaultCode} {rest : List DefaultCode}
    (run : runDefaults program c base argumentCount (code :: rest) m = some after) :
    code.index < argumentCount ∧ runDefaults program c base argumentCount rest m = some after ∨
      argumentCount ≤ code.index ∧ ∃ v, program.evaluate (m.locals c base) code.value = some v ∧
        runDefaults program c base argumentCount rest ((m.retain v).storeLocal (base + code.slot) v) = some after := by
  unfold runDefaults at run
  split at run
  · exact .inl ⟨‹_›, run⟩
  · refine .inr ⟨by omega, ?_⟩
    split at run
    · cases run
    · exact ⟨_, ‹_›, run⟩

theorem runDefaults_kept (run : runDefaults program c base argumentCount codes m = some after) :
    after.stackCount = m.stackCount ∧ after.frames = m.frames ∧ after.arrays = m.arrays := by
  induction codes generalizing m with
  | nil =>
    cases run
    exact ⟨rfl, rfl, rfl⟩
  | cons code rest ih =>
    obtain ⟨-, following⟩ | ⟨-, v, -, following⟩ := runDefaults_cons run
    · exact ih following
    · simpa [storeLocal, Machine.set] using ih following

theorem runDefaults_elsewhere {i : Nat} (run : runDefaults program c base argumentCount codes m = some after)
    (elsewhere : ∀ code ∈ codes, argumentCount ≤ code.index → i ≠ base + code.slot) : after.stack i = m.stack i := by
  induction codes generalizing m with
  | nil =>
    cases run
    rfl
  | cons code rest ih =>
    have others : ∀ code ∈ rest, argumentCount ≤ code.index → i ≠ base + code.slot :=
      fun other mem => elsewhere other (.tail _ mem)
    obtain ⟨-, following⟩ | ⟨absent, v, -, following⟩ := runDefaults_cons run
    · exact ih following others
    · rw [ih following others, storeLocal_stack, if_neg (elsewhere code (.head _) absent)]

theorem runDefaults_references (run : runDefaults program c base argumentCount codes m = some after)
    (slots : ∀ code ∈ codes, code.slot < c.locals.length) (a : Nat) :
    after.refcnt a - references (after.cells base c.locals.length) a =
      m.refcnt a - references (m.cells base c.locals.length) a := by
  induction codes generalizing m with
  | nil =>
    cases run
    rfl
  | cons code rest ih =>
    have others : ∀ code ∈ rest, code.slot < c.locals.length := fun other mem => slots other (.tail _ mem)
    obtain ⟨-, following⟩ | ⟨-, v, -, following⟩ := runDefaults_cons run
    · exact ih following others
    · rw [ih following others, storeLocal_refcnt, storeLocal_references m v (slots code (.head _))]
      ring

theorem runDefaults_raised (raised : runDefaults program c base argumentCount codes m = none) :
    ∃ code ∈ codes, argumentCount ≤ code.index ∧ ∃ slots, program.evaluate slots code.value = none := by
  induction codes generalizing m with
  | nil => cases raised
  | cons code rest ih =>
    unfold runDefaults at raised
    split at raised
    · obtain ⟨other, mem, absent, none⟩ := ih raised
      exact ⟨other, .tail _ mem, absent, none⟩
    · split at raised
      · exact ⟨code, .head _, by omega, _, ‹_›⟩
      · obtain ⟨other, mem, absent, none⟩ := ih raised
        exact ⟨other, .tail _ mem, absent, none⟩

end Defaults

theorem mem_defaultCodes {offset index : Nat} {parameters : List Parameter} {code : DefaultCode}
    (mem : code ∈ defaultCodes offset index parameters) :
    ∃ i p, parameters[i]? = some p ∧ p.defaultValue = some code.value ∧ code.index = index + i ∧
      code.slot = offset + (index + i) := by
  induction parameters generalizing index with
  | nil => cases mem
  | cons p rest ih =>
    have behind (mem : code ∈ defaultCodes offset (index + 1) rest) :
        ∃ i q, (p :: rest)[i]? = some q ∧ q.defaultValue = some code.value ∧ code.index = index + i ∧
          code.slot = offset + (index + i) := by
      obtain ⟨i, q, get, value, at_i, slot⟩ := ih mem
      exact ⟨i + 1, q, by simpa using get, value, by omega, by omega⟩
    unfold defaultCodes at mem
    split at mem
    · exact behind mem
    · rename_i value some
      cases mem with
      | head => exact ⟨0, p, rfl, some, rfl, rfl⟩
      | tail _ mem => exact behind mem

/-- What a default sees: its own slot and those of the parameters behind it as they were, the others as they are in
the end. -/
def atDefault (c : Callable) (base first last : Nat) (before after : Machine) (slot : Nat) : Slot :=
  if first ≤ slot ∧ slot < last then before.locals c base slot else after.locals c base slot

/-- **Every missing argument has the value of its default, each seeing the parameters before it.** -/
theorem runDefaults_values {program : Program} {c : Callable} {argumentCount offset index : Nat}
    {parameters : List Parameter} {m after : Machine}
    (run : runDefaults program c base argumentCount (defaultCodes offset index parameters) m = some after)
    {i : Nat} {p : Parameter} {value : Compiler.Ast} (get : parameters[i]? = some p)
    (default : p.defaultValue = some value) (absent : argumentCount ≤ index + i) : program.evaluate
      (atDefault c base (offset + (index + i)) (offset + (index + parameters.length)) m after) value =
      some (after.stack (base + (offset + (index + i)))) := by
  induction parameters generalizing index i m with
  | nil => simp at get
  | cons first rest ih =>
    have shift : index + 1 + rest.length = index + (rest.length + 1) := by omega
    -- the slots of the parameters behind the first one
    have later (code : DefaultCode) (mem : code ∈ defaultCodes offset (index + 1) rest) :
        offset + index < code.slot ∧ code.slot < offset + (index + (rest.length + 1)) := by
      obtain ⟨k, q, got, -, -, slot⟩ := mem_defaultCodes mem
      have bound := (List.getElem?_eq_some_iff.mp got).1
      omega
    unfold defaultCodes at run
    cases i with
    | zero =>
      cases get
      rw [default] at run
      obtain ⟨given, -⟩ | ⟨-, v, evaluated, following⟩ := runDefaults_cons run
      · exact absurd absent (not_le.mpr given)
      · have own : after.stack (base + (offset + index)) = v := by
          rw [runDefaults_elsewhere following fun code mem _ => by have := later code mem; omega, storeLocal_stack,
            if_pos rfl]
        rw [add_zero, own, ← evaluated]
        congr 1
        funext slot
        unfold atDefault
        split
        · rfl
        · rename_i outside
          rw [List.length_cons] at outside
          unfold Machine.locals
          split
          · rw [runDefaults_elsewhere following fun code mem _ => by have := later code mem; omega, storeLocal_stack,
              if_neg (by dsimp only; omega)]
          · rfl
    | succ i =>
      have next : index + (i + 1) = index + 1 + i := by omega
      have behind : argumentCount ≤ index + 1 + i := by omega
      have got : rest[i]? = some p := by simpa using get
      rw [List.length_cons, ← shift, next]
      cases own : first.defaultValue with
      | none =>
        rw [own] at run
        exact ih run got behind
      | some other =>
        rw [own] at run
        obtain ⟨-, following⟩ | ⟨-, v, -, following⟩ := runDefaults_cons run
        · exact ih following got behind
        · rw [← ih following got behind]
          congr 1
          funext slot
          unfold atDefault
          split
          · rename_i inside
            unfold Machine.locals
            by_cases bound : slot < c.locals.length
            · rw [if_pos bound, if_pos bound, storeLocal_stack, if_neg (by dsimp only; omega)]
            · rw [if_neg bound, if_neg bound]
          · rfl

/-! ## Types -/

theorem checkArgumentTypes_refused {program : Program} {c : Callable} {m : Machine}
    (refused : ¬ checkArgumentTypes program c base m = true) : ∃ type v, program.accepts type v = false := by
  by_contra accepting
  have all (type : List Compiler.Ast) (v : Slot) : program.accepts type v = true := by
    by_contra none
    exact accepting ⟨type, v, by simpa using none⟩
  refine refused ?_
  unfold checkArgumentTypes
  dsimp only
  have fixed : ((List.range c.fixedCount).all fun i => program.accepts (c.parameterTypes.getD i [])
      (m.stack (base + (if c.isMethod = true then 1 else 0) + i))) = true := by simp [all]
  rw [fixed, Bool.true_and, Bool.or_eq_true, Bool.or_eq_true]
  refine .inr (.inr ?_)
  split
  · simp [all]
  · rfl

/-! ## Promoted properties -/

theorem runPromotions_kept (base : Nat) (promotions : List (Nat × List UInt8)) (m : Machine) :
    (runPromotions base promotions m).1.stack = m.stack ∧
      (runPromotions base promotions m).1.stackCount = m.stackCount ∧
      (runPromotions base promotions m).1.frames = m.frames ∧
      (runPromotions base promotions m).1.arrays = m.arrays := by
  induction promotions generalizing m with
  | nil => exact ⟨rfl, rfl, rfl, rfl⟩
  | cons promotion rest ih => simpa [runPromotions] using ih (m.retain (m.stack (base + promotion.1)))

theorem runPromotions_values (base : Nat) (promotions : List (Nat × List UInt8)) (m : Machine) :
    (runPromotions base promotions m).2 = promotions.map fun q => (q.2, m.stack (base + q.1)) := by
  induction promotions generalizing m with
  | nil => rfl
  | cons promotion rest ih => simp [runPromotions, ih]

theorem runPromotions_refcnt (base : Nat) (promotions : List (Nat × List UInt8)) (m : Machine) (a : Nat) :
    (runPromotions base promotions m).1.refcnt a =
      m.refcnt a + references ((runPromotions base promotions m).2.map Prod.snd) a := by
  induction promotions generalizing m with
  | nil => simp [runPromotions]
  | cons promotion rest ih =>
    simp only [runPromotions, ih, retain_refcnt, List.map_cons, references_cons]
    ring

end PhpPico.Call
