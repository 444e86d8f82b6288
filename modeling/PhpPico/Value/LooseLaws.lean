import PhpPico.Value.Loose

/-!
# The laws of loose comparison

The comparisons made on the way obey the rules and the laws exactly where none is misjudged. For values that are not
both arrays or objects they are only their own.
-/

namespace PhpPico.Value

variable {cfg : Config} {floats : FloatConversions cfg} {text : PFloat cfg → List UInt8} {objects : Objects cfg}

/-! ## The two directions -/

theorem sign_swap (greater less : Bool) : sign less greater = -sign greater less := (Int.neg_sub _ _).symm

theorem compareBytes_swap (as bs : List UInt8) : compareBytes bs as = -compareBytes as bs := by
  induction as generalizing bs with
  | nil => cases bs <;> rfl
  | cons a as ih =>
    cases bs with
    | nil => rfl
    | cons b bs =>
      rw [compareBytes, compareBytes]
      by_cases same : a = b
      · rw [if_pos same.symm, if_pos same, ih]
      · rw [if_neg (Ne.symm same), if_neg same]
        have number : a.toNat ≠ b.toNat := fun h => same (UInt8.toNat_inj.mp h)
        rcases lt_or_gt_of_ne number with below | above
        · rw [if_pos (UInt8.lt_iff_toNat_lt.mpr below), if_neg (mt UInt8.lt_iff_toNat_lt.mp (lt_asymm below))]
          rfl
        · rw [if_neg (mt UInt8.lt_iff_toNat_lt.mp (lt_asymm above)), if_pos (UInt8.lt_iff_toNat_lt.mpr above)]

theorem compareNumeric_swap (l r : Numeric cfg) : compareNumeric r l = -compareNumeric l r := by
  rw [compareNumeric, compareNumeric, Bool.and_comm]
  split <;> exact sign_swap _ _

theorem compareScalars_swap (l r : PValue cfg) : compareScalars floats r l = -compareScalars floats l r := by
  by_cases truth : l.IsTruth ∨ r.IsTruth
  · rw [compareScalars_truth truth, compareScalars_truth truth.symm, Bool.and_comm (pvIsTruthy l),
      Bool.and_comm (!pvIsTruthy l)]
    exact sign_swap _ _
  by_cases numbers : (pvToNumeric floats l true).1 = true ∧ (pvToNumeric floats r true).1 = true
  · rw [compareScalars_numeric truth numbers.1 numbers.2,
      compareScalars_numeric (mt Or.symm truth) numbers.2 numbers.1, compareNumeric_swap]
  by_cases strings : l.IsString ∧ r.IsString
  · cases l <;> first | exact strings.1.elim | skip
    cases r <;> first | exact strings.2.elim | skip
    rw [compareScalars_strings numbers, compareScalars_strings (mt And.symm numbers), compareBytes_swap]
  · rw [compareScalars_types truth numbers strings,
      compareScalars_types (mt Or.symm truth) (mt And.symm numbers) (mt And.symm strings)]
    exact sign_swap _ _

theorem opposite_neg (d : Int) : Opposite d (-d) := by
  unfold Opposite
  omega

theorem opposite_counts {m n : Nat} (different : m ≠ n) :
    Opposite (if n < m then 1 else -1) (if m < n then 1 else -1) := by
  rcases lt_or_gt_of_ne different with below | above
  · rw [if_neg (lt_asymm below), if_pos below]
    exact opposite_neg _
  · rw [if_pos above, if_neg (lt_asymm above)]
    exact opposite_neg _

theorem Opposite.eq_zero {e : Int} (h : Opposite 0 e) : e = 0 := h.1.mp rfl

variable {d : Int} {l r v w : PValue cfg} {rest : List (PValue cfg × Option (PValue cfg))}

theorem Opposite.zero_right (h : Opposite d 0) : d = 0 := h.1.mpr rfl

/-! ## No misjudged comparison -/

/-- No comparison on the way is misjudged. -/
def Fine (floats : FloatConversions cfg) (text : PFloat cfg → List UInt8) (objects : Objects cfg)
    (l r : PValue cfg) : Prop :=
  ∀ v w, OnTheWay floats text objects l r v w → ¬ Misjudged floats text objects v w

/-- Nor one of the parts that are compared. -/
def FineParts (floats : FloatConversions cfg) (text : PFloat cfg → List UInt8) (objects : Objects cfg)
    (parts : List (PValue cfg × Option (PValue cfg))) : Prop :=
  ∀ before v w after, parts = before ++ (v, some w) :: after → RuledAll floats text objects before 0 →
    Fine floats text objects v w

theorem Fine.parts {l r : PValue cfg} (fine : Fine floats text objects l r) :
    FineParts floats text objects (parts objects l r) :=
  fun _ _ _ _ split same _ _ way => fine _ _ (.part split same way)

theorem Fine.entries {xs ys : Entries cfg} (fine : Fine floats text objects (.array xs) (.array ys))
    (counts : xs.size = ys.size) : FineParts floats text objects (ys.against xs) := by
  have h := fine.parts
  rwa [Value.parts, if_pos counts] at h

theorem Fine.slots {a b : Nat} (fine : Fine floats text objects (.object a) (.object b)) (distinct : a ≠ b)
    (oneClass : objects.classEntry a = objects.classEntry b) :
    FineParts floats text objects (slotPairs (objects.slots a) (objects.slots b)) := by
  have h := fine.parts
  rwa [Value.parts, if_pos ⟨distinct, oneClass⟩] at h

theorem Fine.swap (fine : Fine floats text objects l r) : Fine floats text objects r l :=
  fun v w way => fine v w (.swap way)

theorem FineParts.head (fine : FineParts floats text objects ((v, some w) :: rest)) : Fine floats text objects v w :=
  fine [] v w rest rfl .nil

theorem FineParts.tail (fine : FineParts floats text objects ((v, some w) :: rest))
    (equal : Ruled floats text objects v w 0) : FineParts floats text objects rest :=
  fun before x y after split same =>
    fine ((v, some w) :: before) x y after (congrArg (List.cons _) split) (.same equal same)

mutual

/-- **The comparison follows the rules** where none on the way is misjudged. -/
theorem Ruled.returns {l r : PValue cfg} {d : Int} : Ruled floats text objects l r d →
    Fine floats text objects l r → Returns floats objects l r d
  | .scalar rule, fine => by
    have h : Returns floats objects l r _ := returns_scalar rule.not_structured
    rwa [rule.compared (fine _ _ (.here _ _))] at h
  | .counts counts, _ => returns_counts counts
  | .arrays counts entries, fine => (returns_arrays counts).mpr (entries.returns (fine.entries counts))
  | .same a, fine => by
    refine (returns_same_iff a).mpr ?_
    by_contra cyclic
    exact fine _ _ (.here _ _) (.endless cyclic)
  | .objects distinct oneClass slots, fine =>
    (returns_objects oneClass).mpr (slots.returns (fine.slots distinct oneClass))

theorem RuledAll.returns {parts : List (PValue cfg × Option (PValue cfg))} {d : Int} :
    RuledAll floats text objects parts d → FineParts floats text objects parts →
    PartsReturn floats objects parts d
  | .nil, _ => .nil
  | .same equal others, fine => .same (equal.returns fine.head) (others.returns (fine.tail equal))
  | .differ rest verdict differs, fine => .differ rest (verdict.returns fine.head) differs

end

theorem slotPairs_nil {vs ws : List (PValue cfg)} (h : slotPairs vs ws = []) : slotPairs ws vs = [] := by
  cases vs <;> cases ws <;> first | rfl | cases h

theorem slotPairs_cons {vs ws : List (PValue cfg)} (h : (v, some w) :: rest = slotPairs vs ws) :
    ∃ vs' ws', rest = slotPairs vs' ws' ∧ slotPairs ws vs = (w, some v) :: slotPairs ws' vs' := by
  cases vs <;> cases ws <;> cases h
  exact ⟨_, _, rfl, rfl⟩

mutual

/-- **The two directions agree** where none on the way is misjudged. -/
theorem Ruled.opposite {l r : PValue cfg} {d e : Int} : Ruled floats text objects l r d →
    Fine floats text objects l r → Ruled floats text objects r l e → Opposite d e
  | .scalar rule, fine, back => by
    have forth := rule.compared (fine _ _ (.here _ _))
    cases back with
    | scalar rule' =>
      have back := rule'.compared (fine.swap _ _ (.here _ _))
      rw [compareScalars_swap, forth] at back
      exact back ▸ opposite_neg d
    | counts | arrays | same | objects => exact absurd trivial rule.not_structured
  | .counts counts, _, back => by
    cases back with
    | scalar rule => exact absurd trivial rule.not_structured
    | arrays counts' => exact absurd counts'.symm counts
    | counts => exact opposite_counts counts
  | .arrays counts entries, fine, back => by
    cases back with
    | scalar rule => exact absurd trivial rule.not_structured
    | counts counts' => exact absurd counts.symm counts'
    | arrays _ entries' =>
      by_contra contrary
      exact fine _ _ (.here _ _) (.orders counts entries entries' contrary)
  | .same a, _, back => by
    cases back with
    | scalar rule => exact absurd trivial rule.not_structured
    | same => exact opposite_neg 0
    | objects distinct => exact absurd rfl distinct
  | .objects distinct oneClass slots, fine, back => by
    cases back with
    | scalar rule => exact absurd trivial rule.not_structured
    | same => exact absurd rfl distinct
    | objects _ _ slots' => exact slots.opposite (fine.slots distinct oneClass) rfl slots'

theorem RuledAll.opposite {parts : List (PValue cfg × Option (PValue cfg))} {vs ws : List (PValue cfg)} {d e : Int} :
    RuledAll floats text objects parts d → FineParts floats text objects parts → parts = slotPairs vs ws →
    RuledAll floats text objects (slotPairs ws vs) e → Opposite d e
  | .nil, _, pairs, back => by
    rw [slotPairs_nil pairs.symm] at back
    cases back
    exact opposite_neg 0
  | .same equal others, fine, pairs, back => by
    obtain ⟨vs', ws', pairs', swapped⟩ := slotPairs_cons pairs
    rw [swapped] at back
    cases back with
    | same _ others' => exact others.opposite (fine.tail equal) pairs' others'
    | differ _ verdict' differs' => exact absurd (equal.opposite fine.head verdict').eq_zero differs'
  | .differ rest verdict differs, fine, pairs, back => by
    obtain ⟨vs', ws', -, swapped⟩ := slotPairs_cons pairs
    rw [swapped] at back
    cases back with
    | same equal' => exact absurd (verdict.opposite fine.head equal').zero_right differs
    | differ _ verdict' => exact verdict.opposite fine.head verdict'

end

/-! ## The operators -/

theorem gives_iff {opcode : Comparison} {result : PValue cfg} (h : Returns floats objects l r d) :
    Gives floats objects opcode l r result ↔ opcode.push d = result := by
  constructor
  · rintro ⟨depth, given⟩
    obtain ⟨e, compared, pushed⟩ := Option.map_eq_some_iff.mp given
    rw [h.unique ⟨depth, compared⟩]
    exact pushed
  · rintro rfl
    obtain ⟨depth, compared⟩ := h
    exact ⟨depth, congrArg _ compared⟩

theorem pvBool_true {truth : Bool} : (pvBool truth : PValue cfg) = .ptTrue ↔ truth = true := by
  cases truth <;> simp [pvBool]

/-- **The laws say that the two results are of opposite directions.** -/
theorem laws_iff {e : Int} (forth : Returns floats objects l r d)
    (back : Returns floats objects r l e) : Laws floats objects l r ↔ Opposite d e := by
  have eq_forth : Gives floats objects .eq l r .ptTrue ↔ d = 0 := by
    rw [gives_iff forth, Comparison.push, pvBool_true, beq_iff_eq]
  have eq_back : Gives floats objects .eq r l .ptTrue ↔ e = 0 := by
    rw [gives_iff back, Comparison.push, pvBool_true, beq_iff_eq]
  have lt_forth : Gives floats objects .lt l r .ptTrue ↔ d < 0 := by
    rw [gives_iff forth, Comparison.push, pvBool_true, decide_eq_true_iff]
  have gt_back : Gives floats objects .gt r l .ptTrue ↔ 0 < e := by
    rw [gives_iff back, Comparison.push, pvBool_true, decide_eq_true_iff]
  have cmp_forth : ∀ n, Gives floats objects .cmp l r (.int n) ↔ d = n := by
    intro n
    rw [gives_iff forth, Comparison.push, PValue.int.injEq]
  constructor
  · intro laws
    exact ⟨by rw [← eq_forth, ← eq_back, laws.eq_symm], by rw [← lt_forth, ← gt_back, laws.lt_gt]⟩
  · intro opposite
    refine ⟨?_, ?_, ?_, ?_⟩
    · rw [eq_forth, eq_back, opposite.1]
    · rw [eq_forth, cmp_forth]
    · rw [lt_forth, gt_back, opposite.2]
    · rw [lt_forth]
      simp only [cmp_forth, exists_eq_right']

theorem returns_of_gives (h : Gives floats objects .cmp l r (.int d)) : Returns floats objects l r d := by
  obtain ⟨depth, given⟩ := h
  obtain ⟨e, compared, pushed⟩ := Option.map_eq_some_iff.mp given
  cases pushed
  exact ⟨depth, compared⟩

/-- Where no comparison on the way is misjudged, the one of the two obeys the rules and the laws. -/
theorem Fine.lawful (fine : Fine floats text objects l r) : Lawful floats text objects l r where
  follows := fun _ ruled _ => (gives_iff (ruled.returns fine)).mpr rfl
  laws := fun ⟨_, forth⟩ ⟨_, back⟩ =>
    (laws_iff (forth.returns fine) (back.returns fine.swap)).mpr (forth.opposite fine back)

theorem Lawful.returns (h : Lawful floats text objects l r)
    (ruled : Ruled floats text objects l r d) : Returns floats objects l r d :=
  returns_of_gives (h.follows d ruled .cmp)

theorem Lawful.compared (h : Lawful floats text objects l r)
    (rule : ScalarRule floats text l r d) : compareScalars floats l r = d :=
  (returns_scalar rule.not_structured).unique (h.returns (.scalar rule))

/-- A misjudged comparison breaks the rules or the laws. -/
theorem Misjudged.not_lawful (h : Misjudged floats text objects l r) (forth : Lawful floats text objects l r)
    (back : Lawful floats text objects r l) : False := by
  cases h with
  | nullZero zero =>
    have same := forth.compared (.nullString _)
    rw [compareScalars_null_string, if_pos (.inr zero), zero] at same
    exact absurd same (by decide)
  | zeroNull zero =>
    have same := forth.compared (.stringNull _)
    rw [compareScalars_string_null, if_pos (.inr zero), zero] at same
    exact absurd same (by decide)
  | numberString number no_numeral not_below =>
    have same := forth.compared (.numberString number no_numeral)
    rw [compareScalars_number_string number no_numeral] at same
    exact not_below same.symm
  | stringNumber number no_numeral not_above =>
    have same := forth.compared (.stringNumber number no_numeral)
    rw [compareScalars_string_number number no_numeral] at same
    exact not_above same.symm
  | orders counts left right contrary =>
    have ruled := Ruled.arrays counts left
    have ruled' := Ruled.arrays counts.symm right
    exact contrary ((laws_iff (forth.returns ruled) (back.returns ruled')).mp (forth.laws ⟨_, ruled⟩ ⟨_, ruled'⟩))
  | endless cyclic => exact cyclic ((returns_same_iff _).mp (forth.returns (.same _)))

theorem OnTheWay.trans {x y : PValue cfg} (h : OnTheWay floats text objects l r v w)
    (h' : OnTheWay floats text objects v w x y) : OnTheWay floats text objects l r x y := by
  induction h with
  | here => exact h'
  | swap _ ih => exact .swap (ih h')
  | part split same _ ih => exact .part split same (ih h')

/-- No objects. -/
def noObjects : Objects narrowBuild where
  classEntry := fun _ => 0
  propertyCount := fun _ => 0
  slots := fun _ => []
  full := fun _ => rfl
  proper := fun _ _ inside => absurd inside List.not_mem_nil

def zeroString : PString := ⟨[48], by decide⟩

end PhpPico.Value
