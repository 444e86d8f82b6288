import PhpPico.Parray.Canonical
import PhpPico.Value.DecimalText
import PhpPico.Value.NumericPrefix

/-!
# Integers as text

`pphp_format_integer` writes integers and `string_integer_exact` reads them. **What is written is read back, and what
is read is written as the text without space around it, a plus sign, zeros in front and the minus sign of a zero.**
-/

namespace PhpPico.Value
open List
open NumericPrefix (magnitude_stays_out magnitude_inRange)

/-- An integer in a text: space, a sign, digits and space. -/
structure IntegerText where
  before : List UInt8
  sign : Option Bool
  digits : List UInt8
  after : List UInt8
  before_ok : ∀ c ∈ before, isSpace c = true
  digits_ok : ∀ c ∈ digits, IsDigit c
  nonempty : digits ≠ []
  after_ok : ∀ c ∈ after, isSpace c = true

namespace IntegerText

def text (t : IntegerText) : List UInt8 := t.before ++ (signText t.sign ++ (t.digits ++ t.after))

def value (t : IntegerText) : Int := if t.sign = some true then -(decimal 0 t.digits : Int) else decimal 0 t.digits

/-- The digits without zeros in front. -/
def significantBytes (digits : List UInt8) : List UInt8 :=
  if digits.dropWhile (· == 48) = [] then [48] else digits.dropWhile (· == 48)

/-- The text without space, a plus sign and zeros in front. -/
def stripped (t : IntegerText) : List UInt8 := (if t.sign = some true then [45] else []) ++ significantBytes t.digits

/-- The text without space, a plus sign, zeros in front and the minus sign of a zero. -/
def normal (t : IntegerText) : List UInt8 :=
  (if t.sign = some true ∧ t.value ≠ 0 then [45] else []) ++ significantBytes t.digits

end IntegerText

/-- What `pphp_format_integer` and `string_integer_exact` have to do with each other. -/
structure IntegerRoundTrip (cfg : Config) : Prop where
  written : ∀ n : Int, cfg.intMin ≤ n → n ≤ cfg.intMax → ∀ capacity, cfg.intBytes * 3 + 1 < capacity →
    (PhpPico.pphpFormatInteger cfg capacity n).isSome = true
  readBack : ∀ n : Int, cfg.intMin ≤ n → n ≤ cfg.intMax → ∀ capacity text requireComplete,
    PhpPico.pphpFormatInteger cfg capacity n = some text → stringIntegerExact cfg text requireComplete = .exact n false
  accepted : ∀ text requireComplete n, stringIntegerExact cfg text requireComplete = .exact n false ↔
    ∃ t : IntegerText, t.text = text ∧ t.value = n ∧ cfg.intMin ≤ n ∧ n ≤ cfg.intMax
  complete : ∀ text n, stringIntegerExact cfg text true ≠ .exact n true
  rewritten : ∀ t : IntegerText, cfg.intMin ≤ t.value → t.value ≤ cfg.intMax → ∀ capacity text,
    PhpPico.pphpFormatInteger cfg capacity t.value = some text → text = t.normal

/-! ## Reading -/

theorem dropWhile_of_head {p : UInt8 → Bool} {l : List UInt8} (stop : ∀ c ∈ l.head?, p c = false) :
    l.dropWhile p = l := by
  cases l with
  | nil => rfl
  | cons c rest => exact dropWhile_cons_of_neg (Bool.eq_false_iff.mp (stop c rfl))

theorem takeWhile_of_head {p : UInt8 → Bool} {l : List UInt8} (stop : ∀ c ∈ l.head?, p c = false) :
    l.takeWhile p = [] := by
  cases l with
  | nil => rfl
  | cons c rest => exact takeWhile_cons_of_neg (Bool.eq_false_iff.mp (stop c rfl))

theorem isSpace_cases {c : UInt8} (space : isSpace c = true) : c = 32 ∨ c = 9 ∨ c = 10 ∨ c = 13 := by
  unfold isSpace at space
  simp only [Bool.or_eq_true, beq_iff_eq] at space
  tauto

theorem digit_not_space {c : UInt8} (digit : IsDigit c) : isSpace c = false := by
  by_contra space
  rcases isSpace_cases (Bool.eq_true_of_not_eq_false space) with rfl | rfl | rfl | rfl <;>
    exact absurd digit (by decide)

theorem space_not_digit {c : UInt8} (space : isSpace c = true) : isDigit c = false := by
  rcases isSpace_cases space with rfl | rfl | rfl | rfl <;> decide

theorem magnitude_value {limit : Nat} (digits : List UInt8) {m : Magnitude} (valid : m.valid = true)
    (inRange : (digits.foldl (Magnitude.digit limit) m).inRange = true) :
    (digits.foldl (Magnitude.digit limit) m).value = decimal m.value digits := by
  induction digits generalizing m with
  | nil => rfl
  | cons c rest ih =>
    rw [foldl_cons] at inRange ⊢
    by_cases overflow : (2 ^ 64 - 1 - (c.toNat - 48)) / 10 < m.value
    · have out : (Magnitude.digit limit m c).inRange = false := by
        simp only [Magnitude.digit, valid, if_true, if_pos overflow, Bool.and_false, Bool.false_and]
      rw [magnitude_stays_out limit rest out] at inRange
      exact absurd inRange Bool.false_ne_true
    · have next : (Magnitude.digit limit m c).valid = true ∧
          (Magnitude.digit limit m c).value = m.value * 10 + (c.toNat - 48) := by
        simp only [Magnitude.digit, valid, if_true, if_neg overflow, and_self]
      rw [ih next.1 inRange, next.2]
      rfl

/-- The greatest magnitude behind a sign. -/
def magnitudeLimit (cfg : Config) (negative : Bool) : Nat := if negative then cfg.intMax + 1 else cfg.intMax

theorem magnitudeLimit_lt (cfg : Config) (negative : Bool) : magnitudeLimit cfg negative < 2 ^ 64 := by
  unfold magnitudeLimit Config.intMax
  split <;> split <;> decide

theorem value_in_range (cfg : Config) (t : IntegerText) :
    decimal 0 t.digits ≤ magnitudeLimit cfg (t.sign == some true) ↔ cfg.intMin ≤ t.value ∧ t.value ≤ cfg.intMax := by
  unfold magnitudeLimit IntegerText.value Config.intMin
  by_cases minus : t.sign = some true
  · have same : (t.sign == some true) = true := beq_iff_eq.mpr minus
    rw [if_pos minus, if_pos same]
    omega
  · have other : ¬ (t.sign == some true) = true := fun same => minus (beq_iff_eq.mp same)
    rw [if_neg minus, if_neg other]
    omega

theorem stringIntegerExact_text (cfg : Config) (t : IntegerText) (requireComplete : Bool) :
    stringIntegerExact cfg t.text requireComplete =
      if cfg.intMin ≤ t.value ∧ t.value ≤ cfg.intMax then .exact t.value false
      else .outOfRange t.digits (t.sign == some true) false := by
  obtain ⟨first, rest, shape⟩ : ∃ first rest, t.digits = first :: rest := exists_cons_of_ne_nil t.nonempty
  have firstDigit : IsDigit first := t.digits_ok first (by rw [shape]; exact .head _)
  have plain : ∀ c ∈ (t.digits ++ t.after).head?, c ≠ 43 ∧ c ≠ 45 := by
    intro c head
    rw [shape] at head
    obtain rfl : first = c := Option.some.inj head
    constructor <;> rintro rfl <;> exact absurd firstDigit (by decide)
  have body : t.text.dropWhile isSpace = signText t.sign ++ (t.digits ++ t.after) := by
    unfold IntegerText.text
    rw [dropWhile_append_of_pos t.before_ok]
    apply dropWhile_of_head
    intro c head
    cases sign : t.sign with
    | none =>
      rw [sign, shape] at head
      obtain rfl : first = c := Option.some.inj head
      exact digit_not_space firstDigit
    | some minus =>
      rw [sign] at head
      obtain rfl : (if minus then 45 else 43) = c := Option.some.inj head
      cases minus <;> decide
  have stop : ∀ c ∈ t.after.head?, isDigit c = false :=
    fun c head => space_not_digit (t.after_ok c (mem_of_mem_head? head))
  have allDigits : ∀ c ∈ t.digits, isDigit c = true := fun c listed => decide_eq_true (t.digits_ok c listed)
  have digits : (t.digits ++ t.after).takeWhile isDigit = t.digits := by
    rw [takeWhile_append_of_pos allDigits, takeWhile_of_head stop, append_nil]
  have behind : (t.digits ++ t.after).dropWhile isDigit = t.after := by
    rw [dropWhile_append_of_pos allDigits, dropWhile_of_head stop]
  have spaceHead : ∀ c, isSpace c = false → t.after.head? ≠ some c := by
    intro c other head
    rw [t.after_ok c (mem_of_mem_head? head)] at other
    exact absurd other (by decide)
  have nothing : t.after.dropWhile isSpace = [] := dropWhile_eq_nil_iff.mpr t.after_ok
  have limit : (if (t.sign == some true) = true then cfg.intMax + 1 else cfg.intMax) =
      magnitudeLimit cfg (t.sign == some true) := rfl
  have found : ¬ (t.digits = [] ∨ t.after.head? = some 46 ∨ t.after.head? = some 101 ∨ t.after.head? = some 69) := by
    rintro (none | point | letter | letter)
    · exact t.nonempty none
    · exact spaceHead 46 (by decide) point
    · exact spaceHead 101 (by decide) letter
    · exact spaceHead 69 (by decide) letter
  have range := magnitude_inRange (magnitudeLimit_lt cfg (t.sign == some true)) t.digits 0 (Nat.zero_le _)
  unfold stringIntegerExact
  rw [body, readSign_signText t.sign plain]
  dsimp only
  rw [digits, behind, nothing, limit, if_neg found, if_neg fun both => both.2 rfl]
  by_cases inside : cfg.intMin ≤ t.value ∧ t.value ≤ cfg.intMax
  · have inRange := range.mpr ((value_in_range cfg t).mpr inside)
    have value := magnitude_value t.digits rfl inRange
    rw [inRange, if_pos inside, value]
    unfold IntegerText.value
    by_cases minus : t.sign = some true
    · rw [minus]
      rfl
    · rw [if_neg minus, beq_eq_false_iff_ne.mpr minus]
      rfl
  · have outside : (t.digits.foldl (Magnitude.digit (magnitudeLimit cfg (t.sign == some true)))
        ⟨0, true, true⟩).inRange = false :=
      Bool.eq_false_iff.mpr fun inRange => inside ((value_in_range cfg t).mp (range.mp inRange))
    rw [outside, if_neg inside]
    rfl

theorem behind_eq {m : Magnitude} {digits : List UInt8} {negative trailing more : Bool} {value n : Int}
    (h : (if !m.inRange then IntegerNumeral.outOfRange digits negative trailing
      else .exact value trailing) = .exact n more) : trailing = more := by
  split at h
  · cases h
  · exact (IntegerNumeral.exact.inj h).2

theorem stringIntegerExact_code (cfg : Config) (text : List UInt8) (requireComplete : Bool) :
    stringIntegerExact cfg text requireComplete =
      let signed := readSign (text.dropWhile isSpace)
      let digits := signed.2.takeWhile isDigit
      let rest := signed.2.dropWhile isDigit
      let behind := rest.dropWhile isSpace
      if digits = [] ∨ rest.head? = some 46 ∨ rest.head? = some 101 ∨ rest.head? = some 69 then .none
      else if requireComplete = true ∧ behind ≠ [] then .none
      else
        let m := digits.foldl (Magnitude.digit (if signed.1 then cfg.intMax + 1 else cfg.intMax)) ⟨0, true, true⟩
        if !m.inRange then .outOfRange digits signed.1 (behind != [])
        else .exact (if signed.1 then -(m.value : Int) else m.value) (behind != []) :=
  rfl

theorem exists_text {cfg : Config} {text : List UInt8} {requireComplete : Bool} {n : Int}
    (h : stringIntegerExact cfg text requireComplete = .exact n false) : ∃ t : IntegerText, t.text = text := by
  rw [stringIntegerExact_code] at h
  dsimp only at h
  split at h
  · cases h
  · rename_i found
    split at h
    · cases h
    · have nothing : (((readSign (text.dropWhile isSpace)).2.dropWhile isDigit).dropWhile isSpace) = [] := by
        have same := behind_eq h
        exact not_not.mp fun more => Bool.eq_false_iff.mp same (bne_iff_ne.mpr more)
      have sign : ∃ sign, signText sign ++ (readSign (text.dropWhile isSpace)).2 = text.dropWhile isSpace := by
        cases shape : text.dropWhile isSpace with
        | nil => exact ⟨none, rfl⟩
        | cons c rest =>
          have read : readSign (c :: rest) = if c = 43 ∨ c = 45 then (c == 45, rest) else (false, c :: rest) := rfl
          rw [read]
          split
          · rename_i signed
            rcases signed with rfl | rfl
            · exact ⟨some false, rfl⟩
            · exact ⟨some true, rfl⟩
          · exact ⟨none, rfl⟩
      obtain ⟨sign, joined⟩ := sign
      refine ⟨⟨text.takeWhile isSpace, sign, (readSign (text.dropWhile isSpace)).2.takeWhile isDigit,
        (readSign (text.dropWhile isSpace)).2.dropWhile isDigit, ?_, ?_, fun none => found (.inl none), ?_⟩, ?_⟩
      · exact fun c listed => List.all_eq_true.mp (all_takeWhile) c listed
      · exact fun c listed => of_decide_eq_true (List.all_eq_true.mp (all_takeWhile) c listed)
      · exact dropWhile_eq_nil_iff.mp nothing
      · show text.takeWhile isSpace ++ (signText sign ++ (_ ++ _)) = text
        rw [takeWhile_append_dropWhile, joined, takeWhile_append_dropWhile]

theorem accepted_iff (cfg : Config) (text : List UInt8) (requireComplete : Bool) (n : Int) :
    stringIntegerExact cfg text requireComplete = .exact n false ↔
      ∃ t : IntegerText, t.text = text ∧ t.value = n ∧ cfg.intMin ≤ n ∧ n ≤ cfg.intMax := by
  constructor
  · intro read
    obtain ⟨t, rfl⟩ := exists_text read
    rw [stringIntegerExact_text] at read
    split at read
    · rename_i inside
      obtain rfl := (IntegerNumeral.exact.inj read).1
      exact ⟨t, rfl, rfl, inside⟩
    · cases read
  · rintro ⟨t, rfl, rfl, inside⟩
    rw [stringIntegerExact_text, if_pos inside]

theorem complete_exact (cfg : Config) (text : List UInt8) (n : Int) :
    stringIntegerExact cfg text true ≠ .exact n true := by
  intro read
  rw [stringIntegerExact_code] at read
  dsimp only at read
  split at read
  · cases read
  · split at read
    · cases read
    · rename_i complete
      have nothing := not_not.mp fun more => complete ⟨rfl, more⟩
      have same := behind_eq read
      rw [nothing] at same
      cases same

/-! ## Writing -/

theorem pphpFormatInteger_eq {cfg : Config} {capacity : Nat} {n : Int} {text : List UInt8}
    (written : PhpPico.pphpFormatInteger cfg capacity n = some text) : text = (reversedInteger cfg n).reverse := by
  unfold PhpPico.pphpFormatInteger at written
  split at written
  · cases written
  · exact (Option.some.inj written).symm

theorem reversedDigits_length (room magnitude : Nat) : (reversedDigits room magnitude).length ≤ room := by
  induction room generalizing magnitude with
  | zero => exact le_refl 0
  | succ room ih =>
    rw [reversedDigits, length_cons]
    split
    · exact Nat.succ_le_succ (Nat.zero_le _)
    · exact Nat.succ_le_succ (ih _)

theorem written_isSome (cfg : Config) (n : Int) {capacity : Nat} (room : cfg.intBytes * 3 + 1 < capacity) :
    (PhpPico.pphpFormatInteger cfg capacity n).isSome = true := by
  have short : (reversedInteger cfg n).length ≤ cfg.intBytes * 3 + 1 := by
    unfold reversedInteger
    dsimp only
    rw [length_append]
    have digits := reversedDigits_length (cfg.intBytes * 3) (if n < 0 then (-(n + 1)).toNat + 1 else n.toNat)
    have sign : (if n < 0 then [(45 : UInt8)] else []).length ≤ 1 := by split <;> decide
    omega
  unfold PhpPico.pphpFormatInteger
  rw [if_neg (by omega)]
  rfl

theorem written_text {cfg : Config} {n : Int} (lower : cfg.intMin ≤ n) (upper : n ≤ cfg.intMax) :
    ∃ t : IntegerText, t.text = (reversedInteger cfg n).reverse ∧ t.value = n := by
  obtain ⟨digits, numeral, value, text⟩ := reversedInteger_spec lower upper
  have noSpace : ∀ c ∈ ([] : List UInt8), isSpace c = true := fun c listed => absurd listed not_mem_nil
  by_cases negative : n < 0
  · refine ⟨⟨[], some true, digits, [], noSpace, numeral.allDigits, numeral.nonempty, noSpace⟩, ?_, ?_⟩
    · rw [text, if_pos negative]
      simp only [IntegerText.text, signText, if_true, nil_append, append_nil]
    · have signed : (IntegerText.mk [] (some true) digits [] noSpace numeral.allDigits numeral.nonempty noSpace).value =
          -(decimal 0 digits : Int) := if_pos rfl
      omega
  · refine ⟨⟨[], none, digits, [], noSpace, numeral.allDigits, numeral.nonempty, noSpace⟩, ?_, ?_⟩
    · rw [text, if_neg negative]
      simp only [IntegerText.text, signText, nil_append, append_nil]
    · have signed : (IntegerText.mk [] none digits [] noSpace numeral.allDigits numeral.nonempty noSpace).value =
          (decimal 0 digits : Int) := rfl
      omega

/-- Zeros in front do not count, and what is left is a numeral. -/
theorem significantBytes_spec {digits : List UInt8} (allDigits : ∀ c ∈ digits, IsDigit c) :
    Numeral (IntegerText.significantBytes digits) ∧
      decimal 0 (IntegerText.significantBytes digits) = decimal 0 digits := by
  induction digits with
  | nil => exact ⟨Numeral.one (by decide), by decide⟩
  | cons c rest ih =>
    by_cases zero : (c == 48) = true
    · have dropped : (c :: rest).dropWhile (· == 48) = rest.dropWhile (· == 48) := dropWhile_cons_of_pos zero
      have same : IntegerText.significantBytes (c :: rest) = IntegerText.significantBytes rest := by
        unfold IntegerText.significantBytes
        rw [dropped]
      obtain ⟨numeral, value⟩ := ih fun c' listed => allDigits c' (mem_cons_of_mem c listed)
      rw [same]
      refine ⟨numeral, value.trans ?_⟩
      obtain rfl : c = 48 := eq_of_beq zero
      rfl
    · have kept : (c :: rest).dropWhile (· == 48) = c :: rest := dropWhile_cons_of_neg zero
      have same : IntegerText.significantBytes (c :: rest) = c :: rest := by
        unfold IntegerText.significantBytes
        rw [kept, if_neg (cons_ne_nil c rest)]
      rw [same]
      refine ⟨⟨cons_ne_nil c rest, allDigits, fun head => ?_⟩, rfl⟩
      exact absurd (beq_iff_eq.mpr (Option.some.inj head)) zero

/-- **What is written for an integer that was read** is the text without what does not count. -/
theorem rewritten_eq {cfg : Config} (t : IntegerText) (lower : cfg.intMin ≤ t.value) (upper : t.value ≤ cfg.intMax) :
    (reversedInteger cfg t.value).reverse = t.normal := by
  obtain ⟨digits, numeral, value, text⟩ := reversedInteger_spec lower upper
  obtain ⟨numeral', value'⟩ := significantBytes_spec t.digits_ok
  have magnitude : t.value.natAbs = decimal 0 t.digits := by
    unfold IntegerText.value
    split <;> omega
  have same : digits = IntegerText.significantBytes t.digits := numeral.unique numeral' (by omega)
  have negative : t.value < 0 ↔ t.sign = some true ∧ t.value ≠ 0 := by
    unfold IntegerText.value
    by_cases minus : t.sign = some true
    · rw [if_pos minus]
      simp only [minus, true_and]
      omega
    · rw [if_neg minus]
      simp only [minus, false_and, iff_false]
      omega
  unfold IntegerText.normal
  rw [text, same]
  simp only [negative]

/-- **Integers written are read back, and integers read are written as they stood there**, but for the space, a plus
sign, zeros in front and the sign of a zero. -/
theorem integer_round_trip (cfg : Config) : IntegerRoundTrip cfg where
  written := fun n _ _ _ room => written_isSome cfg n room
  readBack := by
    intro n lower upper capacity text requireComplete written
    rw [pphpFormatInteger_eq written]
    obtain ⟨t, same, value⟩ := written_text lower upper
    exact (accepted_iff cfg _ requireComplete n).mpr ⟨t, same, value, lower, upper⟩
  accepted := accepted_iff cfg
  complete := complete_exact cfg
  rewritten := fun t lower upper _ _ written => (pphpFormatInteger_eq written).trans (rewritten_eq t lower upper)

/-- The minus sign of a zero. -/
def minusZeroText : IntegerText where
  before := []
  sign := some true
  digits := [48]
  after := []
  before_ok := forall_mem_nil _
  digits_ok := forall_mem_singleton.mpr (by decide)
  nonempty := cons_ne_nil 48 []
  after_ok := forall_mem_nil _

/-- "-0" is read as the integer 0, but what is written for that is not "-0". -/
theorem minus_zero_rewritten :
    stringIntegerExact ⟨true, true, true, true, true⟩ minusZeroText.text true = .exact 0 false ∧
      minusZeroText.stripped = minusZeroText.text ∧
      PhpPico.pphpFormatInteger ⟨true, true, true, true, true⟩ 32 0 ≠ some minusZeroText.stripped := by
  decide

end PhpPico.Value
