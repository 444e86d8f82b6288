import PhpPico.Value.Decimal

/-!
# Decimal floating text

How `pphp_decimal_to_float` reads a text. **The float is the one nearest to the number, unless its first significant
digit is some 2147483600 places from the point**, where place and exponent saturate.
-/

namespace PhpPico.Value
open List Ieee

/-! ## Decimal text -/

/-- Digits, which may have underscores between them. -/
def IsFigures (text : List UInt8) : Prop := ∀ c ∈ text, c = 95 ∨ IsDigit c

/-- The digits without underscores. -/
def figures (text : List UInt8) : List Nat := (text.filter (· != 95)).map fun c => c.toNat - 48

/-- The text of a sign; true is a minus. -/
def signText : Option Bool → List UInt8
  | none => []
  | some minus => [if minus then 45 else 43]

/-- The exponent of a decimal text. -/
structure ExponentPart where
  mark : UInt8
  sign : Option Bool
  digits : List UInt8
  mark_ok : isExponentMark mark = true
  digits_ok : IsFigures digits

/-- A decimal floating text: a sign, digits, digits behind a point and an exponent. -/
structure DecimalText where
  sign : Option Bool
  whole : List UInt8
  fraction : Option (List UInt8)
  exponent : Option ExponentPart
  whole_ok : IsFigures whole
  fraction_ok : ∀ digits ∈ fraction, IsFigures digits

def ExponentPart.text (e : ExponentPart) : List UInt8 := e.mark :: (signText e.sign ++ e.digits)

def ExponentPart.value (e : ExponentPart) : Int :=
  if e.sign = some true then -((Nat.ofDigits 10 (figures e.digits).reverse : ℕ) : Int)
  else (Nat.ofDigits 10 (figures e.digits).reverse : ℕ)

namespace DecimalText
variable (t : DecimalText)

def text : List UInt8 :=
  signText t.sign ++ (t.whole ++ (t.fraction.elim [] (46 :: ·) ++ t.exponent.elim [] ExponentPart.text))

def negative : Bool := t.sign == some true

/-- The digits behind the point. -/
def behind : List Nat := t.fraction.elim [] figures

/-- All digits. -/
def digits : List Nat := figures t.whole ++ t.behind

def exponentValue : Int := t.exponent.elim 0 ExponentPart.value

/-- The number without its sign. -/
def value : ℚ := (Nat.ofDigits 10 t.digits.reverse : ℕ) * 10 ^ (t.exponentValue - t.behind.length)

end DecimalText

/-! ## What is read -/

/-- An `int` that saturates. -/
def clampInt (i : Int) : Int := max (-2147483648) (min 2147483647 i)

theorem saturatedDecimalAdd_eq {v a : Int} (lower : -2147483648 ≤ v) (upper : v ≤ 2147483647)
    (lower' : -2147483648 ≤ a) (upper' : a ≤ 2147483647) : saturatedDecimalAdd v a = clampInt (v + a) := by
  unfold saturatedDecimalAdd clampInt
  split
  · omega
  · split <;> omega

/-- The digits from the first one that is not a zero. -/
def significantDigits (figs : List Nat) : List Nat := figs.dropWhile (· == 0)

theorem significantDigits_zero {figs : List Nat} (none : significantDigits figs = []) :
    significantDigits (figs ++ [0]) = [] := by
  unfold significantDigits at *
  rw [dropWhile_append, none]
  rfl

theorem significantDigits_first {figs : List Nat} (none : significantDigits figs = []) {digit : Nat}
    (nonzero : digit ≠ 0) : significantDigits (figs ++ [digit]) = [digit] := by
  unfold significantDigits at *
  rw [dropWhile_append, none, if_pos isEmpty_nil]
  exact dropWhile_cons_of_neg fun zero => nonzero (beq_iff_eq.mp zero)

theorem significantDigits_more {figs : List Nat} (some : significantDigits figs ≠ []) (digit : Nat) :
    significantDigits (figs ++ [digit]) = significantDigits figs ++ [digit] := by
  unfold significantDigits at *
  rw [dropWhile_append, if_neg fun none => some (List.isEmpty_iff.mp none)]

/-- The place of the first significant digit, or of the last zero. -/
def leadingPlace (figs : List Nat) (whole : Nat) : Int :=
  (whole : Int) - figs.length + (significantDigits figs).length - if significantDigits figs = [] then 0 else 1

/-- The digits that have been read, of which `whole` stand before the point. -/
structure Reads (figs : List Nat) (whole : Nat) (m : Mantissa) : Prop where
  significant : m.significant = true ↔ significantDigits figs ≠ []
  digits : m.digits = (significantDigits figs).take 150
  sticky : m.sticky = ((significantDigits figs).drop 150).any (· != 0)
  magnitude : m.magnitude = clampInt (leadingPlace figs whole)
  before : whole ≤ figs.length
  dot : m.afterDot = false → whole = figs.length

section Reading
variable {figs : List Nat} {whole : Nat} {m : Mantissa}

/-- The digits before the point, when one more digit is read. -/
def Mantissa.nextWhole (m : Mantissa) (whole : Nat) : Nat := if m.afterDot then whole else whole + 1

theorem Reads.nextMagnitude (h : Reads figs whole m) (digit : Nat) :
    m.nextMagnitude = clampInt (leadingPlace (figs ++ [digit]) (m.nextWhole whole)) := by
  have magnitude := h.magnitude
  have before := h.before
  unfold leadingPlace at *
  unfold Mantissa.nextMagnitude Mantissa.nextWhole
  rw [length_append, length_singleton]
  by_cases none : significantDigits figs = []
  · have zeros : m.significant = false := Bool.eq_false_iff.mpr fun some => h.significant.mp some none
    -- a first digit is where another zero would be
    have place : ((significantDigits (figs ++ [digit])).length : Int) -
        (if significantDigits (figs ++ [digit]) = [] then 0 else 1) = 0 := by
      by_cases zero : digit = 0
      · rw [zero, significantDigits_zero none, if_pos rfl]
        rfl
      · rw [significantDigits_first none zero, if_neg (cons_ne_nil digit []), length_singleton]
        rfl
    rw [none, if_pos rfl, length_nil] at magnitude
    rw [if_pos zeros]
    cases after : m.afterDot with
    | true =>
      have range : -2147483648 ≤ m.magnitude ∧ m.magnitude ≤ 2147483647 := by
        rw [magnitude]
        unfold clampInt
        omega
      rw [if_pos rfl, if_pos rfl, saturatedDecimalAdd_eq range.1 range.2 (by decide) (by decide), magnitude]
      unfold clampInt
      omega
    | false =>
      have all := h.dot after
      rw [if_neg Bool.false_ne_true, if_neg Bool.false_ne_true, magnitude]
      unfold clampInt
      omega
  · have some : m.significant = true := h.significant.mpr none
    have notZeros : ¬ m.significant = false := by
      rw [some]
      decide
    rw [if_neg none] at magnitude
    rw [if_neg notZeros, significantDigits_more none, length_append, length_singleton,
      if_neg (append_ne_nil_of_left_ne_nil none [digit])]
    cases after : m.afterDot with
    | true =>
      rw [if_neg Bool.false_ne_true.symm, if_pos rfl, magnitude]
      congr 1
      omega
    | false =>
      have all := h.dot after
      have range : -2147483648 ≤ m.magnitude ∧ m.magnitude ≤ 2147483647 := by
        rw [magnitude]
        unfold clampInt
        omega
      rw [if_pos rfl, if_neg Bool.false_ne_true, saturatedDecimalAdd_eq range.1 range.2 (by decide) (by decide),
        magnitude]
      unfold clampInt
      omega

theorem Reads.figure (h : Reads figs whole m) (digit : Nat) :
    Reads (figs ++ [digit]) (m.nextWhole whole) (m.figure digit) := by
  have magnitude := h.nextMagnitude digit
  have before : m.nextWhole whole ≤ (figs ++ [digit]).length := by
    have := h.before
    unfold Mantissa.nextWhole
    rw [length_append, length_singleton]
    split <;> omega
  have dot : m.afterDot = false → m.nextWhole whole = (figs ++ [digit]).length := by
    intro after
    unfold Mantissa.nextWhole
    rw [length_append, length_singleton, if_neg (Bool.eq_false_iff.mp after), h.dot after]
  unfold Mantissa.figure
  by_cases none : significantDigits figs = []
  · have zeros : m.significant = false := Bool.eq_false_iff.mpr fun some => h.significant.mp some none
    have nothing : m.digits = [] := by rw [h.digits, none]; rfl
    have noSticky : m.sticky = false := by rw [h.sticky, none]; rfl
    by_cases zero : digit = 0
    · subst zero
      rw [if_pos ⟨zeros, rfl⟩]
      have still := significantDigits_zero none
      refine ⟨?_, ?_, ?_, magnitude, before, dot⟩
      · rw [still]
        exact ⟨fun some => absurd (some.symm.trans zeros) (by decide), fun wrong => absurd rfl wrong⟩
      · rw [still]
        exact nothing
      · rw [still]
        exact noSticky
    · have first := significantDigits_first none zero
      rw [if_neg fun both => zero both.2, nothing, if_pos (by decide)]
      refine ⟨?_, ?_, ?_, magnitude, before, dot⟩
      · rw [first]
        exact ⟨fun _ => cons_ne_nil digit [], fun _ => rfl⟩
      · rw [first]
        rfl
      · rw [first]
        exact noSticky
  · have some : m.significant = true := h.significant.mpr none
    have more := significantDigits_more none digit
    have kept : m.digits.length < 150 ↔ (significantDigits figs).length < 150 := by
      rw [h.digits, length_take]
      omega
    have still : true = true ↔ significantDigits (figs ++ [digit]) ≠ [] := by
      rw [more]
      simp
    rw [if_neg fun both => absurd (some.symm.trans both.1) (by decide)]
    by_cases room : m.digits.length < 150
    · have short := kept.mp room
      have length : (significantDigits figs ++ [digit]).length ≤ 150 := by
        rw [length_append, length_singleton]
        omega
      rw [if_pos room]
      refine ⟨still, ?_, ?_, magnitude, before, dot⟩
      · rw [more, take_of_length_le length, h.digits, take_of_length_le short.le]
      · rw [more, drop_eq_nil_of_le length, h.sticky, drop_eq_nil_of_le short.le]
    · have full : 150 ≤ (significantDigits figs).length := not_lt.mp fun less => room (kept.mpr less)
      rw [if_neg room]
      refine ⟨still, ?_, ?_, magnitude, before, dot⟩
      · rw [more, take_append_of_le_length full]
        exact h.digits
      · rw [more, drop_append_of_le_length full, any_append, ← h.sticky, any_cons, any_nil, Bool.or_false]

theorem figure_afterDot (m : Mantissa) (digit : Nat) : (m.figure digit).afterDot = m.afterDot := by
  unfold Mantissa.figure
  split
  · rfl
  · split <;> rfl

theorem Reads.figures (h : Reads figs whole m) (more : List Nat) :
    Reads (figs ++ more) (if m.afterDot then whole else whole + more.length) (more.foldl Mantissa.figure m) := by
  induction more generalizing figs whole m with
  | nil =>
    rw [append_nil, length_nil, add_zero, ite_self]
    exact h
  | cons digit rest ih =>
    have next := ih (h.figure digit)
    rw [append_assoc, figure_afterDot] at next
    have count : (if m.afterDot then m.nextWhole whole else m.nextWhole whole + rest.length) =
        if m.afterDot then whole else whole + (digit :: rest).length := by
      unfold Mantissa.nextWhole
      rw [length_cons]
      split
      · rfl
      · omega
    rw [count] at next
    exact next

theorem Reads.point (h : Reads figs whole m) : Reads figs whole { m with afterDot := true } where
  significant := h.significant
  digits := h.digits
  sticky := h.sticky
  magnitude := h.magnitude
  before := h.before
  dot := by
    intro wrong
    cases wrong

theorem reads_nothing : Reads [] 0 ⟨false, false, false, 0, []⟩ where
  significant := ⟨fun wrong => absurd wrong (by decide), fun wrong => absurd rfl wrong⟩
  digits := rfl
  sticky := rfl
  magnitude := rfl
  before := le_rfl
  dot := fun _ => rfl

/-- Underscores are passed over. -/
theorem foldl_byte {text : List UInt8} (ok : IsFigures text) (m : Mantissa) :
    text.foldl Mantissa.byte m = (figures text).foldl Mantissa.figure m := by
  induction text generalizing m with
  | nil => rfl
  | cons c rest ih =>
    have tail := ih (fun d listed => ok d (mem_cons_of_mem c listed))
    unfold figures at *
    rw [foldl_cons, tail]
    unfold Mantissa.byte
    rcases ok c (.head _) with rfl | digit
    · rfl
    · have range : 48 ≤ c.toNat ∧ c.toNat ≤ 57 := ⟨UInt8.le_iff_toNat_le.mp digit.1, UInt8.le_iff_toNat_le.mp digit.2⟩
      have notUnderscore : c ≠ 95 := by
        rintro rfl
        exact absurd range.2 (by decide)
      have notPoint : c ≠ 46 := by
        rintro rfl
        exact absurd range.1 (by decide)
      have kept : (c :: rest).filter (· != 95) = c :: rest.filter (· != 95) :=
        filter_cons_of_pos (bne_iff_ne.mpr notUnderscore)
      rw [if_neg notUnderscore, if_neg notPoint, kept, map_cons, foldl_cons]

end Reading

/-! ## The number of a text -/

theorem readSign_signText (sign : Option Bool) {rest : List UInt8} (plain : ∀ c ∈ rest.head?, c ≠ 43 ∧ c ≠ 45) :
    readSign (signText sign ++ rest) = (sign == some true, rest) := by
  cases sign with
  | none =>
    cases rest with
    | nil => rfl
    | cons c rest =>
      obtain ⟨noPlus, noMinus⟩ := plain c rfl
      have other : ¬ (c = 43 ∨ c = 45) := fun either => either.elim noPlus noMinus
      have code : readSign (c :: rest) = if c = 43 ∨ c = 45 then (c == 45, rest) else (false, c :: rest) := rfl
      exact code.trans (if_neg other)
  | some minus => cases minus <;> rfl

theorem figures_digits {text : List UInt8} (ok : IsFigures text) : ∀ d ∈ figures text, d < 10 := by
  intro d listed
  unfold figures at listed
  obtain ⟨c, kept, rfl⟩ := List.mem_map.mp listed
  obtain ⟨inside, notUnderscore⟩ := mem_filter.mp kept
  rcases ok c inside with rfl | digit
  · exact absurd notUnderscore (by decide)
  · have upper : c.toNat ≤ 57 := UInt8.le_iff_toNat_le.mp digit.2
    omega

theorem IsFigures.byte {text : List UInt8} (ok : IsFigures text) {c : UInt8} (listed : c ∈ text) :
    c ≠ 43 ∧ c ≠ 45 ∧ c ≠ 46 ∧ isExponentMark c = false := by
  rcases ok c listed with rfl | digit
  · decide
  · have lower : 48 ≤ c.toNat := UInt8.le_iff_toNat_le.mp digit.1
    have upper : c.toNat ≤ 57 := UInt8.le_iff_toNat_le.mp digit.2
    have other : ∀ d : UInt8, d.toNat < 48 ∨ 57 < d.toNat → c ≠ d := by
      rintro d outside rfl
      omega
    refine ⟨other 43 (by decide), other 45 (by decide), other 46 (by decide), ?_⟩
    unfold isExponentMark
    rw [beq_eq_false_iff_ne.mpr (other 101 (by decide)), beq_eq_false_iff_ne.mpr (other 69 (by decide))]
    rfl

/-- The loop over the exponent computes the number of its digits, as far as an `int` goes. -/
theorem foldl_exponentByte {text : List UInt8} (ok : IsFigures text) (n : Nat) :
    text.foldl exponentByte (min n 2147483647) = min ((figures text).foldl (fun m d => m * 10 + d) n) 2147483647 := by
  induction text generalizing n with
  | nil => rfl
  | cons c rest ih =>
    have tail := ih fun d listed => ok d (mem_cons_of_mem c listed)
    unfold figures at *
    rw [foldl_cons]
    rcases ok c (.head _) with rfl | digit
    · exact tail n
    · have range : 48 ≤ c.toNat ∧ c.toNat ≤ 57 := ⟨UInt8.le_iff_toNat_le.mp digit.1, UInt8.le_iff_toNat_le.mp digit.2⟩
      have notUnderscore : c ≠ 95 := by
        rintro rfl
        exact absurd range.2 (by decide)
      have kept : (c :: rest).filter (· != 95) = c :: rest.filter (· != 95) :=
        filter_cons_of_pos (bne_iff_ne.mpr notUnderscore)
      have step : exponentByte (min n 2147483647) c = min (n * 10 + (c.toNat - 48)) 2147483647 := by
        unfold exponentByte
        split
        · split <;> omega
        · rename_i full
          have : ¬ min n 2147483647 < 2147483647 := fun less => full ⟨notUnderscore, less⟩
          omega
      rw [step, tail, kept, map_cons, foldl_cons]

theorem ofDigits_reverse (ds : List Nat) (n : Nat) :
    ds.foldl (fun m d => m * 10 + d) n = n * 10 ^ ds.length + Nat.ofDigits 10 ds.reverse := by
  induction ds generalizing n with
  | nil => simp
  | cons d rest ih =>
    rw [foldl_cons, ih, reverse_cons, Nat.ofDigits_append, Nat.ofDigits_singleton, length_reverse,
      length_cons, pow_succ]
    ring

namespace DecimalText
variable (t : DecimalText)

/-- The significant digits of a text. -/
def significant : List Nat := significantDigits t.digits

/-- The place of the first significant digit: 0 before the point, negative behind it. -/
def place : Int := (figures t.whole).length - t.digits.length + t.significant.length - 1

theorem digits_lt : ∀ d ∈ t.digits, d < 10 := by
  intro d listed
  rcases mem_append.mp listed with whole | behind
  · exact figures_digits t.whole_ok d whole
  · unfold DecimalText.behind at behind
    cases fraction : t.fraction with
    | none =>
      rw [fraction] at behind
      simp at behind
    | some digits =>
      rw [fraction] at behind
      exact figures_digits (t.fraction_ok digits fraction) d behind

variable {t}

theorem significant_spec (nonzero : t.significant ≠ []) : Significant t.significant where
  digits := fun d listed => t.digits_lt d ((dropWhile_sublist _).mem listed)
  first := by
    cases shape : t.significant with
    | nil => exact absurd shape nonzero
    | cons d rest =>
      refine ⟨d, rest, rfl, ?_⟩
      rintro rfl
      have head := head?_dropWhile_not (· == 0) t.digits
      have same : (t.digits.dropWhile (· == 0)).head? = some 0 := by
        have : t.digits.dropWhile (· == 0) = 0 :: rest := shape
        rw [this]
        rfl
      rw [same] at head
      exact absurd head (by decide)

/-- Zeros in front do not count. -/
theorem ofDigits_significant (figs : List Nat) :
    Nat.ofDigits 10 (significantDigits figs).reverse = Nat.ofDigits 10 figs.reverse := by
  unfold significantDigits
  induction figs with
  | nil => rfl
  | cons d rest ih =>
    by_cases zero : d = 0
    · have dropped : (d :: rest).dropWhile (· == 0) = rest.dropWhile (· == 0) :=
        dropWhile_cons_of_pos (beq_iff_eq.mpr zero)
      rw [dropped, ih, zero, reverse_cons, Nat.ofDigits_append_zero]
    · have kept : (d :: rest).dropWhile (· == 0) = d :: rest :=
        dropWhile_cons_of_neg fun same => zero (beq_iff_eq.mp same)
      rw [kept]

theorem value_eq (nonzero : t.significant ≠ []) :
    t.value = Expansion.value 10 t.significant * 10 ^ (t.place + t.exponentValue) := by
  have reversed := Expansion.value_reverse (by decide : 0 < 10) t.significant.reverse (by simpa using nonzero)
  rw [reverse_reverse, length_reverse] at reversed
  have count : t.digits.length = (figures t.whole).length + t.behind.length := length_append
  have positive := length_pos_of_ne_nil nonzero
  have place : t.place + t.exponentValue =
      (t.significant.length - 1 : ℕ) + (t.exponentValue - t.behind.length) := by
    unfold DecimalText.place
    omega
  unfold DecimalText.value
  rw [← ofDigits_significant, place, zpow_add₀ (by norm_num), zpow_natCast, ← mul_assoc]
  congr 1
  exact reversed.symm

/-! ## Reading a text -/

variable (t)

/-- The text between the sign and the exponent. -/
def mantissaText : List UInt8 := t.whole ++ t.fraction.elim [] (46 :: ·)

theorem mantissa_byte : ∀ c ∈ t.mantissaText, (c ≠ 43 ∧ c ≠ 45) ∧ (!isExponentMark c) = true := by
  intro c listed
  have plain : (c ≠ 43 ∧ c ≠ 45) ∧ isExponentMark c = false := by
    rcases mem_append.mp listed with whole | behind
    · obtain ⟨plus, minus, -, mark⟩ := t.whole_ok.byte whole
      exact ⟨⟨plus, minus⟩, mark⟩
    · cases fraction : t.fraction with
      | none =>
        rw [fraction] at behind
        simp at behind
      | some digits =>
        rw [fraction] at behind
        rcases mem_cons.mp behind with rfl | inside
        · decide
        · obtain ⟨plus, minus, -, mark⟩ := (t.fraction_ok digits fraction).byte inside
          exact ⟨⟨plus, minus⟩, mark⟩
  rw [plain.2]
  exact ⟨plain.1, rfl⟩

theorem mantissa_reads : Reads t.digits (figures t.whole).length
    (t.mantissaText.foldl Mantissa.byte ⟨false, false, false, 0, []⟩) := by
  have whole := reads_nothing.figures (figures t.whole)
  rw [nil_append, if_neg Bool.false_ne_true, zero_add] at whole
  unfold mantissaText DecimalText.digits behind
  rw [foldl_append, foldl_byte t.whole_ok]
  cases fraction : t.fraction with
  | none =>
    show Reads (figures t.whole ++ []) _ _
    rw [append_nil]
    exact whole
  | some digits =>
    have behind := whole.point.figures (figures digits)
    rw [if_pos rfl] at behind
    show Reads (figures t.whole ++ figures digits) _ ((46 :: digits).foldl Mantissa.byte _)
    rw [foldl_cons, foldl_byte (t.fraction_ok digits fraction)]
    exact behind

/-- The exponent that is read: it saturates. -/
def readExponent : Int :=
  match t.exponent with
  | none => 0
  | some e =>
    let n : Nat := min (Nat.ofDigits 10 (figures e.digits).reverse) 2147483647
    if e.sign = some true then -(n : Int) else n

theorem decimalToFloat_eq :
    pphpDecimalToFloat t.text =
      if t.significant = [] then .ofNat 32 (if t.negative then 0x80000000 else 0)
      else
        let bits := decimalBits (t.significant.take 150) ((t.significant.drop 150).any (· != 0))
          (saturatedDecimalAdd (clampInt t.place) t.readExponent)
        .ofNat 32 (if t.negative then bits ||| 0x80000000 else bits) := by
  have reads := t.mantissa_reads
  have body : t.text = signText t.sign ++ (t.mantissaText ++ t.exponent.elim [] ExponentPart.text) := by
    unfold text mantissaText
    rw [append_assoc]
  have unmarked := fun c listed => (t.mantissa_byte c listed).2
  have unsigned : ∀ c ∈ (t.mantissaText ++ t.exponent.elim [] ExponentPart.text).head?, c ≠ 43 ∧ c ≠ 45 := by
    intro c first
    cases shape : t.mantissaText with
    | nil =>
      rw [shape, nil_append] at first
      cases exponent : t.exponent with
      | none =>
        rw [exponent] at first
        cases first
      | some e =>
        rw [exponent] at first
        obtain rfl : e.mark = c := Option.some.inj first
        have mark := e.mark_ok
        constructor <;> rintro same <;> rw [same] at mark <;> exact absurd mark (by decide)
    | cons d rest =>
      rw [shape] at first
      obtain rfl : d = c := Option.some.inj first
      exact (t.mantissa_byte d (by rw [shape]; exact .head _)).1
  have before : (t.mantissaText ++ t.exponent.elim [] ExponentPart.text).takeWhile (fun c => !isExponentMark c) =
      t.mantissaText := by
    rw [takeWhile_append_of_pos unmarked]
    cases exponent : t.exponent with
    | none => exact append_nil _
    | some e =>
      have stop : (e.text).takeWhile (fun c => !isExponentMark c) = [] :=
        takeWhile_cons_of_neg (by rw [e.mark_ok]; decide)
      show t.mantissaText ++ e.text.takeWhile _ = _
      rw [stop, append_nil]
  have after : (t.mantissaText ++ t.exponent.elim [] ExponentPart.text).dropWhile (fun c => !isExponentMark c) =
      t.exponent.elim [] ExponentPart.text := by
    rw [dropWhile_append_of_pos unmarked]
    cases exponent : t.exponent with
    | none => rfl
    | some e => exact dropWhile_cons_of_neg (by rw [e.mark_ok]; decide)
  have exponent : (if (readSign (t.exponent.elim [] ExponentPart.text).tail).1 then
        -(((readSign (t.exponent.elim [] ExponentPart.text).tail).2.foldl exponentByte 0 : Nat) : Int)
      else ((readSign (t.exponent.elim [] ExponentPart.text).tail).2.foldl exponentByte 0 : Nat)) = t.readExponent := by
    unfold readExponent
    cases t.exponent with
    | none => rfl
    | some e =>
      have plain : ∀ c ∈ e.digits.head?, c ≠ 43 ∧ c ≠ 45 := by
        intro c first
        obtain ⟨plus, minus, -⟩ := e.digits_ok.byte (mem_of_mem_head? first)
        exact ⟨plus, minus⟩
      have tail : (Option.elim (some e) [] ExponentPart.text).tail = signText e.sign ++ e.digits := rfl
      have number := foldl_exponentByte e.digits_ok 0
      rw [ofDigits_reverse, zero_mul, zero_add] at number
      rw [tail, readSign_signText e.sign plain]
      dsimp only
      have start : min 0 2147483647 = 0 := rfl
      rw [start] at number
      rw [number]
      cases e.sign with
      | none => rfl
      | some minus => cases minus <;> rfl
  unfold pphpDecimalToFloat
  rw [body, readSign_signText t.sign unsigned]
  dsimp only
  rw [before, after]
  generalize readSign (t.exponent.elim [] ExponentPart.text).tail = signed at exponent ⊢
  obtain ⟨minus, written⟩ := signed
  rw [reads.digits, reads.sticky, reads.magnitude, exponent]
  have place : clampInt (leadingPlace t.digits (figures t.whole).length) =
      if t.significant = [] then clampInt (leadingPlace t.digits (figures t.whole).length) else clampInt t.place := by
    split
    · rfl
    · rename_i some
      unfold leadingPlace DecimalText.place
      rw [if_neg (show ¬ significantDigits t.digits = [] from some)]
      rfl
  by_cases none : t.significant = []
  · have zero : (t.mantissaText.foldl Mantissa.byte ⟨false, false, false, 0, []⟩).significant = false :=
      Bool.eq_false_iff.mpr fun some => reads.significant.mp some none
    rw [if_pos zero, if_pos none]
    rfl
  · have some : ¬ (t.mantissaText.foldl Mantissa.byte ⟨false, false, false, 0, []⟩).significant = false := by
      rw [reads.significant.mpr none]
      decide
    rw [if_neg some, if_neg none, place, if_neg none]
    rfl

variable {t}

theorem rounds_zero (none : t.significant = []) : Rounds 32 23 t.negative t.value (pphpDecimalToFloat t.text) := by
  have value : t.value = 0 * least 32 23 := by
    have zero : Nat.ofDigits 10 t.digits.reverse = 0 := by
      rw [← ofDigits_significant]
      have : significantDigits t.digits = [] := none
      rw [this]
      rfl
    unfold DecimalText.value
    rw [zero, Nat.cast_zero, zero_mul, zero_mul]
  have bracketed : Bracketed 32 23 0 0 := by
    refine ⟨Nat.zero_le _, fun k impossible => absurd impossible (Nat.succ_ne_zero k), fun _ => ⟨?_, fun _ => rfl⟩⟩
    have above := units_lt_tiePoint 23 0
    linarith
  have code : pphpDecimalToFloat t.text = ofParts 32 t.negative 0 := by
    rw [t.decimalToFloat_eq, if_pos none]
    cases t.negative <;> rfl
  rw [value, code]
  exact bracketed.rounds binary32 t.negative

theorem decimalToFloat_parts (some : t.significant ≠ []) :
    pphpDecimalToFloat t.text = ofParts 32 t.negative (decimalBits (t.significant.take 150)
      ((t.significant.drop 150).any (· != 0)) (saturatedDecimalAdd (clampInt t.place) t.readExponent)) := by
  have bracketed :=
    decimalBits_bracketed (significant_spec some) (saturatedDecimalAdd (clampInt t.place) t.readExponent)
  have small := bracketed.within.trans_lt binary32.infinity_lt
  rw [t.decimalToFloat_eq, if_neg some]
  generalize decimalBits _ _ _ = bits at small
  unfold ofParts
  cases t.negative with
  | false => exact congrArg (BitVec.ofNat 32) (zero_add bits).symm
  | true =>
    have join : bits ||| 0x80000000 = 2 ^ 31 + bits := by
      rw [Nat.or_comm]
      exact (Nat.two_pow_add_eq_or_of_lt small 1).symm
    exact congrArg (BitVec.ofNat 32) join

theorem rounds_kept (some : t.significant ≠ []) {m : Int}
    (kept : decimalBits (t.significant.take 150) ((t.significant.drop 150).any (· != 0))
        (saturatedDecimalAdd (clampInt t.place) t.readExponent) =
      decimalBits (t.significant.take 150) ((t.significant.drop 150).any (· != 0)) m) :
    Rounds 32 23 t.negative (Expansion.value 10 t.significant * 10 ^ m) (pphpDecimalToFloat t.text) := by
  have rounds := (decimalBits_bracketed (significant_spec some) m).rounds binary32 t.negative
  rw [div_mul_cancel₀ _ (least_pos 32 23).ne', ← kept, ← decimalToFloat_parts some] at rounds
  exact rounds

/-- Magnitudes that are too large, or too small, give the same float. -/
theorem decimalBits_congr (ds : List Nat) (sticky : Bool) {c m : Int}
    (same : c = m ∨ 38 < c ∧ 38 < m ∨ c < -46 ∧ m < -46) : decimalBits ds sticky c = decimalBits ds sticky m := by
  rcases same with rfl | ⟨large, large'⟩ | ⟨small, small'⟩
  · rfl
  · unfold decimalBits
    rw [if_pos large, if_pos large']
  · have notLarge : ¬ 38 < c := by omega
    have notLarge' : ¬ 38 < m := by omega
    unfold decimalBits
    rw [if_neg notLarge, if_neg notLarge', if_pos small, if_pos small']

/-- What is kept of the place and the exponent is enough while the place fits. -/
theorem kept_magnitude (near : |t.place| ≤ 2147483600) :
    let kept := saturatedDecimalAdd (clampInt t.place) t.readExponent
    kept = t.place + t.exponentValue ∨ 38 < kept ∧ 38 < t.place + t.exponentValue ∨
      kept < -46 ∧ t.place + t.exponentValue < -46 := by
  obtain ⟨lower, upper⟩ := abs_le.mp near
  have place : clampInt t.place = t.place := by
    unfold clampInt
    omega
  have range : -2147483647 ≤ t.readExponent ∧ t.readExponent ≤ 2147483647 ∧
      (t.readExponent = t.exponentValue ∨ t.readExponent = 2147483647 ∧ 2147483647 ≤ t.exponentValue ∨
        t.readExponent = -2147483647 ∧ t.exponentValue ≤ -2147483647) := by
    unfold readExponent exponentValue
    cases t.exponent with
    | none => decide
    | some e =>
      show _ ∧ _ ∧ (_ = e.value ∨ _ ∧ _ ≤ e.value ∨ _ ∧ e.value ≤ _)
      unfold ExponentPart.value
      dsimp only
      split <;> omega
  rw [place, saturatedDecimalAdd_eq (by omega) (by omega) (by omega) (by omega)]
  unfold clampInt
  omega

/-- **`pphp_decimal_to_float` gives the single float nearest to a decimal text, unless its first significant digit is
too far from the point.** -/
theorem decimal_rounds (near : t.significant ≠ [] → |t.place| ≤ 2147483600) :
    Rounds 32 23 t.negative t.value (pphpDecimalToFloat t.text) := by
  by_cases none : t.significant = []
  · exact rounds_zero none
  · rw [value_eq none]
    exact rounds_kept none (decimalBits_congr _ _ (kept_magnitude (near none)))

/-- The text "0.1". -/
def tenth : DecimalText where
  sign := none
  whole := [48]
  fraction := some [49]
  exponent := none
  whole_ok := by
    intro c listed
    rw [mem_singleton.mp listed]
    decide
  fraction_ok := by
    intro digits inside c listed
    obtain rfl := Option.some.inj inside
    rw [mem_singleton.mp listed]
    decide

theorem tenth_rounds : tenth.text = ascii "0.1" ∧
    Rounds 32 23 tenth.negative tenth.value (pphpDecimalToFloat tenth.text) :=
  ⟨by decide, decimal_rounds fun _ => by decide⟩

/-- A point, zeros, "1" and an exponent behind the range of an `int`. -/
def far (zeros : Nat) : DecimalText where
  sign := none
  whole := []
  fraction := some (replicate zeros 48 ++ [49])
  exponent := some ⟨101, none, replicate 10 57, by decide, by
    intro c listed
    rw [eq_of_mem_replicate listed]
    decide⟩
  whole_ok := fun _ listed => absurd listed not_mem_nil
  fraction_ok := by
    intro digits inside c listed
    obtain rfl := Option.some.inj inside
    rcases mem_append.mp listed with zero | one
    · rw [eq_of_mem_replicate zero]
      decide
    · rw [mem_singleton.mp one]
      decide

theorem far_digits (zeros : Nat) : (far zeros).digits = replicate zeros 0 ++ [1] := by
  have code : (far zeros).digits = figures (replicate zeros 48 ++ [49]) := rfl
  rw [code]
  unfold figures
  rw [filter_append, map_append]
  have plain : (replicate zeros (48 : UInt8)).filter (· != 95) = replicate zeros 48 :=
    filter_eq_self.mpr fun c listed => by rw [eq_of_mem_replicate listed]; decide
  rw [plain, map_replicate]
  rfl

theorem far_significant (zeros : Nat) : (far zeros).significant = [1] := by
  unfold significant significantDigits
  rw [far_digits, dropWhile_append_of_pos fun c listed => by rw [eq_of_mem_replicate listed]; rfl]
  rfl

theorem far_place (zeros : Nat) : (far zeros).place = -(zeros : Int) - 1 := by
  unfold DecimalText.place
  rw [far_digits, far_significant, length_append, length_replicate]
  show (0 : Int) - ((zeros + 1 : Nat) : Int) + 1 - 1 = _
  omega

theorem threshold_binary32 : 1 < threshold 32 23 ∧ threshold 32 23 ≤ 10 ^ (39 : ℤ) := by
  have last : infinity 32 23 - 1 = 253 * 2 ^ 23 + (2 ^ 24 - 1) := by decide
  have top : infinity 32 23 - 1 + 1 = 254 * 2 ^ 23 + 2 ^ 23 := by decide
  rw [binary32.threshold_eq]
  unfold tiePoint
  rw [top, last, units_binade (by decide) (by decide), units_binade (by decide) (by decide)]
  have unit : least 32 23 = 1 / 2 ^ 149 := by
    rw [one_div, ← zpow_natCast, ← zpow_neg]
    rfl
  rw [unit]
  constructor <;> norm_num

/-- The exponent is cut off at the greatest `int`, but the zeros are counted. -/
theorem far_not_rounded {zeros : Nat} (count : zeros = 2147483646) :
    ¬ Rounds 32 23 (far zeros).negative (far zeros).value (pphpDecimalToFloat (far zeros).text) := by
  intro correct
  have some : (far zeros).significant ≠ [] := by
    rw [far_significant]
    exact cons_ne_nil 1 []
  have exponent : (far zeros).readExponent = 2147483647 := by
    have code : (far zeros).readExponent =
        (min (Nat.ofDigits 10 (figures (replicate 10 57)).reverse) 2147483647 : Nat) := rfl
    rw [code]
    decide
  have written : (far zeros).exponentValue = 9999999999 := by
    have code : (far zeros).exponentValue = (Nat.ofDigits 10 (figures (replicate 10 57)).reverse : Nat) := rfl
    rw [code]
    decide
  have kept : saturatedDecimalAdd (clampInt (far zeros).place) (far zeros).readExponent = 0 := by
    rw [far_place, exponent, count]
    decide
  have computed := rounds_kept some (congrArg _ kept)
  have value := value_eq some
  rw [far_significant, far_place, written] at value
  rw [far_significant] at computed
  have one : Expansion.value 10 [1] = 1 := by
    rw [Expansion.value_cons, Expansion.value_nil]
    norm_num
  rw [one, one_mul] at value
  rw [one, zpow_zero, one_mul] at computed
  have large : threshold 32 23 ≤ (far zeros).value := by
    rw [value]
    exact threshold_binary32.2.trans (zpow_le_zpow_right₀ (by norm_num) (by omega))
  have infinite := correct.nearest.overflow.mpr large
  exact absurd (computed.nearest.overflow.mp infinite) (not_le.mpr threshold_binary32.1)

theorem far_text_not_nearest :
    ¬ Rounds 32 23 (far 2147483646).negative (far 2147483646).value (pphpDecimalToFloat (far 2147483646).text) :=
  far_not_rounded rfl

end DecimalText

end PhpPico.Value
