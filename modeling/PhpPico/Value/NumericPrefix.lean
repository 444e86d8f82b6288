import PhpPico.Lib.Scanning
import PhpPico.Value.Numeric
import Mathlib.Data.List.TakeWhile
import Mathlib.Data.List.Infix

/-!
# Numeric prefixes

A text is read as far as its number goes. `string_integer_exact` gives up at an 'e' behind the digits, which need not
begin an exponent, so that the number is then read as a float.
-/

namespace PhpPico.Value.NumericPrefix
open List Scanning

/-! ## The parts of a numeral -/

/-- A sign. -/
def isSign (c : UInt8) : Bool := c == 43 || c == 45

/-- The letter of an exponent. -/
def isExponent (c : UInt8) : Bool := c == 101 || c == 69

def space : Scanner UInt8 := .span isSpace

def sign : Scanner UInt8 := .after isSign .nothing

def digits : Scanner UInt8 := .span isDigit

/-- The point and the digits behind it. -/
def fraction : Scanner UInt8 := .after (· == 46) digits

/-- The letter of an exponent, a sign and digits, each as far as it is there. -/
def marked : Scanner UInt8 := .after isExponent (sign.andThen digits)

/-- An exponent has digits. -/
def exponent : Scanner UInt8 := .provided (·.any isDigit) marked

/-- A number with the space around it. -/
def numeral : Scanner UInt8 :=
  space.andThen (sign.andThen (digits.andThen (fraction.andThen (exponent.andThen space))))

theorem sign_greedy : sign.Greedy := Scanner.nothing_greedy.after isSign

theorem digits_greedy : digits.Greedy := Scanner.span_greedy isDigit

theorem space_greedy : space.Greedy := Scanner.span_greedy isSpace

theorem fraction_greedy : fraction.Greedy := digits_greedy.after _

theorem marked_greedy : marked.Greedy := (sign_greedy.andThen digits_greedy).after isExponent

variable {text : List UInt8}

theorem any_isDigit_grows {q : List UInt8} (front : q <+: text) (some_digit : q.any isDigit = true) :
    text.any isDigit = true := by
  obtain ⟨c, listed, digit⟩ := List.any_eq_true.mp some_digit
  exact List.any_eq_true.mpr ⟨c, front.subset listed, digit⟩

theorem exponent_stable : exponent.Stable := Scanner.provided_stable marked_greedy any_isDigit_grows

theorem space_of_marked (text : List UInt8) (begins : marked.taken text ≠ []) : space.taken text = [] := by
  cases text with
  | nil => rfl
  | cons c rest =>
    by_cases letter : isExponent c = true
    · have no_space : ¬ isSpace c = true := by
        simp only [isExponent, Bool.or_eq_true, beq_iff_eq] at letter
        rcases letter with rfl | rfl <;> decide
      exact takeWhile_cons_of_neg no_space
    · have nothing_taken : marked.taken (c :: rest) = [] := if_neg letter
      exact absurd nothing_taken begins

theorem exponent_space_stable : (exponent.andThen space).Stable :=
  Scanner.provided_andThen marked_greedy any_isDigit_grows space_greedy rfl space_of_marked

theorem numeral_stable : numeral.Stable :=
  space_greedy.andThen_stable (sign_greedy.andThen_stable (digits_greedy.andThen_stable
    (fraction_greedy.andThen_stable exponent_space_stable)))

/-- What a text begins with. -/
structure Pieces where
  space : List UInt8
  sign : List UInt8
  whole : List UInt8
  fraction : List UInt8
  exponent : List UInt8
  behind : List UInt8
  rest : List UInt8

/-- The text behind the digits before the point. -/
def behindDigits (text : List UInt8) : List UInt8 := digits.rest (sign.rest (space.rest text))

/-- The parts of the number at the beginning of a text. -/
def pieces (text : List UInt8) : Pieces :=
  let body := space.rest text
  let unsigned := sign.rest body
  let point := digits.rest unsigned
  let mantissa := fraction.rest point
  let tail := exponent.rest mantissa
  ⟨space.taken text, sign.taken body, digits.taken unsigned, fraction.taken point, exponent.taken mantissa,
    space.taken tail, space.rest tail⟩

theorem pieces_taken (text : List UInt8) : pieces (numeral.taken text) = { pieces text with rest := [] } := by
  have none_left : ([] : List UInt8) <+: space.rest (exponent.rest (fraction.rest (behindDigits text))) := nil_prefix
  have at_space := space.prefix_of_rest none_left
  have at_exponent := exponent.prefix_of_rest at_space
  have at_fraction := fraction.prefix_of_rest at_exponent
  have at_digits := digits.prefix_of_rest at_fraction
  have at_sign := sign.prefix_of_rest at_digits
  have front : numeral.taken text = space.taken text ++ (sign.taken (space.rest text) ++
      (digits.taken (sign.rest (space.rest text)) ++ (fraction.taken (behindDigits text) ++
        (exponent.taken (fraction.rest (behindDigits text)) ++
          (space.taken (exponent.rest (fraction.rest (behindDigits text))) ++ []))))) := by
    rw [append_nil]
    rfl
  rw [front, pieces]
  rw [space_greedy.stable.again at_sign, space_greedy.stable.rest_again at_sign,
    sign_greedy.stable.again at_digits, sign_greedy.stable.rest_again at_digits,
    digits_greedy.stable.again at_fraction, digits_greedy.stable.rest_again at_fraction,
    fraction_greedy.stable.again at_exponent, fraction_greedy.stable.rest_again at_exponent,
    exponent_stable.again at_space, exponent_stable.rest_again at_space,
    space_greedy.stable.again none_left, space_greedy.stable.rest_again none_left]
  rfl

/-- The digits of a prefix are digits of the text. -/
theorem pieces_start {q : List UInt8} (front : q <+: text) :
    (pieces q).whole <+: (pieces text).whole ∧ (pieces q).fraction <+: (pieces text).fraction := by
  unfold pieces
  dsimp only
  rcases space_greedy.goes_on front with all | ⟨-, bodies⟩
  · rw [all]
    simp
  rcases sign_greedy.goes_on bodies with all | ⟨-, unsigned⟩
  · rw [all]
    simp
  refine ⟨digits_greedy.mono unsigned, ?_⟩
  rcases digits_greedy.goes_on unsigned with all | ⟨-, points⟩
  · rw [all, Scanner.taken_nil]
    exact nil_prefix
  · exact fraction_greedy.mono points

/-! ## The scanners of the code -/

theorem readSign_eq (text : List UInt8) : readSign text = (sign.taken text == [45], sign.rest text) := by
  cases text with
  | nil => rfl
  | cons c rest =>
    have code : readSign (c :: rest) = if c = 43 ∨ c = 45 then (c == 45, rest) else (false, c :: rest) := rfl
    have taken : sign.taken (c :: rest) = if isSign c then [c] else [] := rfl
    have left : sign.rest (c :: rest) = if isSign c then rest else c :: rest := rfl
    have kind : isSign c = true ↔ c = 43 ∨ c = 45 := by
      simp only [isSign, Bool.or_eq_true, beq_iff_eq]
    rw [code, taken, left]
    by_cases signed : c = 43 ∨ c = 45
    · rw [if_pos signed, if_pos (kind.mpr signed), if_pos (kind.mpr signed)]
      rcases signed with rfl | rfl <;> rfl
    · rw [if_neg signed, if_neg (kind.not.mpr signed), if_neg (kind.not.mpr signed)]
      rfl

theorem sign_no_digit (text : List UInt8) : (sign.taken text).any isDigit = false := by
  cases text with
  | nil => rfl
  | cons c rest =>
    have taken : sign.taken (c :: rest) = if isSign c then [c] else [] := rfl
    rw [taken]
    by_cases signed : isSign c = true
    · rw [if_pos signed]
      simp only [isSign, Bool.or_eq_true, beq_iff_eq] at signed
      rcases signed with rfl | rfl <;> decide
    · rw [if_neg signed]
      rfl

theorem any_digits (text : List UInt8) : (digits.taken text).any isDigit = true ↔ digits.taken text ≠ [] := by
  constructor
  · intro some_digit none_left
    rw [none_left] at some_digit
    cases some_digit
  · intro more
    obtain ⟨c, listed⟩ := exists_mem_of_ne_nil _ more
    exact List.any_eq_true.mpr ⟨c, listed, mem_takeWhile_imp listed⟩

theorem exponent_taken_cons {c : UInt8} (letter : isExponent c = true) (rest : List UInt8) :
    exponent.taken (c :: rest) = if digits.taken (sign.rest rest) = [] then []
      else c :: (sign.taken rest ++ digits.taken (sign.rest rest)) := by
  have taken : marked.taken (c :: rest) = c :: (sign.taken rest ++ digits.taken (sign.rest rest)) := if_pos letter
  have code : exponent.taken (c :: rest) =
      if (marked.taken (c :: rest)).any isDigit then marked.taken (c :: rest) else [] := rfl
  have no_digit : isDigit c = false := by
    simp only [isExponent, Bool.or_eq_true, beq_iff_eq] at letter
    rcases letter with rfl | rfl <;> decide
  rw [code, taken, any_cons, no_digit, Bool.false_or, any_append, sign_no_digit, Bool.false_or]
  by_cases none_left : digits.taken (sign.rest rest) = []
  · rw [if_pos none_left, if_neg ((any_digits _).not.mpr (not_not.mpr none_left))]
  · rw [if_neg none_left, if_pos ((any_digits _).mpr none_left)]

theorem exponentLength_eq (text : List UInt8) : exponentLength text = (exponent.taken text).length := by
  cases text with
  | nil => rfl
  | cons c rest =>
    have kind : isExponent c = true ↔ (c :: rest).head? = some 101 ∨ (c :: rest).head? = some 69 := by
      simp only [isExponent, Bool.or_eq_true, beq_iff_eq, head?_cons, Option.some.injEq]
    unfold exponentLength
    by_cases letter : isExponent c = true
    · rw [if_pos (kind.mp letter), exponent_taken_cons letter, tail_cons, readSign_eq]
      change (if digits.taken (sign.rest rest) = [] then 0 else _) = _
      by_cases none_left : digits.taken (sign.rest rest) = []
      · rw [if_pos none_left, if_pos none_left]
        rfl
      · have whole := congrArg List.length (sign.splits rest)
        rw [length_append] at whole
        rw [if_neg none_left, if_neg none_left, length_cons, length_cons, length_append]
        change rest.length + 1 - (sign.rest rest).length + (digits.taken (sign.rest rest)).length = _
        omega
    · have nothing_taken : exponent.taken (c :: rest) = [] := by
        have unmarked : marked.taken (c :: rest) = [] := if_neg letter
        change (if (marked.taken (c :: rest)).any isDigit then marked.taken (c :: rest) else []) = []
        rw [unmarked]
        rfl
      rw [if_neg (kind.not.mp letter), nothing_taken]
      rfl

theorem exponent_rest (text : List UInt8) : exponent.rest text = text.drop (exponentLength text) := by
  have dropped := congrArg (List.drop (exponent.taken text).length) (exponent.splits text)
  rw [drop_left] at dropped
  rw [exponentLength_eq]
  exact dropped

/-- `string_integer_exact` gives up at a point or at the letter of an exponent behind the digits. -/
def Stops (text : List UInt8) : Prop := text.head? = some 46 ∨ text.head? = some 101 ∨ text.head? = some 69

instance (text : List UInt8) : Decidable (Stops text) := inferInstanceAs (Decidable (_ ∨ _))

/-- The magnitude of the digits before the point. -/
def Pieces.magnitude (p : Pieces) (cfg : Config) : Magnitude :=
  p.whole.foldl (Magnitude.digit (if p.sign == [45] then cfg.intMax + 1 else cfg.intMax)) ⟨0, true, true⟩

/-- The integer with this magnitude. -/
def Pieces.value (p : Pieces) (cfg : Config) : Int :=
  if p.sign == [45] then -((p.magnitude cfg).value : Int) else (p.magnitude cfg).value

/-- `string_integer_exact` on the parts of a text without a point or an exponent. -/
def Pieces.integer (p : Pieces) (cfg : Config) (requireComplete : Bool) : IntegerNumeral :=
  if requireComplete = true ∧ p.rest ≠ [] then .none
  else if !(p.magnitude cfg).inRange then .outOfRange p.whole (p.sign == [45]) (p.rest != [])
  else .exact (p.value cfg) (p.rest != [])

/-- `floating_string_number` on the parts of a text. -/
def Pieces.float (p : Pieces) (requireComplete : Bool) : Option FloatNumeral :=
  if p.whole = [] ∧ p.fraction.tail = [] then none
  else if requireComplete = true ∧ p.rest ≠ [] then none
  else some ⟨p.sign ++ (p.whole ++ (p.fraction ++ p.exponent)), p.fraction == [] && p.exponent == [], p.rest != []⟩

theorem fraction_of_no_point (no_point : text.head? ≠ some 46) :
    fraction.taken text = [] ∧ fraction.rest text = text := by
  have taken : fraction.taken text = [] := by
    cases text with
    | nil => rfl
    | cons c rest =>
      have other : ¬ (c == 46) = true := by
        simp only [head?_cons, ne_eq, Option.some.injEq] at no_point
        simp only [beq_iff_eq, no_point, not_false_eq_true]
      exact if_neg other
  exact ⟨taken, fraction.rest_of_taken_nil taken⟩

theorem exponent_of_no_letter (no_letter : text.head? ≠ some 101 ∧ text.head? ≠ some 69) :
    exponent.taken text = [] ∧ exponent.rest text = text := by
  have none_there : exponentLength text = 0 := by
    unfold exponentLength
    rw [if_neg (by tauto)]
  rw [exponent_rest, none_there]
  refine ⟨?_, rfl⟩
  rw [← length_eq_zero_iff, ← exponentLength_eq, none_there]

theorem pieces_of_not_stops (goes_on : ¬ Stops (behindDigits text)) :
    (pieces text).fraction = [] ∧ (pieces text).exponent = [] ∧
      (pieces text).rest = (behindDigits text).dropWhile isSpace := by
  unfold Stops at goes_on
  obtain ⟨no_fraction, same⟩ := fraction_of_no_point fun point => goes_on (.inl point)
  obtain ⟨no_exponent, same'⟩ := exponent_of_no_letter
    ⟨fun letter => goes_on (.inr (.inl letter)), fun letter => goes_on (.inr (.inr letter))⟩
  refine ⟨no_fraction, ?_, ?_⟩
  · change exponent.taken (fraction.rest (behindDigits text)) = []
    rw [same, no_exponent]
  · change space.rest (exponent.rest (fraction.rest (behindDigits text))) = _
    rw [same, same']
    rfl

theorem stringIntegerExact_of_stops (cfg : Config) (requireComplete : Bool)
    (gives_up : (pieces text).whole = [] ∨ Stops (behindDigits text)) :
    stringIntegerExact cfg text requireComplete = .none := by
  unfold stringIntegerExact
  rw [readSign_eq]
  exact if_pos gives_up

theorem stringIntegerExact_eq (cfg : Config) (requireComplete : Bool) (digits_there : (pieces text).whole ≠ [])
    (goes_on : ¬ Stops (behindDigits text)) :
    stringIntegerExact cfg text requireComplete = (pieces text).integer cfg requireComplete := by
  have left := (pieces_of_not_stops goes_on).2.2
  unfold stringIntegerExact Pieces.integer
  rw [readSign_eq, left]
  exact if_neg (not_or.mpr ⟨digits_there, goes_on⟩)

theorem fraction_eq (point : List UInt8) :
    (fraction.taken point).tail = (if point.head? = some 46 then point.tail.takeWhile isDigit else []) ∧
      fraction.rest point = (if point.head? = some 46 then point.tail.dropWhile isDigit else point) ∧
      (fraction.taken point == []) = decide (point.head? ≠ some 46) := by
  by_cases at_point : point.head? = some 46
  · cases point with
    | nil => cases at_point
    | cons c rest =>
      cases at_point
      exact ⟨rfl, rfl, rfl⟩
  · obtain ⟨taken, left⟩ := fraction_of_no_point at_point
    rw [taken, left, if_neg at_point, if_neg at_point]
    exact ⟨rfl, rfl, (decide_eq_true at_point).symm⟩

theorem floatingStringNumber_eq (text : List UInt8) (requireComplete : Bool) :
    floatingStringNumber text requireComplete = (pieces text).float requireComplete := by
  obtain ⟨tail, left, point⟩ := fraction_eq (behindDigits text)
  have no_exponent : (exponentLength (fraction.rest (behindDigits text)) == 0) =
      (exponent.taken (fraction.rest (behindDigits text)) == []) := by
    rw [exponentLength_eq, Bool.eq_iff_iff, beq_iff_eq, beq_iff_eq, length_eq_zero_iff]
  have body : space.rest text = sign.taken (space.rest text) ++ (digits.taken (sign.rest (space.rest text)) ++
      (fraction.taken (behindDigits text) ++ exponent.taken (fraction.rest (behindDigits text)))) ++
        exponent.rest (fraction.rest (behindDigits text)) := by
    rw [append_assoc, append_assoc, append_assoc, exponent.splits, fraction.splits]
    change _ = _ ++ (_ ++ digits.rest (sign.rest (space.rest text)))
    rw [digits.splits, sign.splits]
  have number : (space.rest text).take ((space.rest text).length -
      (exponent.rest (fraction.rest (behindDigits text))).length) =
      sign.taken (space.rest text) ++ (digits.taken (sign.rest (space.rest text)) ++
        (fraction.taken (behindDigits text) ++ exponent.taken (fraction.rest (behindDigits text)))) := by
    have lengths := congrArg List.length body
    rw [length_append] at lengths
    conv_lhs => rw [body]
    rw [length_append, Nat.add_sub_cancel, take_left]
  have code : floatingStringNumber text requireComplete =
      if digits.taken (readSign (space.rest text)).2 = [] ∧
          (if (digits.rest (readSign (space.rest text)).2).head? = some 46 then
            (digits.rest (readSign (space.rest text)).2).tail.takeWhile isDigit else []) = [] then none
      else
        let point := digits.rest (readSign (space.rest text)).2
        let mantissa := if point.head? = some 46 then point.tail.dropWhile isDigit else point
        let rest := mantissa.drop (exponentLength mantissa)
        let behind := rest.dropWhile isSpace
        if requireComplete = true ∧ behind ≠ [] then none
        else some ⟨(space.rest text).take ((space.rest text).length - rest.length),
          point.head? ≠ some 46 && exponentLength mantissa == 0, behind != []⟩ := rfl
  have unsigned : (readSign (space.rest text)).2 = sign.rest (space.rest text) := by rw [readSign_eq]
  have same : digits.rest (sign.rest (space.rest text)) = behindDigits text := rfl
  rw [code, unsigned, same, ← tail]
  dsimp only
  rw [← left, ← exponent_rest, number, no_exponent, ← point]
  rfl

/-! ## Numbers at the beginning of a text -/

/-- The number and its kind are the same. -/
structure SameNumber {cfg : Config} (a b : Numeric cfg) : Prop where
  number : a.number = b.number
  integer : a.integer = b.integer
  isInteger : a.isInteger = b.isInteger
  integerExact : a.integerExact = b.integerExact
  integerOutOfRange : a.integerOutOfRange = b.integerOutOfRange

/-- There are digits before or behind the point. -/
def Pieces.HasDigits (p : Pieces) : Prop := ¬ (p.whole = [] ∧ p.fraction.tail = [])

/-- The letter of an exponent stands behind the digits, but no exponent does. -/
def BareExponent (text : List UInt8) : Prop :=
  ((behindDigits text).head? = some 101 ∨ (behindDigits text).head? = some 69) ∧ exponentLength (behindDigits text) = 0

instance (text : List UInt8) : Decidable (BareExponent text) := inferInstanceAs (Decidable (_ ∧ _))

theorem behindDigits_eq (text : List UInt8) : behindDigits text =
    (pieces text).fraction ++ ((pieces text).exponent ++ ((pieces text).behind ++ (pieces text).rest)) := by
  change _ = _ ++ (_ ++ (space.taken (exponent.rest (fraction.rest (behindDigits text))) ++
    space.rest (exponent.rest (fraction.rest (behindDigits text)))))
  rw [space.splits]
  change _ = _ ++ (exponent.taken (fraction.rest (behindDigits text)) ++
    exponent.rest (fraction.rest (behindDigits text)))
  rw [exponent.splits]
  exact (fraction.splits _).symm

theorem behindDigits_taken (text : List UInt8) : behindDigits (numeral.taken text) =
    (pieces text).fraction ++ ((pieces text).exponent ++ (pieces text).behind) := by
  rw [behindDigits_eq, pieces_taken]
  rw [append_nil]

theorem not_stops_space (text : List UInt8) : ¬ Stops (space.taken text) := by
  intro stops
  have all : ∀ c, (space.taken text).head? = some c → isSpace c = true := by
    intro c at_head
    exact mem_takeWhile_imp (mem_of_mem_head? at_head)
  rcases stops with point | letter | letter
  · exact absurd (all _ point) (by decide)
  · exact absurd (all _ letter) (by decide)
  · exact absurd (all _ letter) (by decide)

theorem not_stops_taken (goes_on : ¬ Stops (behindDigits text)) : ¬ Stops (behindDigits (numeral.taken text)) := by
  obtain ⟨no_fraction, no_exponent, -⟩ := pieces_of_not_stops goes_on
  rw [behindDigits_taken, no_fraction, no_exponent]
  exact not_stops_space _

theorem exponent_eq_nil_iff : exponent.taken text = [] ↔ exponentLength text = 0 := by
  rw [exponentLength_eq, length_eq_zero_iff]

theorem stops_taken (gives_up : Stops (behindDigits text)) (formed : ¬ BareExponent text) :
    Stops (behindDigits (numeral.taken text)) := by
  have split := behindDigits_eq text
  have same : (behindDigits (numeral.taken text)).head? = (behindDigits text).head? := by
    rw [behindDigits_taken]
    conv_rhs => rw [split]
    by_cases point : (behindDigits text).head? = some 46
    · have some_fraction : (pieces text).fraction ≠ [] := by
        intro none_there
        have code := (fraction_eq (behindDigits text)).2.2
        change ((pieces text).fraction == []) = _ at code
        rw [none_there, eq_comm, beq_self_eq_true, decide_eq_true_iff] at code
        exact code point
      rw [head?_append_of_ne_nil _ some_fraction, head?_append_of_ne_nil _ some_fraction]
    · obtain ⟨no_fraction, left⟩ := fraction_of_no_point point
      have some_exponent : (pieces text).exponent ≠ [] := by
        change exponent.taken (fraction.rest (behindDigits text)) ≠ []
        rw [left, ne_eq, exponent_eq_nil_iff]
        exact fun none_there => formed ⟨gives_up.resolve_left point, none_there⟩
      have no_fraction' : (pieces text).fraction = [] := no_fraction
      rw [no_fraction', nil_append, nil_append, head?_append_of_ne_nil _ some_exponent,
        head?_append_of_ne_nil _ some_exponent]
  unfold Stops
  rw [same]
  exact gives_up

theorem not_stops_of_bare (bare : BareExponent text) : ¬ Stops (behindDigits (numeral.taken text)) := by
  have no_point : (behindDigits text).head? ≠ some 46 := by
    rcases bare.1 with letter | letter
    · rw [letter]
      decide
    · rw [letter]
      decide
  obtain ⟨no_fraction, left⟩ := fraction_of_no_point no_point
  have no_fraction' : (pieces text).fraction = [] := no_fraction
  have no_exponent : (pieces text).exponent = [] := by
    change exponent.taken (fraction.rest (behindDigits text)) = []
    rw [left, exponent_eq_nil_iff]
    exact bare.2
  rw [behindDigits_taken, no_fraction', no_exponent]
  exact not_stops_space _

section Reading
variable {cfg : Config} (floats : FloatConversions cfg)

theorem stringNumeric_of_integer (enabled : cfg.enableFloat = true) {text : List UInt8} {requireComplete : Bool}
    (digits_there : (pieces text).whole ≠ []) (goes_on : ¬ Stops (behindDigits text))
    (complete : requireComplete = true → (pieces text).rest = []) : stringNumeric floats text requireComplete =
      if ((pieces text).magnitude cfg).inRange then
        (true, .ofInteger floats ((pieces text).value cfg) (.behind ((pieces text).rest != []))) else
        (true, ⟨if (pieces text).sign == [45] then floats.neg (floats.ofDigits (pieces text).whole)
          else floats.ofDigits (pieces text).whole, 0, 0, false, true, .behind ((pieces text).rest != [])⟩) := by
  have accepted : ¬ (requireComplete = true ∧ (pieces text).rest ≠ []) := fun h => h.2 (complete h.1)
  unfold stringNumeric
  rw [stringIntegerExact_eq cfg requireComplete digits_there goes_on, Pieces.integer, if_neg accepted]
  cases in_range : ((pieces text).magnitude cfg).inRange with
  | true => rfl
  | false =>
    simp only [Bool.not_false, if_true, enabled]
    rfl

theorem stringNumeric_of_float (enabled : cfg.enableFloat = true) {text : List UInt8} (requireComplete : Bool)
    (gives_up : (pieces text).whole = [] ∨ Stops (behindDigits text)) :
    stringNumeric floats text requireComplete = match (pieces text).float requireComplete with
      | some found => (true, ⟨floats.ofDecimal found.number, 0, if found.isInteger then 1 else 0, false, false,
          .behind found.trailing⟩)
      | none => (false, ⟨0, 0, 0, false, false, .invalid⟩) := by
  unfold stringNumeric
  rw [stringIntegerExact_of_stops cfg requireComplete gives_up, floatingStringNumber_eq]
  simp only [enabled]
  cases (pieces text).float requireComplete with
  | none => rfl
  | some found => rfl

theorem Pieces.float_isSome {p : Pieces} : (∃ found, p.float true = some found) ↔ p.HasDigits ∧ p.rest = [] := by
  unfold Pieces.float Pieces.HasDigits
  by_cases digits_there : p.whole = [] ∧ p.fraction.tail = []
  · rw [if_pos digits_there]
    constructor
    · rintro ⟨found, none_found⟩
      cases none_found
    · rintro ⟨some_digits, -⟩
      exact absurd digits_there some_digits
  · rw [if_neg digits_there]
    by_cases more : p.rest = []
    · rw [if_neg fun h => h.2 more]
      exact iff_of_true ⟨_, rfl⟩ ⟨digits_there, more⟩
    · rw [if_pos ⟨rfl, more⟩]
      constructor
      · rintro ⟨found, none_found⟩
        cases none_found
      · rintro ⟨-, none_left⟩
        exact absurd none_left more

/-- **The numeric strings**, where there are floats: a number, with space around it. -/
theorem numeric_iff (enabled : cfg.enableFloat = true) (text : List UInt8) :
    (stringNumeric floats text true).1 = true ↔ (pieces text).HasDigits ∧ (pieces text).rest = [] := by
  by_cases gives_up : (pieces text).whole = [] ∨ Stops (behindDigits text)
  · rw [stringNumeric_of_float floats enabled true gives_up, ← Pieces.float_isSome]
    cases found : (pieces text).float true with
    | none => simp only [Bool.false_eq_true, reduceCtorEq, exists_false]
    | some numeral => simp only [Option.some.injEq, exists_eq']
  · obtain ⟨digits_there, goes_on⟩ := not_or.mp gives_up
    by_cases more : (pieces text).rest = []
    · rw [stringNumeric_of_integer floats enabled digits_there goes_on fun _ => more]
      refine iff_of_true ?_ ⟨fun none_there => digits_there none_there.1, more⟩
      split
      · rfl
      · rfl
    · have refused : stringIntegerExact cfg text true = .none := by
        rw [stringIntegerExact_eq cfg true digits_there goes_on, Pieces.integer, if_pos ⟨rfl, more⟩]
      have refused' : floatingStringNumber text true = none := by
        rw [floatingStringNumber_eq, Pieces.float, if_neg fun none_there => digits_there none_there.1,
          if_pos ⟨rfl, more⟩]
      refine iff_of_false ?_ fun h => more h.2
      unfold stringNumeric
      rw [refused, refused']
      exact Bool.false_ne_true

/-! ## The law of prefixes -/

section Law
variable {text : List UInt8}

theorem float_taken (some_digits : (pieces text).HasDigits) : ∃ found found', (pieces text).float false = some found ∧
      (pieces (numeral.taken text)).float true = some found' ∧ found.number = found'.number ∧
      found.isInteger = found'.isInteger := by
  rw [pieces_taken]
  unfold Pieces.HasDigits at some_digits
  have partly : ¬ ((false : Bool) = true ∧ (pieces text).rest ≠ []) := fun h => Bool.false_ne_true h.1
  have complete : ¬ ((true : Bool) = true ∧ ([] : List UInt8) ≠ []) := fun h => h.2 rfl
  unfold Pieces.float
  rw [if_neg some_digits, if_neg some_digits, if_neg partly, if_neg complete]
  exact ⟨_, _, rfl, rfl, rfl, rfl⟩

/-- The number at the beginning of a text is read as it is alone, unless the letter of an exponent is
left over. -/
theorem sameNumber_taken (enabled : cfg.enableFloat = true) (some_digits : (pieces text).HasDigits)
    (formed : ¬ BareExponent text) : (stringNumeric floats text false).1 = true ∧
      SameNumber (stringNumeric floats text false).2 (stringNumeric floats (numeral.taken text) true).2 := by
  have alone := pieces_taken text
  by_cases gives_up : (pieces text).whole = [] ∨ Stops (behindDigits text)
  · have gives_up' : (pieces (numeral.taken text)).whole = [] ∨ Stops (behindDigits (numeral.taken text)) := by
      rw [alone]
      exact gives_up.imp id fun stops => stops_taken stops formed
    obtain ⟨found, found', read, read', number, whole⟩ := float_taken some_digits
    rw [stringNumeric_of_float floats enabled false gives_up, stringNumeric_of_float floats enabled true gives_up',
      read, read']
    refine ⟨rfl, ?_, rfl, ?_, rfl, rfl⟩
    · dsimp only
      rw [number]
    · dsimp only
      rw [whole]
  · obtain ⟨digits_there, goes_on⟩ := not_or.mp gives_up
    have digits_there' : (pieces (numeral.taken text)).whole ≠ [] := by rwa [alone]
    have none_left : (pieces (numeral.taken text)).rest = [] := by rw [alone]
    rw [stringNumeric_of_integer floats enabled digits_there goes_on fun h => (by cases h),
      stringNumeric_of_integer floats enabled digits_there' (not_stops_taken goes_on) fun _ => none_left, alone]
    change _ ∧ SameNumber _ (if ((pieces text).magnitude cfg).inRange = true then _ else _ : Bool × Numeric cfg).2
    cases ((pieces text).magnitude cfg).inRange with
    | true => exact ⟨rfl, rfl, rfl, rfl, rfl, rfl⟩
    | false => exact ⟨rfl, rfl, rfl, rfl, rfl, rfl⟩

/-- Where the letter of an exponent is left over, the number is not read as the integer it is alone. -/
theorem not_sameNumber_of_bare (enabled : cfg.enableFloat = true) (some_digits : (pieces text).HasDigits)
    (bare : BareExponent text) :
    ¬ SameNumber (stringNumeric floats text false).2 (stringNumeric floats (numeral.taken text) true).2 := by
  have no_point : (behindDigits text).head? ≠ some 46 := by
    rcases bare.1 with letter | letter
    · rw [letter]
      decide
    · rw [letter]
      decide
  have no_fraction : (pieces text).fraction = [] := (fraction_of_no_point no_point).1
  have digits_there : (pieces text).whole ≠ [] := by
    intro none_there
    exact some_digits ⟨none_there, by rw [no_fraction]; rfl⟩
  have alone := pieces_taken text
  have digits_there' : (pieces (numeral.taken text)).whole ≠ [] := by rwa [alone]
  have none_left : (pieces (numeral.taken text)).rest = [] := by rw [alone]
  obtain ⟨found, found', read, -, -, -⟩ := float_taken some_digits
  rw [stringNumeric_of_float floats enabled false (.inr (.inr bare.1)), read,
    stringNumeric_of_integer floats enabled digits_there' (not_stops_of_bare bare) fun _ => none_left]
  intro same
  cases in_range : ((pieces (numeral.taken text)).magnitude cfg).inRange with
  | true =>
    rw [in_range] at same
    exact Bool.false_ne_true same.integerExact
  | false =>
    rw [in_range] at same
    exact Bool.false_ne_true same.integerOutOfRange

end Law

end Reading

/-! ## Without floats -/

theorem magnitude_stays_out (limit : Nat) (digits : List UInt8) {m : Magnitude} (out : m.inRange = false) :
    (digits.foldl (Magnitude.digit limit) m).inRange = false := by
  induction digits generalizing m with
  | nil => exact out
  | cons c rest ih =>
    apply ih
    simp only [Magnitude.digit, out, Bool.false_and]

theorem magnitude_inRange {limit : Nat} (small : limit < 2 ^ 64) (digits : List UInt8) (value : Nat)
    (le : value ≤ limit) : (digits.foldl (Magnitude.digit limit) ⟨value, true, true⟩).inRange = true ↔
      decimal value digits ≤ limit := by
  induction digits generalizing value with
  | nil => exact iff_of_true rfl le
  | cons c rest ih =>
    rw [foldl_cons, decimal, foldl_cons]
    change _ ↔ decimal (value * 10 + (c.toNat - 48)) rest ≤ limit
    by_cases overflow : (2 ^ 64 - 1 - (c.toNat - 48)) / 10 < value
    · have out : (Magnitude.digit limit ⟨value, true, true⟩ c).inRange = false := by
        simp only [Magnitude.digit, if_true, if_pos overflow, Bool.and_false, Bool.false_and]
      rw [magnitude_stays_out limit rest out]
      have grow := le_decimal (value * 10 + (c.toNat - 48)) rest
      refine iff_of_false Bool.false_ne_true ?_
      omega
    · have next : Magnitude.digit limit ⟨value, true, true⟩ c =
          ⟨value * 10 + (c.toNat - 48), true, decide (value * 10 + (c.toNat - 48) ≤ limit)⟩ := by
        simp only [Magnitude.digit, if_true, if_neg overflow, Bool.and_self, Bool.true_and]
      rw [next]
      by_cases within : value * 10 + (c.toNat - 48) ≤ limit
      · rw [decide_eq_true within]
        exact ih _ within
      · rw [decide_eq_false within, magnitude_stays_out limit rest rfl]
        have grow := le_decimal (value * 10 + (c.toNat - 48)) rest
        refine iff_of_false Bool.false_ne_true ?_
        omega

theorem Pieces.inRange_iff (p : Pieces) (cfg : Config) : (p.magnitude cfg).inRange = true ↔
      decimal 0 p.whole ≤ if p.sign == [45] then cfg.intMax + 1 else cfg.intMax := by
  have small : (if p.sign == [45] then cfg.intMax + 1 else cfg.intMax) < 2 ^ 64 := by
    unfold Config.intMax
    split <;> split <;> omega
  exact magnitude_inRange small p.whole 0 (Nat.zero_le _)

/-- Without floats a number is an integer in range. -/
structure Pieces.InRange (p : Pieces) (cfg : Config) : Prop where
  digits_there : p.whole ≠ []
  fits : decimal 0 p.whole ≤ if p.sign == [45] then cfg.intMax + 1 else cfg.intMax

section Without
variable {cfg : Config} (floats : FloatConversions cfg)

theorem stringNumeric_inRange {text : List UInt8} {requireComplete : Bool}
    (in_range : (pieces text).InRange cfg) (goes_on : ¬ Stops (behindDigits text))
    (complete : requireComplete = true → (pieces text).rest = []) : stringNumeric floats text requireComplete =
      (true, .ofInteger floats ((pieces text).value cfg) (.behind ((pieces text).rest != []))) := by
  have accepted : ¬ (requireComplete = true ∧ (pieces text).rest ≠ []) := fun h => h.2 (complete h.1)
  unfold stringNumeric
  rw [stringIntegerExact_eq cfg requireComplete in_range.digits_there goes_on, Pieces.integer, if_neg accepted,
    ((pieces text).inRange_iff cfg).mpr in_range.fits]
  rfl

theorem stringNumeric_without_false (without : cfg.enableFloat = false) {text : List UInt8} {requireComplete : Bool}
    (no_number : ¬ ((pieces text).InRange cfg ∧ ¬ Stops (behindDigits text) ∧
      (requireComplete = true → (pieces text).rest = []))) : (stringNumeric floats text requireComplete).1 = false := by
  unfold stringNumeric
  by_cases gives_up : (pieces text).whole = [] ∨ Stops (behindDigits text)
  · rw [stringIntegerExact_of_stops cfg requireComplete gives_up]
    rw [without]
    cases floatingStringNumber text requireComplete with
    | none => rfl
    | some found => rfl
  · obtain ⟨digits_there, goes_on⟩ := not_or.mp gives_up
    rw [stringIntegerExact_eq cfg requireComplete digits_there goes_on, Pieces.integer]
    by_cases refused : requireComplete = true ∧ (pieces text).rest ≠ []
    · rw [if_pos refused]
      rw [without]
      cases floatingStringNumber text requireComplete with
      | none => rfl
      | some found => rfl
    · rw [if_neg refused]
      cases in_range : ((pieces text).magnitude cfg).inRange with
      | true =>
        have fits := ((pieces text).inRange_iff cfg).mp in_range
        refine absurd ⟨⟨digits_there, fits⟩, goes_on, fun complete => ?_⟩ no_number
        by_contra more
        exact refused ⟨complete, more⟩
      | false => simp only [Bool.not_false, if_true, without, Bool.false_eq_true, if_false]

end Without

/-! ## Longest prefixes -/

section Longest
variable {cfg : Config} (floats : FloatConversions cfg)

/-- The longest prefix of a string that is a numeric string. -/
structure LongestNumericPrefix (s p : PString) : Prop where
  front : p.bytes <+: s.bytes
  numeric : (pvToNumeric floats (.string p) true).1 = true
  longest : ∀ q : PString, q.bytes <+: s.bytes → (pvToNumeric floats (.string q) true).1 = true →
    q.bytes.length ≤ p.bytes.length

/-- The number at the beginning of a string is read as its longest numeric prefix is. -/
def PrefixLaw (s p : PString) : Prop :=
  (pvToNumeric floats (.string s) false).1 = true ∧
    SameNumber (pvToNumeric floats (.string s) false).2 (pvToNumeric floats (.string p) true).2

/-- No letter of an exponent is left over; and without floats, the digits are the integer and are in range. -/
def PrefixReadable (cfg : Config) (text : List UInt8) : Prop :=
  if cfg.enableFloat then ¬ BareExponent text
  else ¬ Stops (behindDigits text) ∧
    decimal 0 (pieces text).whole ≤ if (pieces text).sign == [45] then cfg.intMax + 1 else cfg.intMax

/-- A prefix that is a number with nothing behind it is a prefix of the number at the beginning. -/
theorem prefix_taken {q text : List UInt8} (front : q <+: text) (none_left : (pieces q).rest = []) :
    q <+: numeral.taken text := by
  have whole : numeral.taken q = q := numeral.taken_of_rest_nil none_left
  have mono := numeral_stable.mono front
  rwa [whole] at mono

/-- The number at the beginning of a string. -/
def takenNumeral (s : PString) : PString :=
  ⟨numeral.taken s.bytes, by
    have whole := congrArg List.length (numeral.splits s.bytes)
    have short := s.length_le
    rw [length_append] at whole
    omega⟩

theorem taken_start (text : List UInt8) : numeral.taken text <+: text := ⟨numeral.rest text, numeral.splits text⟩

variable {floats} {s p : PString}

theorem LongestNumericPrefix.eq_taken (h : LongestNumericPrefix floats s p) (none_left : (pieces p.bytes).rest = [])
    (numeric : (pvToNumeric floats (.string (takenNumeral s)) true).1 = true) : p.bytes = numeral.taken s.bytes := by
  have within := prefix_taken h.front none_left
  have bound := h.longest (takenNumeral s) (taken_start s.bytes) numeric
  exact within.eq_of_length_le bound

theorem hasDigits_of_start {q text : List UInt8} (front : q <+: text) (some_digits : (pieces q).HasDigits) :
    (pieces text).HasDigits := by
  obtain ⟨whole, fraction⟩ := pieces_start front
  rintro ⟨no_whole, no_fraction⟩
  apply some_digits
  rw [no_whole] at whole
  refine ⟨prefix_nil.mp whole, ?_⟩
  have short := fraction.length_le
  have one := congrArg List.length no_fraction
  rw [length_tail, length_nil] at one
  apply length_eq_zero_iff.mp
  rw [length_tail]
  omega

/-- **With floats the law holds exactly where no letter of an exponent is left over.** -/
theorem LongestNumericPrefix.law_iff_floats (h : LongestNumericPrefix floats s p) (enabled : cfg.enableFloat = true) :
    PrefixLaw floats s p ↔ ¬ BareExponent s.bytes := by
  obtain ⟨digits_p, none_left⟩ := (numeric_iff floats enabled p.bytes).mp h.numeric
  have some_digits := hasDigits_of_start h.front digits_p
  have alone := pieces_taken s.bytes
  have numeric : (stringNumeric floats (numeral.taken s.bytes) true).1 = true := by
    rw [numeric_iff floats enabled, alone]
    exact ⟨some_digits, rfl⟩
  have same := h.eq_taken none_left numeric
  change (stringNumeric floats s.bytes false).1 = true ∧
    SameNumber (stringNumeric floats s.bytes false).2 (stringNumeric floats p.bytes true).2 ↔ _
  rw [same]
  constructor
  · rintro ⟨-, number⟩ bare
    exact not_sameNumber_of_bare floats enabled some_digits bare number
  · exact sameNumber_taken floats enabled some_digits

/-- **Without floats** the law holds exactly where the digits are an integer in range. -/
theorem LongestNumericPrefix.law_iff_without (h : LongestNumericPrefix floats s p) (without : cfg.enableFloat = false) :
    PrefixLaw floats s p ↔ ¬ Stops (behindDigits s.bytes) ∧
      decimal 0 (pieces s.bytes).whole ≤ if (pieces s.bytes).sign == [45] then cfg.intMax + 1 else cfg.intMax := by
  have number_p : (pieces p.bytes).InRange cfg ∧ ¬ Stops (behindDigits p.bytes) ∧
      ((true : Bool) = true → (pieces p.bytes).rest = []) := by
    by_contra no_number
    have no_numeral := stringNumeric_without_false floats without no_number
    have numeric : (stringNumeric floats p.bytes true).1 = true := h.numeric
    rw [no_numeral] at numeric
    cases numeric
  constructor
  · rintro ⟨read, -⟩
    by_contra unreadable
    have no_numeral : (stringNumeric floats s.bytes false).1 = false := by
      apply stringNumeric_without_false floats without
      rintro ⟨in_range, goes_on, -⟩
      exact unreadable ⟨goes_on, in_range.fits⟩
    change (stringNumeric floats s.bytes false).1 = true at read
    rw [no_numeral] at read
    cases read
  · rintro ⟨goes_on, fits⟩
    have digits_there : (pieces s.bytes).whole ≠ [] := by
      intro none_there
      have within := (pieces_start h.front).1
      rw [none_there] at within
      exact number_p.1.digits_there (prefix_nil.mp within)
    have in_range : (pieces s.bytes).InRange cfg := ⟨digits_there, fits⟩
    have alone := pieces_taken s.bytes
    have in_range' : (pieces (numeral.taken s.bytes)).InRange cfg := by
      rw [alone]
      exact ⟨digits_there, fits⟩
    have none_left : (pieces (numeral.taken s.bytes)).rest = [] := by rw [alone]
    have partly : (false : Bool) = true → (pieces s.bytes).rest = [] := fun h => absurd h Bool.false_ne_true
    have read := stringNumeric_inRange floats in_range goes_on partly
    have read' := stringNumeric_inRange floats in_range' (not_stops_taken goes_on) fun _ : true = true => none_left
    have numeric : (stringNumeric floats (numeral.taken s.bytes) true).1 = true := by rw [read']
    have same := h.eq_taken (number_p.2.2 rfl) numeric
    change (stringNumeric floats s.bytes false).1 = true ∧
      SameNumber (stringNumeric floats s.bytes false).2 (stringNumeric floats p.bytes true).2
    rw [same, read, read', alone]
    exact ⟨rfl, rfl, rfl, rfl, rfl, rfl⟩

end Longest

/-- **A string is read as its longest numeric prefix is exactly when** nothing stands behind the digits that only
looks like the rest of a number: the letter of an exponent without one; without floats, a point or such a letter, or
more digits than the range has. -/
theorem prefix_law_iff {cfg : Config} (floats : FloatConversions cfg) {s p : PString}
    (longest : LongestNumericPrefix floats s p) : PrefixLaw floats s p ↔ PrefixReadable cfg s.bytes := by
  unfold PrefixReadable
  cases enabled : cfg.enableFloat with
  | true =>
    rw [if_pos rfl]
    exact longest.law_iff_floats enabled
  | false =>
    rw [if_neg Bool.false_ne_true]
    exact longest.law_iff_without enabled

/-- Conversions for a build with floats, all to one float. -/
def someFloats : FloatConversions ⟨true, true, true, true, true⟩ :=
  ⟨fun _ => 0, fun _ => 0, fun _ => 0, id, fun _ _ => none⟩

def twelve : PString := ⟨ascii "12", by decide⟩

/-- "12" is the longest numeric prefix of a text of it and a few letters. -/
theorem twelve_longest {s : PString} (front : twelve.bytes <+: s.bytes)
    (others : ∀ q ∈ s.bytes.inits, (stringNumeric someFloats q true).1 = true → q.length ≤ 2) :
    LongestNumericPrefix someFloats s twelve where
  front := front
  numeric := by decide
  longest := fun q within numeric => others q.bytes ((mem_inits _ _).mpr within) numeric

theorem twelve_letters :
    PrefixLaw someFloats ⟨ascii "12abc", by decide⟩ twelve ↔
      PrefixReadable ⟨true, true, true, true, true⟩ (ascii "12abc") :=
  prefix_law_iff someFloats (twelve_longest (by decide) (by decide))

/-- "12e" is not read as the integer 12, though "12" is its longest numeric prefix. -/
theorem bare_exponent_breaks_law :
    LongestNumericPrefix someFloats ⟨ascii "12e", by decide⟩ twelve ∧
      ¬ PrefixLaw someFloats ⟨ascii "12e", by decide⟩ twelve := by
  refine ⟨twelve_longest (by decide) (by decide), ?_⟩
  rintro ⟨-, same⟩
  have inexact : (pvToNumeric someFloats (.string ⟨ascii "12e", by decide⟩) false).2.integerExact = false := by
    decide
  have integer : (pvToNumeric someFloats (.string twelve) true).2.integerExact = true := by decide
  have exact_same := same.integerExact
  rw [inexact, integer] at exact_same
  cases exact_same

end PhpPico.Value.NumericPrefix
