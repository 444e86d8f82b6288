import Mathlib.Order.Bounds.Basic
import PhpPico.Lib.Occurrences
import PhpPico.Parray.Canonical
import PhpPico.Parray.Slots

/-!
# Searching in strings

`strpos`, `strrpos` and `str_contains` share one routine. An offset says where it starts: for `strrpos` a negative
offset bounds the position from below, where it should bound it from above.
-/

namespace PhpPico.Strings
open Option Occurrences

/-- A value a program passes to a string function. A value of another type has the text `pv_to_string` writes for
it, if it writes one. -/
inductive Argument where
  | null
  | int (n : Int)
  | string (bytes : List UInt8)
  | other (text : Option (List UInt8))

/-- The result of a search: `pv_int` or `pv_bool`. -/
inductive Answer where
  | int (n : Int)
  | bool (b : Bool)
  deriving DecidableEq

/-- `argument_string`, with `pv_to_string`: `granted` says whether there is memory for the copy. -/
def argumentString (cfg : Config) (granted : Bool) (argument : Argument) : Option (List UInt8) :=
  let text := match argument with
    | .null => some []
    | .int n => pphpFormatInteger cfg 64 n
    | .string bytes => some bytes
    | .other text => text
  if granted then text else none

/-- `memcmp(ps_data(haystack) + i, ps_data(needle), needle->length) == 0`. -/
def equalAt (haystack needle : List UInt8) (i : Nat) : Bool := (haystack.drop i).take needle.length == needle

/-- The loop of `find_bytes` that goes forward. -/
def findForward (haystack needle : List UInt8) (i : Nat) : Option Nat :=
  if i + needle.length ≤ haystack.length then
    if equalAt haystack needle i then some i else findForward haystack needle (i + 1)
  else none
termination_by haystack.length + 1 - i

/-- The loop of `find_bytes` that goes backwards. -/
def findBackwards (haystack needle : List UInt8) (start : Nat) : Nat → Option Nat
  | 0 => if start ≤ 0 ∧ equalAt haystack needle 0 then some 0 else none
  | i + 1 =>
    if start ≤ i + 1 ∧ equalAt haystack needle (i + 1) then some (i + 1)
    else if i + 1 ≤ start then none
    else findBackwards haystack needle start i

/-- `find_bytes`. -/
def findBytes (haystack needle : List UInt8) (start : Nat) (reverse : Bool) : Option Nat :=
  if needle.length = 0 then some (if start ≤ haystack.length then start else haystack.length)
  else if haystack.length < needle.length ∨ haystack.length - needle.length < start then none
  else if reverse then findBackwards haystack needle start (haystack.length - needle.length)
  else findForward haystack needle start

/-- The functions `call_search` serves. -/
inductive Search where
  | strpos
  | strrpos
  | strContains
  deriving DecidableEq

def Search.name : Search → String
  | .strpos => "strpos"
  | .strrpos => "strrpos"
  | .strContains => "str_contains"

/-- The message of `fail_arguments`. -/
def failArguments (name : String) : String := name ++ "() received invalid arguments"

/-- The message of `argument_string`. -/
def failString (name : String) : String := name ++ "() expects string-compatible values"

/-- The arguments `call_search` accepts: the strings, and the offset if there is one. -/
def searchArguments : List Argument → Option (Argument × Argument × Option Int)
  | [haystack, needle] => some (haystack, needle, none)
  | [haystack, needle, .int offset] => some (haystack, needle, some offset)
  | _ => none

/-- Where `call_search` starts, if that is within the string. -/
def searchStart (length : Nat) : Option Int → Option Nat
  | none => some 0
  | some requested =>
    let requested := if requested < 0 then (length : Int) + requested else requested
    if requested < 0 ∨ requested > length then none else some requested.toNat

/-- `call_search`. `granted` says for either string whether there is memory for its copy. -/
def callSearch (cfg : Config) (granted : Bool × Bool) (search : Search) (arguments : List Argument) :
    Except String Answer :=
  match searchArguments arguments with
  | none => .error (failArguments search.name)
  | some (first, second, requested) =>
    match argumentString cfg granted.1 first, argumentString cfg granted.2 second with
    | some haystack, some needle =>
      match searchStart haystack.length requested with
      | none => .error (failArguments search.name)
      | some offset =>
        let found := findBytes haystack needle offset (search = .strrpos)
        if search = .strContains then .ok (.bool found.isSome)
        else match found with
          | some position => .ok (.int position)
          | none => .ok (.bool false)
    | _, _ => .error (failString search.name)

/-! ## What is searched for -/

/-- An offset lies in a string of a length, counted from the end where it is negative. -/
def InString (length : Nat) (offset : Int) : Prop := -(length : Int) ≤ offset ∧ offset ≤ length

/-- The positions `strpos` chooses from: from the offset on. -/
def Forward (haystack needle : List UInt8) (offset : Int) : Set Nat :=
  {p | Occurs haystack needle p ∧ (if offset < 0 then (haystack.length : Int) + offset ≤ p else offset ≤ p)}

/-- The positions `strrpos` chooses from: from an offset on, or no later than that many bytes before the end. -/
def Backward (haystack needle : List UInt8) (offset : Int) : Set Nat :=
  {p | Occurs haystack needle p ∧ (if offset < 0 then (p : Int) ≤ haystack.length + offset else offset ≤ p)}

/-- The answer is the position that `Best` chooses, or false if there is none. -/
def Chosen (Best : Set Nat → Nat → Prop) (positions : Set Nat) (result : Except String Answer) : Prop :=
  (∃ p : Nat, Best positions p ∧ result = .ok (.int p)) ∨ (positions = ∅ ∧ result = .ok (.bool false))

/-- A call with an offset, or without one, which stands for zero. -/
def called (cfg : Config) (granted : Bool × Bool) (search : Search) (haystack needle : List UInt8) :
    Option Int → Except String Answer
  | none => callSearch cfg granted search [.string haystack, .string needle]
  | some offset => callSearch cfg granted search [.string haystack, .string needle, .int offset]

/-- What the search functions return for two strings and an offset. -/
structure SearchLaw (cfg : Config) (granted : Bool × Bool) (haystack needle : List UInt8) (offset : Option Int) :
    Prop where
  strpos : InString haystack.length (offset.getD 0) →
    Chosen IsLeast (Forward haystack needle (offset.getD 0)) (called cfg granted .strpos haystack needle offset)
  strrpos : InString haystack.length (offset.getD 0) →
    Chosen IsGreatest (Backward haystack needle (offset.getD 0)) (called cfg granted .strrpos haystack needle offset)
  outside : ¬ InString haystack.length (offset.getD 0) → ∀ search ∈ [Search.strpos, Search.strrpos],
    ∃ message, called cfg granted search haystack needle offset = .error message
  strContains : called cfg granted .strContains haystack needle none =
    .ok (.bool (decide (∃ p ≤ haystack.length, Occurs haystack needle p)))

/-- Where `strrpos` bounds the position from the right side: the offset is not negative, and the end if nothing is
searched for; or it is, and nothing is searched for, or the needle is nowhere, or begins that many bytes before the
end and not after. -/
def SameBound (haystack needle : List UInt8) (offset : Int) : Prop :=
  if offset < 0 then
    needle = [] ∨ (∀ p, ¬ Occurs haystack needle p) ∨
      ∃ p : Nat, (p : Int) = haystack.length + offset ∧ IsGreatest {q | Occurs haystack needle q} p
  else needle = [] → offset = haystack.length

/-! ## The loops -/

/-- The position that `Best` chooses, or none if there is none. -/
def Finds (Best : Set Nat → Nat → Prop) (positions : Set Nat) : Option Nat → Prop
  | some p => Best positions p
  | none => positions = ∅

theorem equalAt_iff {haystack needle : List UInt8} {i : Nat} (fits : i + needle.length ≤ haystack.length) :
    equalAt haystack needle i = true ↔ Occurs haystack needle i := by
  rw [occurs_iff, equalAt, beq_iff_eq]
  exact ⟨fun equal => ⟨fits, equal⟩, fun h => h.2⟩

theorem findForward_finds (haystack needle : List UInt8) (i : Nat) :
    Finds IsLeast {p | Occurs haystack needle p ∧ i ≤ p} (findForward haystack needle i) := by
  fun_induction findForward haystack needle i with
  | case1 i fits here =>
    exact ⟨⟨(equalAt_iff fits).mp here, le_refl i⟩, fun p h => h.2⟩
  | case2 i fits missed ih =>
    -- no occurrence is at `i`, so that the bound may be raised
    have same : {p | Occurs haystack needle p ∧ i ≤ p} = {p | Occurs haystack needle p ∧ i + 1 ≤ p} := by
      ext p
      constructor
      · rintro ⟨occurs, from_i⟩
        refine ⟨occurs, Nat.lt_of_le_of_ne from_i ?_⟩
        rintro rfl
        exact missed ((equalAt_iff fits).mpr occurs)
      · rintro ⟨occurs, later⟩
        exact ⟨occurs, by omega⟩
    rw [same]
    exact ih
  | case3 i short =>
    apply Set.eq_empty_of_forall_notMem
    rintro p ⟨occurs, from_i⟩
    have := occurs.le
    omega

theorem findBackwards_finds (haystack needle : List UInt8) (start i : Nat)
    (fits : i + needle.length ≤ haystack.length) :
    Finds IsGreatest {p | Occurs haystack needle p ∧ start ≤ p ∧ p ≤ i} (findBackwards haystack needle start i) := by
  induction i with
  | zero =>
    unfold findBackwards
    by_cases here : start ≤ 0 ∧ equalAt haystack needle 0 = true
    · rw [if_pos here]
      exact ⟨⟨(equalAt_iff fits).mp here.2, here.1, le_refl 0⟩, fun p h => h.2.2⟩
    · rw [if_neg here]
      apply Set.eq_empty_of_forall_notMem
      rintro p ⟨occurs, from_start, bound⟩
      obtain rfl : p = 0 := by omega
      exact here ⟨from_start, (equalAt_iff fits).mpr occurs⟩
  | succ i ih =>
    unfold findBackwards
    by_cases here : start ≤ i + 1 ∧ equalAt haystack needle (i + 1) = true
    · rw [if_pos here]
      exact ⟨⟨(equalAt_iff fits).mp here.2, here.1, le_refl _⟩, fun p h => h.2.2⟩
    · rw [if_neg here]
      have same : {p | Occurs haystack needle p ∧ start ≤ p ∧ p ≤ i + 1} =
          {p | Occurs haystack needle p ∧ start ≤ p ∧ p ≤ i} := by
        ext p
        constructor
        · rintro ⟨occurs, from_start, bound⟩
          refine ⟨occurs, from_start, Nat.le_of_lt_succ (Nat.lt_of_le_of_ne bound ?_)⟩
          rintro rfl
          exact here ⟨from_start, (equalAt_iff fits).mpr occurs⟩
        · rintro ⟨occurs, from_start, bound⟩
          exact ⟨occurs, from_start, by omega⟩
      rw [same]
      by_cases passed : i + 1 ≤ start
      · rw [if_pos passed]
        apply Set.eq_empty_of_forall_notMem
        rintro p ⟨-, from_start, bound⟩
        omega
      · rw [if_neg passed]
        exact ih (by omega)

theorem no_occurrence {haystack needle : List UInt8} {start : Nat}
    (short : haystack.length < needle.length ∨ haystack.length - needle.length < start) :
    {p | Occurs haystack needle p ∧ start ≤ p} = ∅ := by
  apply Set.eq_empty_of_forall_notMem
  rintro p ⟨occurs, from_start⟩
  have := occurs.le
  omega

theorem findBytes_forward (haystack needle : List UInt8) {start : Nat} (within : start ≤ haystack.length) :
    Finds IsLeast {p | Occurs haystack needle p ∧ start ≤ p} (findBytes haystack needle start false) := by
  unfold findBytes
  by_cases empty : needle.length = 0
  · rw [if_pos empty, if_pos within]
    obtain rfl := List.length_eq_zero_iff.mp empty
    exact ⟨⟨(occurs_nil haystack start).mpr within, le_refl start⟩, fun p h => h.2⟩
  · rw [if_neg empty]
    by_cases short : haystack.length < needle.length ∨ haystack.length - needle.length < start
    · rw [if_pos short]
      exact no_occurrence short
    · rw [if_neg short]
      exact findForward_finds haystack needle start

theorem findBytes_backwards (haystack : List UInt8) {needle : List UInt8} (start : Nat) (something : needle ≠ []) :
    Finds IsGreatest {p | Occurs haystack needle p ∧ start ≤ p} (findBytes haystack needle start true) := by
  unfold findBytes
  rw [if_neg (fun empty => something (List.length_eq_zero_iff.mp empty))]
  by_cases short : haystack.length < needle.length ∨ haystack.length - needle.length < start
  · rw [if_pos short]
    exact no_occurrence short
  · rw [if_neg short, if_pos rfl]
    have all : {p | Occurs haystack needle p ∧ start ≤ p} =
        {p | Occurs haystack needle p ∧ start ≤ p ∧ p ≤ haystack.length - needle.length} := by
      ext p
      refine ⟨fun h => ⟨h.1, h.2, ?_⟩, fun h => ⟨h.1, h.2.1⟩⟩
      have := h.1.le
      omega
    rw [all]
    exact findBackwards_finds haystack needle start _ (by omega)

/-! ## Calls -/

section Calls
variable {cfg : Config} {haystack needle : List UInt8} {offset : Option Int}

/-- The answer of `strpos` and `strrpos` for what `find_bytes` found. -/
def answer : Option Nat → Except String Answer
  | some position => .ok (.int position)
  | none => .ok (.bool false)

theorem chosen_answer (Best : Set Nat → Nat → Prop) (positions : Set Nat) (found : Option Nat) :
    Chosen Best positions (answer found) ↔ Finds Best positions found := by
  cases found with
  | some p =>
    constructor
    · rintro (⟨q, best, same⟩ | ⟨-, differs⟩)
      · injection same with same
        injection same with same
        obtain rfl : p = q := by omega
        exact best
      · injection differs with differs
        cases differs
    · exact fun best => .inl ⟨p, best, rfl⟩
  | none =>
    constructor
    · rintro (⟨q, -, differs⟩ | ⟨none, -⟩)
      · injection differs with differs
        cases differs
      · exact none
    · exact fun none => .inr ⟨none, rfl⟩

theorem searchStart_inside {length : Nat} (inside : InString length (offset.getD 0)) :
    ∃ start : Nat, searchStart length offset = some start ∧ start ≤ length ∧
      (start : Int) = if offset.getD 0 < 0 then length + offset.getD 0 else offset.getD 0 := by
  obtain ⟨low, high⟩ := inside
  cases offset with
  | none => exact ⟨0, rfl, Nat.zero_le _, rfl⟩
  | some requested =>
    rw [getD_some] at low high ⊢
    unfold searchStart
    by_cases negative : requested < 0
    · refine ⟨(length + requested).toNat, ?_, by omega, by rw [if_pos negative]; omega⟩
      simp only [if_pos negative]
      rw [if_neg (by omega)]
    · refine ⟨requested.toNat, ?_, by omega, by rw [if_neg negative]; omega⟩
      simp only [if_neg negative]
      rw [if_neg (by omega)]

theorem searchStart_outside {length : Nat} (outside : ¬ InString length (offset.getD 0)) :
    searchStart length offset = none := by
  cases offset with
  | none => exact absurd ⟨by rw [getD_none]; omega, by rw [getD_none]; omega⟩ outside
  | some requested =>
    rw [getD_some, InString] at outside
    unfold searchStart
    by_cases negative : requested < 0
    · simp only [if_pos negative]
      rw [if_pos (by omega)]
    · simp only [if_neg negative]
      rw [if_pos (by omega)]

/-- A call whose offset lies in the string answers what is found from where it starts. -/
theorem called_position {search : Search} (position : search ≠ .strContains) {start : Nat}
    (starts : searchStart haystack.length offset = some start) : called cfg (true, true) search haystack needle offset =
      answer (findBytes haystack needle start (search = .strrpos)) := by
  have code : called cfg (true, true) search haystack needle offset =
      match searchStart haystack.length offset with
      | none => .error (failArguments search.name)
      | some offset =>
        if search = .strContains then .ok (.bool (findBytes haystack needle offset (search = .strrpos)).isSome)
        else answer (findBytes haystack needle offset (search = .strrpos)) := by
    cases offset <;> rfl
  rw [code, starts]
  exact if_neg position

theorem called_outside (search : Search) (outside : searchStart haystack.length offset = none) :
    called cfg (true, true) search haystack needle offset = .error (failArguments search.name) := by
  cases offset with
  | none => cases outside
  | some requested =>
    have code : called cfg (true, true) search haystack needle (some requested) =
        match searchStart haystack.length (some requested) with
        | none => .error (failArguments search.name)
        | some offset =>
          if search = .strContains then .ok (.bool (findBytes haystack needle offset (search = .strrpos)).isSome)
          else answer (findBytes haystack needle offset (search = .strrpos)) := rfl
    rw [code, outside]

/-- Without memory for the copies every call fails. -/
theorem called_unable {granted : Bool × Bool} (search : Search) (unable : granted ≠ (true, true)) :
    ∃ message, called cfg granted search haystack needle offset = .error message := by
  obtain ⟨first, second⟩ := granted
  refine ⟨failString search.name, ?_⟩
  cases first <;> cases second
  case true.true => exact absurd rfl unable
  all_goals cases offset <;> rfl

theorem strContains_answers : called cfg (true, true) .strContains haystack needle none =
      .ok (.bool (decide (∃ p ≤ haystack.length, Occurs haystack needle p))) := by
  have code : called cfg (true, true) .strContains haystack needle none =
      .ok (.bool (findBytes haystack needle 0 false).isSome) := rfl
  rw [code]
  have found := findBytes_forward haystack needle (Nat.zero_le haystack.length)
  cases position : findBytes haystack needle 0 false with
  | some p =>
    rw [position] at found
    have occurs : ∃ p ≤ haystack.length, Occurs haystack needle p := ⟨p, by have := found.1.1.le; omega, found.1.1⟩
    rw [decide_eq_true occurs, isSome_some]
  | none =>
    rw [position] at found
    have nowhere : ¬ ∃ p ≤ haystack.length, Occurs haystack needle p := by
      rintro ⟨p, -, occurs⟩
      have listed : p ∈ {p | Occurs haystack needle p ∧ 0 ≤ p} := ⟨occurs, Nat.zero_le p⟩
      rw [found] at listed
      exact listed
    rw [decide_eq_false nowhere, isSome_none]

/-- Where the bound is at the right side, and only there, the position `strrpos` finds is PHP's. -/
theorem backward_iff {offset : Int} {start : Nat} (within : start ≤ haystack.length)
    (at_start : (start : Int) = if offset < 0 then haystack.length + offset else offset) :
    Finds IsGreatest (Backward haystack needle offset) (findBytes haystack needle start true) ↔
      SameBound haystack needle offset := by
  by_cases nothing : needle = []
  · subst nothing
    have found : findBytes haystack [] start true = some start := by
      unfold findBytes
      rw [if_pos List.length_nil, if_pos within]
    rw [found, Finds, SameBound, Backward]
    by_cases negative : offset < 0
    · simp only [if_pos negative] at at_start ⊢
      refine ⟨fun _ => .inl trivial, fun _ => ⟨⟨(occurs_nil haystack start).mpr within, by omega⟩, fun p h => ?_⟩⟩
      have := h.2
      omega
    · simp only [if_neg negative] at at_start ⊢
      constructor
      · intro best _
        have last : haystack.length ≤ start := best.2 ⟨(occurs_nil haystack _).mpr (le_refl _), by omega⟩
        omega
      · intro last
        have := last trivial
        refine ⟨⟨(occurs_nil haystack start).mpr within, by omega⟩, fun p h => ?_⟩
        have := h.1.le
        rw [List.length_nil] at this
        omega
  · have found := findBytes_backwards haystack start nothing
    rw [SameBound, Backward]
    by_cases negative : offset < 0
    · simp only [if_pos negative] at at_start ⊢
      cases position : findBytes haystack needle start true with
      | some p =>
        rw [position] at found
        constructor
        · intro best
          -- found from the start on and no later than it: exactly there
          have here := best.1.2
          have from_start := found.1.2
          refine .inr (.inr ⟨p, by omega, found.1.1, fun q occurs => ?_⟩)
          by_cases later : start ≤ q
          · exact found.2 ⟨occurs, later⟩
          · omega
        · rintro (none | nowhere | ⟨q, at_q, last⟩)
          · exact absurd none nothing
          · exact absurd found.1.1 (nowhere p)
          · have bound := last.2 found.1.1
            have from_start := found.1.2
            obtain rfl : p = q := by omega
            exact ⟨⟨found.1.1, by omega⟩, fun r h => last.2 h.1⟩
      | none =>
        rw [position] at found
        constructor
        · intro none
          refine .inr (.inl fun p occurs => ?_)
          by_cases later : start ≤ p
          · have listed : p ∈ {p | Occurs haystack needle p ∧ start ≤ p} := ⟨occurs, later⟩
            rw [found] at listed
            exact listed
          · have listed : p ∈ {p : Nat | Occurs haystack needle p ∧ (p : Int) ≤ haystack.length + offset} :=
              ⟨occurs, by omega⟩
            rw [show {p : Nat | Occurs haystack needle p ∧ (p : Int) ≤ haystack.length + offset} = ∅ from none]
              at listed
            exact listed
        · rintro (none | nowhere | ⟨q, at_q, last⟩)
          · exact absurd none nothing
          · exact Set.eq_empty_of_forall_notMem fun p h => nowhere p h.1
          · have listed : q ∈ {p | Occurs haystack needle p ∧ start ≤ p} := ⟨last.1, by omega⟩
            rw [found] at listed
            exact absurd listed (Set.notMem_empty q)
    · simp only [if_neg negative] at at_start ⊢
      refine ⟨fun _ none => absurd none nothing, fun _ => ?_⟩
      have same : {p : Nat | Occurs haystack needle p ∧ offset ≤ p} = {p | Occurs haystack needle p ∧ start ≤ p} := by
        ext p
        refine and_congr_right fun _ => ?_
        omega
      rw [same]
      exact found

/-- **The search functions return what PHP's return exactly when there is memory for the copies** and an offset bounds
the last occurrence from the right side. -/
theorem search_iff (granted : Bool × Bool) : SearchLaw cfg granted haystack needle offset ↔ granted = (true, true) ∧
        (InString haystack.length (offset.getD 0) → SameBound haystack needle (offset.getD 0)) := by
  by_cases able : granted = (true, true)
  · subst able
    have strrpos : InString haystack.length (offset.getD 0) →
        (Chosen IsGreatest (Backward haystack needle (offset.getD 0))
          (called cfg (true, true) .strrpos haystack needle offset) ↔
            SameBound haystack needle (offset.getD 0)) := by
      intro inside
      obtain ⟨start, starts, within, at_start⟩ := searchStart_inside inside
      rw [called_position (by decide) starts, chosen_answer]
      exact backward_iff within at_start
    refine ⟨fun law => ⟨rfl, fun inside => (strrpos inside).mp (law.strrpos inside)⟩, fun h => ?_⟩
    have same := h.2
    constructor
    · intro inside
      obtain ⟨start, starts, within, at_start⟩ := searchStart_inside inside
      rw [called_position (by decide) starts, chosen_answer]
      have all : Forward haystack needle (offset.getD 0) = {p | Occurs haystack needle p ∧ start ≤ p} := by
        ext p
        refine and_congr_right fun _ => ?_
        split at at_start <;> simp only [*, if_true, if_false] <;> omega
      rw [all]
      exact findBytes_forward haystack needle within
    · exact fun inside => (strrpos inside).mpr (same inside)
    · intro outside search _
      exact ⟨_, called_outside search (searchStart_outside outside)⟩
    · exact strContains_answers
  · refine ⟨fun law => ?_, fun h => absurd h.1 able⟩
    obtain ⟨message, failed⟩ : ∃ message, called cfg granted .strContains haystack needle none = .error message :=
      called_unable .strContains able
    have answers := law.strContains
    rw [failed] at answers
    cases answers

end Calls

/-- The last `na` that begins no later than three bytes before the end of `banana` is at 2; the one found is at 4. -/
theorem strrpos_from_below :
    called PArray.integerBuild (true, true) .strrpos [98, 97, 110, 97, 110, 97] [110, 97] (some (-3)) = .ok (.int 4) ∧
      ¬ SearchLaw PArray.integerBuild (true, true) [98, 97, 110, 97, 110, 97] [110, 97] (some (-3)) := by
  have found : called PArray.integerBuild (true, true) .strrpos [98, 97, 110, 97, 110, 97] [110, 97] (some (-3)) =
      .ok (.int 4) := by
    have position : Search.strrpos ≠ .strContains := by decide
    have starts : searchStart ([98, 97, 110, 97, 110, 97] : List UInt8).length (some (-3)) = some 3 := rfl
    rw [called_position position starts]
    rfl
  refine ⟨found, fun law => ?_⟩
  have chosen := law.strrpos ⟨by decide, by decide⟩
  rw [found] at chosen
  rcases chosen with ⟨p, best, same⟩ | ⟨-, differs⟩
  · injection same with same
    injection same with same
    have bound : (p : Int) ≤ 3 := best.1.2
    omega
  · injection differs with differs
    cases differs

end PhpPico.Strings
