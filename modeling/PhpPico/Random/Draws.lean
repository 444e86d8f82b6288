import Mathlib.Data.Finite.Defs
import Mathlib.Data.Fintype.EquivFin
import Mathlib.Data.Set.Function
import PhpPico.Lib.SignedArithmetic
import PhpPico.Lib.Xorshift
import PhpPico.Proto

/-!
# Random numbers

`next_random` is a xorshift generator of 32-bit words, and `bounded_random` draws until a word is not below a
threshold, which is below half of all words: every orbit has a word that is not.
-/

namespace PhpPico.Random
open Xorshift BitVec

variable {cfg : Config}

/-! ## The functions -/

/-- The functions `call_random` implements. -/
inductive Function where
  | rand
  | mt_rand
  | random_int
  | srand
  deriving DecidableEq

def Function.name : Function → String
  | .rand => "rand"
  | .mt_rand => "mt_rand"
  | .random_int => "random_int"
  | .srand => "srand"

/-- A value a program passes. -/
inductive Argument (cfg : Config) where
  | int (n : BitVec cfg.intWidth)
  | other

/-- The result: `pv_null` or `pv_int`. -/
inductive Answer (cfg : Config) where
  | null
  | int (n : BitVec cfg.intWidth)
  deriving DecidableEq

/-- `next_random`: the value, which is the next `random_state`. -/
def nextRandom (state : BitVec 32) : BitVec 32 :=
  let value := if state = 0 then 0x6d2b79f5#32 else state
  let value := value ^^^ (value <<< 13)
  let value := value ^^^ (value >>> 17)
  value ^^^ (value <<< 5)

/-- The loop of `bounded_random`, if it ends within some draws. -/
def drawFrom (threshold : BitVec 32) : Nat → BitVec 32 → Option (BitVec 32)
  | 0, _ => none
  | draws + 1, state =>
    let value := nextRandom state
    if value < threshold then drawFrom threshold draws value else some value

def threshold (bound : BitVec 32) : BitVec 32 := -bound % bound

/-- `bounded_random`: the result and the next state. -/
def boundedRandom (draws : Nat) (bound state : BitVec 32) : Option (BitVec 32 × BitVec 32) :=
  if bound = 0 then some (nextRandom state, nextRandom state)
  else (drawFrom (threshold bound) draws state).map fun value => (value % bound, value)

/-- The state behind `srand`. -/
def seeded (seed : BitVec 32) : BitVec 32 := if seed = 0 then 1 else seed

/-- The limits of the result. -/
def limits (function : Function) (arguments : List (Argument cfg)) :
    Option (BitVec cfg.intWidth × BitVec cfg.intWidth) :=
  match arguments with
  | [.int minimum, .int maximum] => some (minimum, maximum)
  | [] => if function = .random_int then none else some (0, 2147483647#_)
  | _ => none

/-- `span`. There is none where the difference is not an `int64_t`. -/
def span (minimum maximum : Int) : Option (BitVec 64) :=
  (Signed.sub (-9223372036854775808) 9223372036854775807 maximum minimum).map fun difference =>
    BitVec.ofInt 64 difference + 1

def failArguments (function : Function) : String := function.name ++ "() received invalid arguments"

/-- `call_random`: the result and the next state. `hal_random` gives `seed`. -/
def callRandom (seed : BitVec 32) (draws : Nat) (function : Function) (arguments : List (Argument cfg))
    (state : BitVec 32) : Option (Except String (Answer cfg) × BitVec 32) :=
  match function, arguments with
  | .srand, [] => some (.ok .null, seeded seed)
  | .srand, [.int seed] => some (.ok .null, seeded (seed.setWidth 32))
  | .srand, _ => some (.error (failArguments .srand), state)
  | function, arguments =>
    match limits function arguments with
    | none => some (.error (failArguments function), state)
    | some (minimum, maximum) =>
      if maximum.toInt < minimum.toInt then some (.error (failArguments function), state)
      else (span minimum.toInt maximum.toInt).bind fun span =>
        (if 4294967295 < span.toNat then some (nextRandom state, nextRandom state)
          else boundedRandom draws (span.setWidth 32) state).map fun (offset, state) =>
            (.ok (.int (BitVec.ofInt _ (minimum.toInt + offset.toNat))), state)

/-! ## The generator -/

/-- The step of the generator from a state that is not zero. -/
def turn : BitVec 32 → BitVec 32 := xorLeft 5 ∘ xorRight 17 ∘ xorLeft 13

theorem turn_linear : Linear turn := (xorLeft_linear 5).comp ((xorRight_linear 17).comp (xorLeft_linear 13))

theorem turn_injective : Function.Injective turn :=
  (xorLeft_injective (by decide)).comp ((xorRight_injective (by decide)).comp (xorLeft_injective (by decide)))

theorem nextRandom_of_ne {state : BitVec 32} (nonzero : state ≠ 0) : nextRandom state = turn state := by
  unfold nextRandom
  rw [if_neg nonzero]
  rfl

theorem turn_ne {x : BitVec 32} (nonzero : x ≠ 0) : turn x ≠ 0 := by
  intro zero
  exact nonzero (turn_injective (zero.trans turn_linear.zero.symm))

theorem nextRandom_ne (state : BitVec 32) : nextRandom state ≠ 0 := by
  by_cases zero : state = 0
  · subst zero
    decide
  · rw [nextRandom_of_ne zero]
    exact turn_ne zero

instance finiteWords : Finite (BitVec 32) := .of_injective BitVec.toFin fun _ _ => eq_of_toFin_eq

theorem nextRandom_bijOn : Set.BijOn nextRandom {s | s ≠ 0} {s | s ≠ 0} := by
  refine ⟨fun s _ => nextRandom_ne s, fun s nonzero t nonzero' same => ?_, fun value nonzero => ?_⟩
  · rw [nextRandom_of_ne nonzero, nextRandom_of_ne nonzero'] at same
    exact turn_injective same
  · obtain ⟨s, rfl⟩ := Finite.surjective_of_injective turn_injective value
    have nonzero' : s ≠ 0 := by
      rintro rfl
      exact nonzero turn_linear.zero
    exact ⟨s, nonzero', nextRandom_of_ne nonzero'⟩

/-- What of a state the top bits of the words from it on tell. -/
def parts : List (BitVec 32) :=
  [0xbdc4f2c0, 0x1a96cb38, 0x4baff687, 0x2a3fb43b, 0x38942101, 0x2720f923, 0x3511f7be, 0x1d0d8e19,
    0x12de6635, 0x393a8335, 0x3c5487c3, 0x52ae7d26, 0x0bbcaed5, 0x434cef21, 0x572752b7, 0x30488bc1,
    0x647227a2, 0x29142e8e, 0x3e2929c8, 0x2c6e41ef, 0x3ee92e9c, 0x2d807f20, 0x379933d1, 0x2d5e5eb5,
    0x377934e7, 0x1e67c740, 0x5e682251, 0x220e3e9f, 0x309b18b9, 0x788016b2, 0x4b753ea2, 0x500082ce]

/-- A word with its top bit set follows each state within 32 words. -/
theorem exists_msb_turn {x : BitVec 32} (nonzero : x ≠ 0) : ∃ k < 32, (turn^[k] x).msb = true :=
  exists_msb parts turn_linear (by decide +kernel) nonzero

/-! ## The loop -/

section Loop
variable {bound state : BitVec 32}

theorem toNat_pos (nonzero : bound ≠ 0) : 0 < bound.toNat :=
  pos_of_ne_zero fun zero => nonzero (eq_of_toNat_eq zero)

theorem toNat_threshold (nonzero : bound ≠ 0) : (threshold bound).toNat = 2 ^ 32 % bound.toNat := by
  have pos := toNat_pos nonzero
  have lt := bound.isLt
  rw [threshold, toNat_umod, toNat_neg, Nat.mod_eq_of_lt (a := 2 ^ 32 - bound.toNat) (by omega),
    Nat.mod_eq_sub_mod (le_of_lt lt)]

theorem msb_threshold (nonzero : bound ≠ 0) : (threshold bound).msb = false := by
  rw [msb_eq_false_iff_two_mul_lt, toNat_threshold nonzero]
  have pos := toNat_pos nonzero
  by_cases small : bound.toNat ≤ 2 ^ 31
  · have := Nat.mod_lt (2 ^ 32) pos
    omega
  · have lt := bound.isLt
    have := Nat.mod_le (2 ^ 32 - bound.toNat) bound.toNat
    rw [Nat.mod_eq_sub_mod (le_of_lt lt)]
    omega

theorem drawFrom_isSome {low : BitVec 32} (half : low.msb = false) (k : Nat)
    (top : (turn^[k] (nextRandom state)).msb = true) {draws : Nat} (enough : k < draws) :
    ∃ value, drawFrom low draws state = some value := by
  induction k generalizing state draws with
  | zero =>
    obtain ⟨draws, rfl⟩ := Nat.exists_eq_succ_of_ne_zero (ne_of_gt enough)
    refine ⟨nextRandom state, if_neg ?_⟩
    rw [Function.iterate_zero_apply, msb_eq_true_iff_two_mul_ge] at top
    rw [msb_eq_false_iff_two_mul_lt] at half
    rw [lt_def]
    omega
  | succ k ih =>
    obtain ⟨draws, rfl⟩ := Nat.exists_eq_succ_of_ne_zero (ne_of_gt (lt_of_le_of_lt (Nat.zero_le _) enough))
    rw [Function.iterate_succ_apply, ← nextRandom_of_ne (nextRandom_ne state)] at top
    unfold drawFrom
    dsimp only
    split
    · exact ih top (Nat.lt_of_succ_lt_succ enough)
    · exact ⟨_, rfl⟩

theorem drawFrom_ne {low value : BitVec 32} {draws : Nat} (drawn : drawFrom low draws state = some value) :
    value ≠ 0 := by
  induction draws generalizing state with
  | zero => cases drawn
  | succ draws ih =>
    unfold drawFrom at drawn
    dsimp only at drawn
    split at drawn
    · exact ih drawn
    · cases drawn
      exact nextRandom_ne state

/-- The loop ends within 32 draws. -/
theorem boundedRandom_ends (bound state : BitVec 32) {draws : Nat} (enough : 32 ≤ draws) :
    ∃ value behind, boundedRandom draws bound state = some (value, behind) ∧ behind ≠ 0 ∧
      (bound ≠ 0 → value < bound) := by
  unfold boundedRandom
  split
  · rename_i zero
    exact ⟨_, _, rfl, nextRandom_ne state, fun nonzero => absurd zero nonzero⟩
  · rename_i nonzero
    obtain ⟨k, lt, top⟩ := exists_msb_turn (nextRandom_ne state)
    obtain ⟨value, drawn⟩ := drawFrom_isSome (msb_threshold nonzero) k top (show k < draws by omega)
    rw [drawn]
    refine ⟨_, _, rfl, drawFrom_ne drawn, fun _ => ?_⟩
    rw [lt_def, toNat_umod]
    exact Nat.mod_lt _ (toNat_pos nonzero)

end Loop

/-! ## Limits -/

section Limits
variable {minimum maximum : BitVec cfg.intWidth}

theorem span_eq_some {low high : Int} {words : BitVec 64} (le : low ≤ high) (counted : span low high = some words) :
    high - low ≤ 9223372036854775807 ∧ (words.toNat : Int) = high - low + 1 := by
  obtain ⟨difference, fits, rfl⟩ := Option.map_eq_some_iff.mp counted
  unfold Signed.sub Signed.exact at fits
  split at fits
  · rename_i within
    cases fits
    refine ⟨within.2, ?_⟩
    have bound := within.2
    rw [toNat_add, toNat_ofInt, show BitVec.toNat (1 : BitVec 64) = 1 from rfl]
    omega
  · cases fits

/-- Without a difference that overflows, `call_random` is a draw of an offset below the span. -/
theorem callRandom_eq {function : Function} (other : function ≠ .srand) {arguments : List (Argument cfg)}
    (given : limits function arguments = some (minimum, maximum)) (le : minimum.toInt ≤ maximum.toInt)
    (seed : BitVec 32) (draws : Nat) (state : BitVec 32) :
    callRandom seed draws function arguments state = (span minimum.toInt maximum.toInt).bind fun span =>
      (if 4294967295 < span.toNat then some (nextRandom state, nextRandom state)
        else boundedRandom draws (span.setWidth 32) state).map fun (offset, state) =>
          (.ok (.int (BitVec.ofInt _ (minimum.toInt + offset.toNat))), state) := by
  unfold callRandom
  split
  · exact absurd rfl other
  · exact absurd rfl other
  · exact absurd rfl other
  · rw [given]
    exact if_neg (Int.not_lt.mpr le)

theorem toInt_offset {offset : Nat} (within : minimum.toInt + offset ≤ maximum.toInt) :
    (BitVec.ofInt cfg.intWidth (minimum.toInt + offset)).toInt = minimum.toInt + offset := by
  have low := le_toInt minimum
  have high := toInt_lt (x := maximum)
  rw [toInt_ofInt]
  have width : cfg.intWidth = 32 ∨ cfg.intWidth = 64 := by
    unfold Config.intWidth
    split <;> simp
  generalize minimum.toInt = least at *
  generalize maximum.toInt = most at *
  obtain width | width := width <;>
  · rw [width] at low high ⊢
    apply Int.bmod_eq_of_le <;> omega

theorem toNat_bound {words : BitVec 64} (narrow : ¬ 4294967295 < words.toNat) :
    (words.setWidth 32).toNat = words.toNat := by
  rw [toNat_setWidth]
  omega

theorem callRandom_within {function : Function} (other : function ≠ .srand) {arguments : List (Argument cfg)}
    (given : limits function arguments = some (minimum, maximum)) (le : minimum.toInt ≤ maximum.toInt)
    {words : BitVec 64} (counted : span minimum.toInt maximum.toInt = some words) (seed : BitVec 32) {draws : Nat}
    (enough : 32 ≤ draws) (state : BitVec 32) :
    ∃ value behind, callRandom seed draws function arguments state = some (.ok (.int value), behind) ∧ behind ≠ 0 ∧
      minimum.toInt ≤ value.toInt ∧ value.toInt ≤ maximum.toInt := by
  rw [callRandom_eq other given le, counted, Option.bind_some]
  obtain ⟨-, size⟩ := span_eq_some le counted
  have answer (offset behind : BitVec 32) (nonzero : behind ≠ 0) (below : offset.toNat < words.toNat) :
      ∃ value last, (some (offset, behind)).map (fun (offset, state) =>
          ((.ok (.int (BitVec.ofInt _ (minimum.toInt + offset.toNat))) : Except String (Answer cfg)), state)) =
        some (.ok (.int value), last) ∧ last ≠ 0 ∧ minimum.toInt ≤ value.toInt ∧ value.toInt ≤ maximum.toInt := by
    have within : minimum.toInt + offset.toNat ≤ maximum.toInt := by omega
    refine ⟨_, _, rfl, nonzero, ?_⟩
    rw [toInt_offset within]
    omega
  split
  · have lt := (nextRandom state).isLt
    exact answer _ _ (nextRandom_ne state) (by omega)
  · rename_i narrow
    have bound := toNat_bound narrow
    obtain ⟨offset, behind, drawn, nonzero, below⟩ := boundedRandom_ends (words.setWidth 32) state enough
    rw [drawn]
    refine answer offset behind nonzero ?_
    rw [← bound]
    apply below
    intro zero
    rw [zero, show BitVec.toNat (0 : BitVec 32) = 0 from rfl] at bound
    omega

/-- Integers of 32 bits are not too far apart. -/
theorem span_isSome (small : cfg.int64 = false) (minimum maximum : BitVec cfg.intWidth) :
    ∃ words, span minimum.toInt maximum.toInt = some words := by
  have width : cfg.intWidth = 32 := by rw [Config.intWidth, small, if_neg Bool.false_ne_true]
  have least := le_toInt minimum
  have most := toInt_lt (x := maximum)
  have most' := toInt_lt (x := minimum)
  have least' := le_toInt maximum
  generalize minimum.toInt = low at *
  generalize maximum.toInt = high at *
  rw [width] at least most least' most'
  refine ⟨_, congrArg (Option.map _) (if_pos ⟨?_, ?_⟩)⟩ <;> omega

end Limits

/-- **Every draw ends, and within its limits.** A bound of zero stands for all words: there is one draw and no loop. -/
theorem bounded_random_ends (state bound : BitVec 32) :
    (∀ draws, 32 ≤ draws → ∃ value behind, boundedRandom draws bound state = some (value, behind) ∧ behind ≠ 0 ∧
      (bound ≠ 0 → value < bound) ∧ (bound = 0 → value = nextRandom state ∧ behind = nextRandom state)) ∧
    nextRandom state ≠ 0 ∧ Set.BijOn nextRandom {s | s ≠ 0} {s | s ≠ 0} ∧
    ∀ (cfg : Config) (seed : BitVec 32) (function : Function) (arguments : List (Argument cfg))
      (minimum maximum : BitVec cfg.intWidth), cfg.int64 = false → function ≠ .srand →
      limits function arguments = some (minimum, maximum) → minimum.toInt ≤ maximum.toInt →
      ∀ draws, 32 ≤ draws → ∃ value behind,
        callRandom seed draws function arguments state = some (.ok (.int value), behind) ∧ behind ≠ 0 ∧
          minimum.toInt ≤ value.toInt ∧ value.toInt ≤ maximum.toInt := by
  refine ⟨fun draws enough => ?_, nextRandom_ne state, nextRandom_bijOn, ?_⟩
  · obtain ⟨value, behind, drawn, nonzero, below⟩ := boundedRandom_ends bound state enough
    refine ⟨value, behind, drawn, nonzero, below, ?_⟩
    rintro rfl
    cases drawn
    exact ⟨rfl, rfl⟩
  · intro cfg seed function arguments minimum maximum small other given le draws enough
    obtain ⟨words, counted⟩ := span_isSome small minimum maximum
    exact callRandom_within other given le counted seed enough state

theorem bound_zero : boundedRandom 1 0 1 = some (270369, 270369) ∧
    ¬ ∃ draws value behind, boundedRandom draws 0 1 = some (value, behind) ∧ value < 0 := by
  refine ⟨by decide, ?_⟩
  rintro ⟨draws, value, behind, -, below⟩
  exact absurd below (BitVec.not_lt.mpr (Nat.zero_le _))

end PhpPico.Random
