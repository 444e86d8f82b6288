import Mathlib.Data.Set.Card
import PhpPico.Random.Draws

/-!
# How evenly random integers fall

Of the words a draw accepts as many are congruent to each offset, each drawn from one state that is not zero; the
state zero draws what another one does. So below 2^32 values the numbers of states differ by at most one, the state
zero apart, and from 2^32 values on nothing gives the least one.
-/

namespace PhpPico.Random

/-! ## Accepted words -/

section Words
variable {size bound : Nat}

/-- The words from the remainder of their number on that are congruent to an offset. -/
def accepted (size bound offset : Nat) : Set Nat := {v | size % bound ≤ v ∧ v < size ∧ v % bound = offset}

/-- **As many accepted words are congruent to each offset.** -/
theorem ncard_accepted {offset : Nat} (lt : offset < bound) : (accepted size bound offset).ncard = size / bound := by
  have rest := Nat.mod_lt size (Nat.zero_lt_of_lt lt)
  have whole := Nat.div_add_mod size bound
  -- the first word, and the others behind it
  let first := if offset < size % bound then offset + bound else offset
  have same : accepted size bound offset = (fun k => first + bound * k) '' ↑(Finset.range (size / bound)) := by
    ext v
    simp only [accepted, Set.mem_ofPred_eq, Set.mem_image, Finset.coe_range, Set.mem_Iio]
    constructor
    · rintro ⟨from', below, rfl⟩
      have parts := Nat.div_add_mod v bound
      have quotient : v / bound ≤ size / bound := Nat.div_le_div_right (le_of_lt below)
      by_cases early : v % bound < size % bound
      · obtain ⟨k, behind⟩ : ∃ k, v / bound = k + 1 := by
          refine Nat.exists_eq_succ_of_ne_zero fun zero => ?_
          rw [zero] at parts
          omega
        refine ⟨k, by omega, ?_⟩
        simp only [first, if_pos early]
        rw [behind, Nat.mul_succ] at parts
        omega
      · refine ⟨v / bound, Nat.lt_of_le_of_ne quotient fun last => ?_, ?_⟩
        · rw [last] at parts
          omega
        · simp only [first, if_neg early]
          omega
    · rintro ⟨k, small, rfl⟩
      have inside : bound * (k + 1) ≤ bound * (size / bound) := Nat.mul_le_mul_left bound small
      rw [Nat.mul_succ] at inside
      by_cases early : offset < size % bound
      · simp only [first, if_pos early]
        refine ⟨by omega, by omega, ?_⟩
        rw [Nat.add_mul_mod_self_left, Nat.add_mod_right, Nat.mod_eq_of_lt lt]
      · simp only [first, if_neg early]
        refine ⟨by omega, by omega, ?_⟩
        rw [Nat.add_mul_mod_self_left, Nat.mod_eq_of_lt lt]
  have injective : Function.Injective fun k => first + bound * k := fun j k eq =>
    Nat.eq_of_mul_eq_mul_left (Nat.zero_lt_of_lt lt) (Nat.add_left_cancel eq)
  rw [same, Set.ncard_image_of_injective _ injective, Set.ncard_coe_finset, Finset.card_range]

end Words

/-! ## States -/

section States
variable {cfg : Config} (seed : BitVec 32) (states : Set (BitVec 32)) (minimum maximum : BitVec cfg.intWidth)

/-- The states from which `random_int` gives a value without a further draw. -/
def givers (value : BitVec cfg.intWidth) : Set (BitVec 32) :=
  {s ∈ states | ∃ behind,
    callRandom seed 1 .random_int [.int minimum, .int maximum] s = some (.ok (.int value), behind)}

/-- `random_int` covers an interval evenly: the span does not overflow, every value is returned from some state, and
the numbers of states that give two values without a further draw differ by at most one. -/
def Evenly : Prop :=
  (span minimum.toInt maximum.toInt).isSome = true ∧
  (∀ value : BitVec cfg.intWidth, minimum.toInt ≤ value.toInt → value.toInt ≤ maximum.toInt →
    ∃ s ∈ states, ∃ draws behind,
      callRandom seed draws .random_int [.int minimum, .int maximum] s = some (.ok (.int value), behind)) ∧
  ∀ value other : BitVec cfg.intWidth, minimum.toInt ≤ value.toInt → value.toInt ≤ maximum.toInt →
    minimum.toInt ≤ other.toInt → other.toInt ≤ maximum.toInt →
    (givers seed states minimum maximum value).ncard ≤ (givers seed states minimum maximum other).ncard + 1

end States

section Narrow
variable {cfg : Config} (seed : BitVec 32) {states : Set (BitVec 32)} {minimum maximum value : BitVec cfg.intWidth}

/-- The states that give a value without a further draw are those whose next word is accepted. -/
theorem mem_givers (le : minimum.toInt ≤ maximum.toInt) (narrow : maximum.toInt - minimum.toInt < 4294967295)
    {offset : Nat} (at' : value.toInt = minimum.toInt + offset) {s : BitVec 32} :
    s ∈ givers seed states minimum maximum value ↔ s ∈ states ∧
      (nextRandom s).toNat ∈ accepted (2 ^ 32) (maximum.toInt - minimum.toInt + 1).toNat offset := by
  have fits : Signed.Fits (-9223372036854775808) 9223372036854775807 (maximum.toInt - minimum.toInt) := by
    refine ⟨?_, ?_⟩ <;> omega
  have counted : span minimum.toInt maximum.toInt =
      some (BitVec.ofInt 64 (maximum.toInt - minimum.toInt) + 1) := congrArg (Option.map _) (if_pos fits)
  obtain ⟨-, size⟩ := span_eq_some le counted
  generalize BitVec.ofInt 64 (maximum.toInt - minimum.toInt) + 1 = words at *
  have small : ¬ 4294967295 < words.toNat := by omega
  have bound := toNat_bound small
  have nonzero : words.setWidth 32 ≠ 0 := by
    intro zero
    rw [zero, show BitVec.toNat (0 : BitVec 32) = 0 from rfl] at bound
    omega
  have low := toNat_threshold nonzero
  rw [show (maximum.toInt - minimum.toInt + 1).toNat = words.toNat by omega]
  rw [bound] at low
  unfold givers
  rw [Set.mem_ofPred_eq, callRandom_eq (by decide) rfl le, counted, Option.bind_some, if_neg small, boundedRandom,
    if_neg nonzero, drawFrom, drawFrom]
  refine and_congr_right fun _ => ?_
  dsimp only [accepted]
  rw [Set.mem_ofPred_eq, ← low]
  by_cases rejected : nextRandom s < threshold (words.setWidth 32)
  · rw [if_pos rejected]
    rw [BitVec.lt_def] at rejected
    constructor
    · rintro ⟨_, nothing⟩
      cases nothing
    · rintro ⟨from', -, -⟩
      omega
  · rw [if_neg rejected]
    rw [BitVec.lt_def] at rejected
    have remainder : (nextRandom s % words.setWidth 32).toNat = (nextRandom s).toNat % words.toNat := by
      rw [BitVec.toNat_umod, bound]
    have below := Nat.mod_lt (nextRandom s).toNat (show 0 < words.toNat by omega)
    have inside : (BitVec.ofInt cfg.intWidth (minimum.toInt + ((nextRandom s).toNat % words.toNat : Nat))).toInt =
        minimum.toInt + ((nextRandom s).toNat % words.toNat : Nat) := toInt_offset (show _ ≤ maximum.toInt by omega)
    simp only [Option.map_some, remainder, Option.some.injEq, Prod.mk.injEq, Except.ok.injEq, Answer.int.injEq]
    constructor
    · rintro ⟨_, same, -⟩
      rw [same] at inside
      omega
    · rintro ⟨-, -, same⟩
      refine ⟨_, BitVec.eq_of_toInt_eq ?_, rfl⟩
      rw [inside, same, at']

/-- The states but zero that give a value are as many as the accepted words but zero. -/
theorem ncard_givers_ne (le : minimum.toInt ≤ maximum.toInt) (narrow : maximum.toInt - minimum.toInt < 4294967295)
    {offset : Nat} (at' : value.toInt = minimum.toInt + offset) :
    (givers seed {s | s ≠ 0} minimum maximum value).ncard =
      (accepted (2 ^ 32) (maximum.toInt - minimum.toInt + 1).toNat offset \ {0}).ncard := by
  have injective : Set.InjOn (fun s => (nextRandom s).toNat) (givers seed {s | s ≠ 0} minimum maximum value) := by
    intro s giver t giver' same
    exact nextRandom_bijOn.injOn giver.1 giver'.1 (BitVec.eq_of_toNat_eq same)
  rw [← injective.ncard_image]
  congr 1
  ext v
  rw [Set.mem_image, Set.mem_sdiff, Set.mem_singleton_iff]
  constructor
  · rintro ⟨s, giver, rfl⟩
    refine ⟨((mem_givers seed le narrow at').mp giver).2, fun zero => nextRandom_ne s ?_⟩
    exact BitVec.eq_of_toNat_eq zero
  · rintro ⟨mem, nonzero⟩
    have word : (BitVec.ofNat 32 v).toNat = v := by
      rw [BitVec.toNat_ofNat, Nat.mod_eq_of_lt mem.2.1]
    have nonzero' : BitVec.ofNat 32 v ≠ 0 := by
      intro zero
      rw [zero] at word
      exact nonzero word.symm
    obtain ⟨s, state, drawn⟩ := nextRandom_bijOn.surjOn nonzero'
    refine ⟨s, (mem_givers seed le narrow at').mpr ⟨state, ?_⟩, ?_⟩ <;> simp only [drawn, word, mem]

/-- All states but zero: a value loses one if zero is among its words. -/
theorem ncard_givers (le : minimum.toInt ≤ maximum.toInt)
    (narrow : maximum.toInt - minimum.toInt < 4294967295) (from' : minimum.toInt ≤ value.toInt)
    (within : value.toInt ≤ maximum.toInt) :
    let size := (maximum.toInt - minimum.toInt + 1).toNat
    let count := (givers seed {s | s ≠ 0} minimum maximum value).ncard
    if 2 ^ 32 % size = 0 ∧ value.toInt = minimum.toInt then count + 1 = 2 ^ 32 / size
    else count = 2 ^ 32 / size := by
  intro size count
  obtain ⟨offset, at'⟩ := Int.eq_ofNat_of_zero_le (show 0 ≤ value.toInt - minimum.toInt by omega)
  have number : count = (accepted (2 ^ 32) size offset \ {0}).ncard := ncard_givers_ne seed le narrow (by omega)
  have total : (accepted (2 ^ 32) size offset).ncard = 2 ^ 32 / size := ncard_accepted (by omega)
  have finite : (accepted (2 ^ 32) size offset).Finite := (Set.finite_lt_nat (2 ^ 32)).subset fun v mem => mem.2.1
  have zero_mem : 0 ∈ accepted (2 ^ 32) size offset ↔ 2 ^ 32 % size = 0 ∧ value.toInt = minimum.toInt := by
    simp only [accepted, Set.mem_ofPred_eq, Nat.zero_mod, Nat.le_zero]
    omega
  split
  · rename_i zero
    rw [number, Set.ncard_sdiff_singleton_add_one (zero_mem.mpr zero) finite, total]
  · rename_i zero
    rw [number, Set.sdiff_singleton_eq_self (mt zero_mem.mp zero), total]

theorem ncard_givers_univ (le : minimum.toInt ≤ maximum.toInt)
    (narrow : maximum.toInt - minimum.toInt < 4294967295) {offset : Nat}
    (at' : value.toInt = minimum.toInt + offset) :
    let word := 1085196063 ∈ accepted (2 ^ 32) (maximum.toInt - minimum.toInt + 1).toNat offset
    let count := (givers seed {s | s ≠ 0} minimum maximum value).ncard
    word ∧ (givers seed Set.univ minimum maximum value).ncard = count + 1 ∨
      ¬ word ∧ (givers seed Set.univ minimum maximum value).ncard = count := by
  intro word count
  have zero : 0 ∈ givers seed Set.univ minimum maximum value ↔ word :=
    (mem_givers seed le narrow at').trans (and_iff_right trivial)
  have apart : givers seed {s | s ≠ 0} minimum maximum value = givers seed Set.univ minimum maximum value \ {0} := by
    ext s
    rw [Set.mem_sdiff, mem_givers seed le narrow at', mem_givers seed le narrow at']
    exact ⟨fun ⟨nonzero, mem⟩ => ⟨⟨trivial, mem⟩, nonzero⟩, fun ⟨⟨_, mem⟩, nonzero⟩ => ⟨nonzero, mem⟩⟩
  simp only [count, apart]
  by_cases mem : word
  · exact .inl ⟨mem, (Set.ncard_sdiff_singleton_add_one (zero.mpr mem) (Set.toFinite _)).symm⟩
  · rw [Set.sdiff_singleton_eq_self (mt zero.mp mem)]
    exact .inr ⟨mem, rfl⟩

theorem exists_giver (le : minimum.toInt ≤ maximum.toInt) (narrow : maximum.toInt - minimum.toInt < 4294967295)
    (from' : minimum.toInt ≤ value.toInt) (within : value.toInt ≤ maximum.toInt) : ∃ s, s ≠ 0 ∧ ∃ draws behind,
      callRandom seed draws .random_int [.int minimum, .int maximum] s = some (.ok (.int value), behind) := by
  have count := ncard_givers seed le narrow from' within
  have size : (maximum.toInt - minimum.toInt + 1).toNat < 2 ^ 32 := by omega
  have pos : 0 < (maximum.toInt - minimum.toInt + 1).toNat := by omega
  have one : 1 ≤ 2 ^ 32 / (maximum.toInt - minimum.toInt + 1).toNat := (Nat.one_le_div_iff pos).mpr (le_of_lt size)
  have nonempty : (givers seed {s | s ≠ 0} minimum maximum value).ncard ≠ 0 := by
    dsimp only at count
    split at count
    · rename_i divides
      have whole := Nat.div_add_mod (2 ^ 32) (maximum.toInt - minimum.toInt + 1).toNat
      intro none
      rw [divides.1, ← count, none] at whole
      omega
    · omega
  obtain ⟨s, nonzero, behind, given⟩ := Set.nonempty_of_ncard_ne_zero nonempty
  exact ⟨s, nonzero, 1, behind, given⟩

end Narrow

section Wide
variable {cfg : Config} {seed : BitVec 32} {states : Set (BitVec 32)} {minimum maximum : BitVec cfg.intWidth}

/-- From 2^32 values on the least one is never returned. -/
theorem not_minimum (le : minimum.toInt ≤ maximum.toInt) (wide : 4294967295 ≤ maximum.toInt - minimum.toInt)
    (draws : Nat) (s behind : BitVec 32) :
    callRandom seed draws .random_int [.int minimum, .int maximum] s ≠ some (.ok (.int minimum), behind) := by
  intro returned
  rw [callRandom_eq (by decide) rfl le] at returned
  obtain ⟨words, counted, drawn⟩ := Option.bind_eq_some_iff.mp returned
  obtain ⟨-, size⟩ := span_eq_some le counted
  rw [if_pos (by omega), Option.map_some] at drawn
  simp only [Option.some.injEq, Prod.mk.injEq, Except.ok.injEq, Answer.int.injEq] at drawn
  have inside := toInt_offset (show minimum.toInt + (nextRandom s).toNat ≤ maximum.toInt by omega)
  rw [drawn.1] at inside
  exact nextRandom_ne s (BitVec.eq_of_toNat_eq (show _ = 0 by omega))

theorem Evenly.narrow (even : Evenly seed states minimum maximum) (le : minimum.toInt ≤ maximum.toInt) :
    maximum.toInt - minimum.toInt < 4294967295 := by
  by_contra wide
  obtain ⟨s, -, draws, behind, returned⟩ := even.2.1 minimum (Int.le_refl _) le
  exact not_minimum le (by omega) draws s behind returned

theorem span_isSome_of_narrow (le : minimum.toInt ≤ maximum.toInt)
    (narrow : maximum.toInt - minimum.toInt < 4294967295) : (span minimum.toInt maximum.toInt).isSome = true := by
  have fits : Signed.Fits (-9223372036854775808) 9223372036854775807 (maximum.toInt - minimum.toInt) := by
    refine ⟨?_, ?_⟩ <;> omega
  rw [span, Signed.sub, Signed.exact, if_pos fits]
  rfl

end Wide

/-- Where the number of values is a power of two, and not one, the state zero tips the balance. -/
theorem not_even_power {cfg : Config} {seed : BitVec 32} {minimum maximum : BitVec cfg.intWidth}
    (le : minimum.toInt ≤ maximum.toInt) (narrow : maximum.toInt - minimum.toInt < 4294967295)
    (apart : minimum.toInt ≠ maximum.toInt) (divides : maximum.toInt - minimum.toInt + 1 ∣ 2 ^ 32) :
    ¬ Evenly seed Set.univ minimum maximum := by
  intro even
  obtain ⟨size, count⟩ := Int.eq_ofNat_of_zero_le (show 0 ≤ maximum.toInt - minimum.toInt + 1 by omega)
  have power : size ∣ 2 ^ 32 := by
    rw [count] at divides
    exact_mod_cast divides
  have rest : 2 ^ 32 % size = 0 := Nat.mod_eq_zero_of_dvd power
  obtain ⟨_ | k, -, rfl⟩ := (Nat.dvd_prime_pow Nat.prime_two).mp power
  · omega
  have odd : 1085196063 % 2 ^ (k + 1) % 2 = 1 := by
    rw [Nat.mod_mod_of_dvd _ (Nat.dvd_of_pow_dvd (Nat.succ_pos k) (Nat.dvd_refl _))]
  have at' : (BitVec.ofInt cfg.intWidth (minimum.toInt + (1085196063 % 2 ^ (k + 1) : Nat))).toInt =
      minimum.toInt + (1085196063 % 2 ^ (k + 1) : Nat) := toInt_offset (show _ ≤ maximum.toInt by omega)
  generalize BitVec.ofInt cfg.intWidth (minimum.toInt + (1085196063 % 2 ^ (k + 1) : Nat)) = value at at'
  have more := ncard_givers seed le narrow (show _ ≤ value.toInt by omega) (by omega)
  have fewer := ncard_givers seed le narrow (Int.le_refl _) le
  have word := ncard_givers_univ seed le narrow at'
  have none := ncard_givers_univ seed le narrow (show minimum.toInt = minimum.toInt + (0 : Nat) by omega)
  have balance := even.2.2 value minimum (by omega) (by omega) (Int.le_refl _) le
  simp only [count, Int.toNat_natCast, rest, true_and, if_true, accepted, Set.mem_ofPred_eq] at more fewer word none
  rw [if_neg (by omega)] at more
  have from' : (1085196063 : Nat) < 2 ^ 32 := by decide
  obtain ⟨-, word⟩ | ⟨out, -⟩ := word
  · obtain ⟨⟨-, -, zero⟩, -⟩ | ⟨-, same⟩ := none
    · rw [zero] at odd
      cases odd
    · omega
  · exact absurd ⟨Nat.zero_le _, from', trivial⟩ out

/-- **`random_int` covers an interval evenly exactly below 2^32 values**, if the state zero is left aside; with it the
number of values must not be a power of two, but for one. -/
theorem random_int_even (cfg : Config) (seed : BitVec 32) (minimum maximum : BitVec cfg.intWidth)
    (le : minimum.toInt ≤ maximum.toInt) :
    (Evenly seed {s | s ≠ 0} minimum maximum ↔ maximum.toInt - minimum.toInt < 4294967295) ∧
    (Evenly seed Set.univ minimum maximum ↔ maximum.toInt - minimum.toInt < 4294967295 ∧
      (maximum.toInt - minimum.toInt + 1 ∣ 2 ^ 32 → maximum = minimum)) := by
  constructor
  · refine ⟨fun even => even.narrow le, fun narrow => ⟨span_isSome_of_narrow le narrow, fun value from' within => ?_,
      fun value other from' within from'' within' => ?_⟩⟩
    · exact exists_giver seed le narrow from' within
    · have count := ncard_givers seed le narrow from' within
      have count' := ncard_givers seed le narrow from'' within'
      dsimp only at count count'
      split at count <;> split at count' <;> omega
  · refine ⟨fun even => ⟨even.narrow le, fun divides => ?_⟩, fun ⟨narrow, power⟩ => ?_⟩
    · by_contra apart
      have narrow := even.narrow le
      exact not_even_power le narrow (fun same => apart (BitVec.eq_of_toInt_eq same.symm)) divides even
    · refine ⟨span_isSome_of_narrow le narrow, fun value from' within => ?_,
        fun value other from' within from'' within' => ?_⟩
      · obtain ⟨s, -, given⟩ := exists_giver seed le narrow from' within
        exact ⟨s, trivial, given⟩
      · by_cases divides : maximum.toInt - minimum.toInt + 1 ∣ 2 ^ 32
        · obtain rfl := power divides
          obtain rfl : value = other := BitVec.eq_of_toInt_eq (by omega)
          exact Nat.le_succ _
        · obtain ⟨offset, at'⟩ := Int.eq_ofNat_of_zero_le (show 0 ≤ value.toInt - minimum.toInt by omega)
          obtain ⟨offset', at''⟩ := Int.eq_ofNat_of_zero_le (show 0 ≤ other.toInt - minimum.toInt by omega)
          have count := ncard_givers seed le narrow from' within
          have count' := ncard_givers seed le narrow from'' within'
          have univ := ncard_givers_univ seed le narrow (show value.toInt = minimum.toInt + offset by omega)
          have univ' := ncard_givers_univ seed le narrow (show other.toInt = minimum.toInt + offset' by omega)
          have rest : 2 ^ 32 % (maximum.toInt - minimum.toInt + 1).toNat ≠ 0 := fun zero => by
            have power := Int.natCast_dvd_natCast.mpr (Nat.dvd_of_mod_eq_zero zero)
            rw [Int.toNat_of_nonneg (by omega)] at power
            exact divides power
          simp only [rest, false_and, if_false] at count count'
          omega

/-- A build with integers of 32 bits. -/
def small : Config := ⟨false, false, true, true, true⟩

theorem random_int_even_die : Evenly 0 {s | s ≠ 0} (1 : BitVec small.intWidth) 6 ∧
    Evenly 0 Set.univ (1 : BitVec small.intWidth) 6 := by
  obtain ⟨nonzero, univ⟩ := random_int_even small 0 1 6 (by decide)
  exact ⟨nonzero.mpr (by decide), univ.mpr ⟨by decide, by decide⟩⟩

/-- Of all integers of 32 bits the least one is never returned. -/
theorem least_missing :
    let least : BitVec small.intWidth := BitVec.ofInt _ (-2147483648)
    let most : BitVec small.intWidth := BitVec.ofInt _ 2147483647
    least.toInt ≤ most.toInt ∧ (∀ draws s behind,
      callRandom 0 draws .random_int [.int least, .int most] s ≠ some (.ok (.int least), behind)) ∧
    ¬ Evenly 0 Set.univ least most := by
  have le : (BitVec.ofInt small.intWidth (-2147483648)).toInt ≤ (BitVec.ofInt small.intWidth 2147483647).toInt := by
    decide
  refine ⟨le, not_minimum le (by decide), fun even => ?_⟩
  exact absurd (even.narrow le) (by decide)

end PhpPico.Random
