import Mathlib.Tactic.NormNum.Prime
import PhpPico.Random.Draws

/-!
# The period of the generator

The states go round in one cycle: from each one, all words but zero follow, each of them once in 2^32 - 1 draws.
-/

namespace PhpPico.Random
open Xorshift

theorem turn_basis : ∀ i < 32, collect (· <<< 1) (columns turn 0) (BitVec.twoPow 32 i) = turn (BitVec.twoPow 32 i) := by
  decide +kernel

theorem turn_jumps : jump turn 4294967295 1 32 = 1 ∧ ∀ p ∈ [3, 5, 17, 257, 65537],
    jump turn (4294967295 / p) 1 32 ≠ 1 := by
  decide +kernel

theorem turn_iterate {n : Nat} (lt : n < 2 ^ 32) : turn^[n] 1 = jump turn n 1 32 := by
  rw [jump_eq turn_linear turn_basis, Nat.mod_eq_of_lt lt]

theorem prime_of_dvd {p : Nat} (prime : p.Prime) (dvd : p ∣ 4294967295) : p ∈ [3, 5, 17, 257, 65537] := by
  rw [show 4294967295 = 3 * 5 * 17 * 257 * 65537 by norm_num] at dvd
  simp only [prime.dvd_mul, Nat.prime_dvd_prime_iff_eq prime (show Nat.Prime 3 by norm_num),
    Nat.prime_dvd_prime_iff_eq prime (show Nat.Prime 5 by norm_num),
    Nat.prime_dvd_prime_iff_eq prime (show Nat.Prime 17 by norm_num),
    Nat.prime_dvd_prime_iff_eq prime (show Nat.Prime 257 by norm_num),
    Nat.prime_dvd_prime_iff_eq prime (show Nat.Prime 65537 by norm_num)] at dvd
  simpa [or_assoc] using dvd

theorem minimalPeriod_turn : Function.minimalPeriod turn 1 = 4294967295 := by
  refine minimalPeriod_eq ((turn_iterate (by decide)).trans turn_jumps.1) fun p prime m whole back => ?_
  have part : 4294967295 / p = m := Nat.div_eq_of_eq_mul_right prime.pos whole
  refine turn_jumps.2 p (prime_of_dvd prime ⟨m, whole⟩) ?_
  rw [part, ← turn_iterate]
  · exact back
  · have le := Nat.div_le_self 4294967295 p
    omega

theorem turn_iterate_ne {x : BitVec 32} (nonzero : x ≠ 0) (n : Nat) : turn^[n] x ≠ 0 := by
  induction n with
  | zero => exact nonzero
  | succ n ih =>
    rw [Function.iterate_succ_apply']
    exact turn_ne ih

theorem nextRandom_iterate {x : BitVec 32} (nonzero : x ≠ 0) (n : Nat) : nextRandom^[n] x = turn^[n] x := by
  induction n with
  | zero => rfl
  | succ n ih =>
    rw [Function.iterate_succ_apply', Function.iterate_succ_apply', ih, nextRandom_of_ne (turn_iterate_ne nonzero n)]

section Cycle
variable {x y : BitVec 32} (period : Function.minimalPeriod turn x = 4294967295)
include period

/-- A cycle of this length has all words but zero. -/
theorem exists_turn (nonzero : x ≠ 0) (nonzero' : y ≠ 0) : ∃ n < 4294967295, turn^[n] x = y := by
  let word (i : Fin (2 ^ 32)) : BitVec 32 := if i.val = 0 then 0 else turn^[i.val - 1] x
  have injective : Function.Injective fun i => (word i).toFin := by
    intro i j same
    have same : word i = word j := BitVec.eq_of_toFin_eq same
    simp only [word] at same
    split at same
    · split at same
      · exact Fin.ext (by omega)
      · exact absurd same.symm (turn_iterate_ne nonzero _)
    · split at same
      · exact absurd same (turn_iterate_ne nonzero _)
      · have eq := (Function.iterate_eq_iterate_iff_of_lt_minimalPeriod (by omega) (by omega)).mp same
        exact Fin.ext (by omega)
  obtain ⟨i, eq⟩ := Finite.surjective_of_injective injective y.toFin
  have eq : word i = y := BitVec.eq_of_toFin_eq eq
  simp only [word] at eq
  split at eq
  · exact absurd eq.symm nonzero'
  · exact ⟨_, by omega, eq⟩

end Cycle

theorem minimalPeriod_of_ne {x : BitVec 32} (nonzero : x ≠ 0) : Function.minimalPeriod turn x = 4294967295 := by
  obtain ⟨n, -, rfl⟩ := exists_turn minimalPeriod_turn (by decide) nonzero
  have back : Function.IsPeriodicPt turn (Function.minimalPeriod turn 1) (1 : BitVec 32) :=
    Function.isPeriodicPt_minimalPeriod turn 1
  rw [minimalPeriod_turn] at back
  rw [Function.minimalPeriod_apply_iterate ⟨_, by decide, back⟩, minimalPeriod_turn]

/-- **The draws run through all words but zero**: whatever the state is, each of them is drawn exactly once in
2^32 - 1 draws. -/
theorem random_cycles (state : BitVec 32) {value : BitVec 32} (nonzero : value ≠ 0) :
    ∃! n, 0 < n ∧ n ≤ 4294967295 ∧ nextRandom^[n] state = value := by
  have first := nextRandom_ne state
  have period := minimalPeriod_of_ne first
  have later (n : Nat) : nextRandom^[n + 1] state = turn^[n] (nextRandom state) := nextRandom_iterate first n
  obtain ⟨n, lt, eq⟩ := exists_turn period first nonzero
  refine ⟨n + 1, ⟨Nat.succ_pos n, lt, (later n).trans eq⟩, ?_⟩
  rintro m ⟨pos, le, drawn⟩
  obtain ⟨k, rfl⟩ := Nat.exists_eq_succ_of_ne_zero pos.ne'
  rw [Nat.succ_eq_add_one, later, ← eq] at drawn
  rw [(Function.iterate_eq_iterate_iff_of_lt_minimalPeriod (by omega) (by omega)).mp drawn]

/-- After any number of draws the words go on as from a state that was never used. -/
theorem random_cycles_one : ∃! n, 0 < n ∧ n ≤ 4294967295 ∧ nextRandom^[n] 0 = 1 :=
  random_cycles 0 (by decide)

end PhpPico.Random
