import Mathlib.Data.Nat.Prime.Basic
import Mathlib.Dynamics.PeriodicPts.Defs
import Mathlib.Tactic.Common

/-!
# Xorshift generators

Steps that xor a word with itself, shifted, respect the xor of words, so that what they do to the words of one bit is
what they do to all; many steps at once are computed so. Each step is one-to-one, and where the top bits of the first
words of an orbit determine the word it starts from, some word has its top bit set.
-/

namespace Xorshift
open Function BitVec

variable {w : Nat} {f g : BitVec w → BitVec w} {x y : BitVec w}

def xorLeft (k : Nat) (x : BitVec w) : BitVec w := x ^^^ (x <<< k)

def xorRight (k : Nat) (x : BitVec w) : BitVec w := x ^^^ (x >>> k)

/-! ## Linear steps -/

/-- A step that respects the xor of words. -/
def Linear (f : BitVec w → BitVec w) : Prop := ∀ x y, f (x ^^^ y) = f x ^^^ f y

theorem xorLeft_linear (k : Nat) : Linear (xorLeft k : BitVec w → BitVec w) := by
  intro x y
  simp only [xorLeft, shiftLeft_xor_distrib]
  ac_rfl

theorem xorRight_linear (k : Nat) : Linear (xorRight k : BitVec w → BitVec w) := by
  intro x y
  simp only [xorRight, ushiftRight_xor_distrib]
  ac_rfl

theorem Linear.comp (hf : Linear f) (hg : Linear g) : Linear (f ∘ g) := by
  intro x y
  rw [comp_apply, hg x y, hf]
  rfl

theorem Linear.zero (hf : Linear f) : f 0 = 0 := by
  have twice := hf 0 0
  simpa using twice

/-- **Linear steps that agree on the words of one bit are the same.** -/
theorem Linear.ext (hf : Linear f) (hg : Linear g) (basis : ∀ i < w, f (twoPow w i) = g (twoPow w i))
    (x : BitVec w) : f x = g x := by
  -- over the number of low bits that may be set
  have low (n : Nat) : n ≤ w → ∀ x : BitVec w, (∀ i, n ≤ i → x.getLsbD i = false) → f x = g x := by
    induction n with
    | zero =>
      intro _ x none
      have empty : x = 0 := eq_of_getLsbD_eq fun i _ => by simp [none i (Nat.zero_le i)]
      rw [empty, hf.zero, hg.zero]
    | succ n ih =>
      intro bound x above
      by_cases bit : x.getLsbD n = true
      · have rest : f (x ^^^ twoPow w n) = g (x ^^^ twoPow w n) := by
          refine ih (by omega) _ fun i le => ?_
          rw [getLsbD_xor, getLsbD_twoPow]
          obtain rfl | lt := Nat.eq_or_lt_of_le le
          · simp [bit]
            omega
          · simp [above i lt, Nat.ne_of_lt lt]
        have split : x = x ^^^ twoPow w n ^^^ twoPow w n := by
          rw [BitVec.xor_assoc, BitVec.xor_self, xor_zero]
        rw [split, hf, hg, rest, basis n (by omega)]
      · refine ih (by omega) x fun i le => ?_
        obtain rfl | lt := Nat.eq_or_lt_of_le le
        · simpa using bit
        · exact above i lt
  exact low w (Nat.le_refl w) x fun i le => getLsbD_of_ge x i le

/-! ## Steps that lose nothing -/

theorem xorLeft_twice (k : Nat) (x : BitVec w) : xorLeft k (xorLeft k x) = xorLeft (k + k) x := by
  simp only [xorLeft, shiftLeft_xor_distrib, ← shiftLeft_add]
  rw [BitVec.xor_assoc, ← BitVec.xor_assoc (x <<< k), BitVec.xor_self, BitVec.zero_xor]

theorem xorRight_twice (k : Nat) (x : BitVec w) : xorRight k (xorRight k x) = xorRight (k + k) x := by
  simp only [xorRight, ushiftRight_xor_distrib, ← shiftRight_add]
  rw [BitVec.xor_assoc, ← BitVec.xor_assoc (x >>> k), BitVec.xor_self, BitVec.zero_xor]

/-- Steps one of which is the other, made twice, down to one that leaves words as they are. -/
theorem injective_of_twice {step : Nat → BitVec w → BitVec w} (twice : ∀ k x, step k (step k x) = step (k + k) x)
    (last : ∀ k x, w ≤ k → step k x = x) (k : Nat) (pos : 0 < k) : Injective (step k) := by
  by_cases le : w ≤ k
  · intro x y same
    rwa [last k x le, last k y le] at same
  · have double := injective_of_twice twice last (k + k) (by omega)
    refine .of_comp (f := step k) ?_
    rwa [show step k ∘ step k = step (k + k) from funext (twice k)]
termination_by w - k

theorem xorLeft_injective {k : Nat} (pos : 0 < k) : Injective (xorLeft k : BitVec w → BitVec w) :=
  injective_of_twice xorLeft_twice (fun k x le => by simp [xorLeft, shiftLeft_eq_zero le]) k pos

theorem xorRight_injective {k : Nat} (pos : 0 < k) : Injective (xorRight k : BitVec w → BitVec w) :=
  injective_of_twice xorRight_twice (fun k x le => by simp [xorRight, ushiftRight_eq_zero le]) k pos

/-! ## Top bits -/

/-- Words of which those are xored whose place in the orbit has its top bit set. -/
def collect (f : BitVec w → BitVec w) : List (BitVec w) → BitVec w → BitVec w
  | [], _ => 0
  | word :: rest, x => (if x.msb then word else 0) ^^^ collect f rest (f x)

theorem collect_linear (hf : Linear f) (words : List (BitVec w)) : Linear (collect f words) := by
  induction words with
  | nil => exact fun _ _ => (BitVec.xor_self).symm
  | cons word rest ih =>
    intro x y
    rw [collect, hf x y, ih (f x) (f y), msb_xor]
    have apart : (if x.msb ^^ y.msb then word else 0) = (if x.msb then word else 0) ^^^ if y.msb then word else 0 := by
      cases x.msb <;> cases y.msb <;> simp
    rw [apart]
    simp only [collect]
    ac_rfl

theorem exists_msb_of_collect {words : List (BitVec w)} (some : collect f words x ≠ 0) :
    ∃ k < words.length, (f^[k] x).msb = true := by
  induction words generalizing x with
  | nil => exact absurd rfl some
  | cons word rest ih =>
    by_cases top : x.msb = true
    · exact ⟨0, Nat.succ_pos _, top⟩
    · obtain ⟨k, lt, found⟩ := ih (x := f x) (by simpa [collect, top] using some)
      exact ⟨k + 1, Nat.succ_lt_succ lt, found⟩

/-- **Where the top bits of an orbit give back every word of one bit, the orbit of a word that is not zero has a word
with its top bit set.** -/
theorem exists_msb (words : List (BitVec w)) (hf : Linear f)
    (basis : ∀ i < w, collect f words (twoPow w i) = twoPow w i) (nonzero : x ≠ 0) :
    ∃ k < words.length, (f^[k] x).msb = true := by
  apply exists_msb_of_collect
  rwa [(collect_linear hf words).ext (g := id) (fun _ _ => rfl) basis x]

/-! ## Many steps at once -/

theorem collect_map (hg : Linear g) (words : List (BitVec w)) (x : BitVec w) :
    collect f (words.map g) x = g (collect f words x) := by
  induction words generalizing x with
  | nil => exact hg.zero.symm
  | cons word rest ih =>
    rw [List.map_cons, collect, collect, ih, hg]
    congr 1
    split
    · rfl
    · exact hg.zero.symm

/-- What `2 ^ k` steps make of the words of one bit, the highest bit first. -/
def columns (f : BitVec w → BitVec w) : Nat → List (BitVec w)
  | 0 => (List.range w).map fun i => f (twoPow w (w - 1 - i))
  | k + 1 => (columns f k).map (collect (· <<< 1) (columns f k))

/-- Many steps at once, of as many as the low bits of a number say. -/
def jump (f : BitVec w → BitVec w) (n : Nat) (x : BitVec w) : Nat → BitVec w
  | 0 => x
  | k + 1 => if n.testBit k then collect (· <<< 1) (columns f k) (jump f n x k) else jump f n x k

theorem collect_columns (hf : Linear f) (basis : ∀ i < w, collect (· <<< 1) (columns f 0) (twoPow w i) =
    f (twoPow w i)) (k : Nat) (x : BitVec w) : collect (· <<< 1) (columns f k) x = f^[2 ^ k] x := by
  have shift : Linear fun x : BitVec w => x <<< 1 := fun x y => shiftLeft_xor_distrib x y 1
  induction k generalizing x with
  | zero => exact (collect_linear shift _).ext hf basis x
  | succ k ih => rw [columns, collect_map (collect_linear shift _), ih, ih, ← iterate_add_apply, ← Nat.two_mul, ← pow_succ']

theorem jump_eq (hf : Linear f) (basis : ∀ i < w, collect (· <<< 1) (columns f 0) (twoPow w i) =
    f (twoPow w i)) (n : Nat) (x : BitVec w) (k : Nat) : jump f n x k = f^[n % 2 ^ k] x := by
  induction k with
  | zero => rw [pow_zero, Nat.mod_one]; rfl
  | succ k ih =>
    rw [jump, ih, Nat.mod_pow_succ, add_comm, ← Nat.toNat_testBit]
    cases n.testBit k with
    | true =>
      rw [if_pos rfl, collect_columns hf basis, Bool.toNat_true, Nat.mul_one]
      exact (iterate_add_apply f (2 ^ k) _ x).symm
    | false => rw [if_neg Bool.false_ne_true, Bool.toNat_false, Nat.mul_zero, Nat.zero_add]

/-- **A point comes back after a number of steps and not before**, if it does not after a prime part of them. -/
theorem minimalPeriod_eq {α : Type} {f : α → α} {x : α} {n : Nat} (back : IsPeriodicPt f n x)
    (parts : ∀ p, p.Prime → ∀ m, n = p * m → ¬ IsPeriodicPt f m x) : minimalPeriod f x = n := by
  obtain ⟨c, eq⟩ := back.minimalPeriod_dvd
  by_contra less
  have other : c ≠ 1 := by
    rintro rfl
    exact less (by rw [eq, Nat.mul_one])
  obtain ⟨d, whole⟩ := c.minFac_dvd
  refine parts _ (Nat.minFac_prime other) (minimalPeriod f x * d) ?_ ((isPeriodicPt_minimalPeriod f x).mul_const d)
  rw [eq, mul_left_comm, ← whole]

end Xorshift
