import Mathlib.Data.Nat.Digits.Lemmas
import Mathlib.Tactic.Ring
import Mathlib.Tactic.Linarith

/-!
# Numbers in limbs

A natural number as its limbs in a base, the least first. Multiplication by a small factor goes over the limbs with a
carry, and what is left of it is a new limb.
-/

namespace Limbs
open List

/-- Limbs below the base, without a superfluous zero at the end. -/
structure Normal (base : ℕ) (limbs : List ℕ) : Prop where
  limb : ∀ l ∈ limbs, l < base
  leading : limbs ≠ [] → base ^ (limbs.length - 1) ≤ Nat.ofDigits base limbs

/-- The limbs of a multiple, and the carry behind them. -/
def multiplyAdd (base factor : ℕ) : ℕ → List ℕ → List ℕ × ℕ
  | carry, [] => ([], carry)
  | carry, limb :: rest =>
    let product := limb * factor + carry
    let (limbs, last) := multiplyAdd base factor (product / base) rest
    (product % base :: limbs, last)

/-- What is left of a carry becomes a limb. -/
def pushCarry (result : List ℕ × ℕ) : List ℕ := if result.2 ≠ 0 then result.1 ++ [result.2] else result.1

section Multiply
variable (base factor : ℕ)

@[simp] theorem multiplyAdd_length (carry : ℕ) (limbs : List ℕ) :
    (multiplyAdd base factor carry limbs).1.length = limbs.length := by
  induction limbs generalizing carry with
  | nil => rfl
  | cons limb rest ih => exact congrArg (· + 1) (ih _)

theorem multiplyAdd_value (carry : ℕ) (limbs : List ℕ) : Nat.ofDigits base (multiplyAdd base factor carry limbs).1 +
        base ^ limbs.length * (multiplyAdd base factor carry limbs).2 = Nat.ofDigits base limbs * factor + carry := by
  induction limbs generalizing carry with
  | nil => simp [multiplyAdd]
  | cons limb rest ih =>
    have tail := ih ((limb * factor + carry) / base)
    have split := Nat.div_add_mod (limb * factor + carry) base
    simp only [multiplyAdd, Nat.ofDigits_cons, length_cons, pow_succ]
    calc (limb * factor + carry) % base + base * Nat.ofDigits base (multiplyAdd base factor _ rest).1 +
          base ^ rest.length * base * (multiplyAdd base factor _ rest).2
        = (limb * factor + carry) % base + base * (Nat.ofDigits base (multiplyAdd base factor _ rest).1 +
            base ^ rest.length * (multiplyAdd base factor _ rest).2) := by ring
      _ = base * ((limb * factor + carry) / base) + (limb * factor + carry) % base +
            base * Nat.ofDigits base rest * factor := by rw [tail]; ring
      _ = (limb + base * Nat.ofDigits base rest) * factor + carry := by rw [split]; ring

theorem multiplyAdd_limb {base : ℕ} (factor : ℕ) (positive : 0 < base) (carry : ℕ) (limbs : List ℕ) :
    ∀ l ∈ (multiplyAdd base factor carry limbs).1, l < base := by
  induction limbs generalizing carry with
  | nil => simp [multiplyAdd]
  | cons limb rest ih =>
    intro l listed
    rcases mem_cons.mp listed with rfl | tail
    · exact Nat.mod_lt _ positive
    · exact ih _ l tail

end Multiply

variable {base factor : ℕ}

theorem multiplyAdd_carry {carry : ℕ} {limbs : List ℕ} (small : carry < factor) (limb : ∀ l ∈ limbs, l < base) :
    (multiplyAdd base factor carry limbs).2 < factor := by
  induction limbs generalizing carry with
  | nil => exact small
  | cons first rest ih =>
    have below := limb first (.head _)
    apply ih
    · rw [Nat.div_lt_iff_lt_mul (by omega)]
      calc first * factor + carry < (first + 1) * factor := by rw [Nat.succ_mul]; omega
        _ ≤ base * factor := Nat.mul_le_mul_right factor below
        _ = factor * base := mul_comm _ _
    · intro l listed
      exact limb l (mem_cons_of_mem first listed)

theorem pushCarry_value (base factor carry : ℕ) (limbs : List ℕ) :
    Nat.ofDigits base (pushCarry (multiplyAdd base factor carry limbs)) = Nat.ofDigits base limbs * factor + carry := by
  rw [← multiplyAdd_value base factor carry limbs]
  unfold pushCarry
  split
  · rw [Nat.ofDigits_append, Nat.ofDigits_singleton, multiplyAdd_length]
  · rename_i none
    have zero : (multiplyAdd base factor carry limbs).2 = 0 := Decidable.not_not.mp none
    rw [zero, mul_zero, add_zero]

theorem Normal.multiplyAdd {limbs : List ℕ} (h : Normal base limbs) {carry : ℕ} (small : carry < factor)
    (digit : factor ≤ base) (more : 0 < factor) : Normal base (pushCarry (multiplyAdd base factor carry limbs)) where
  limb := by
    have limb := multiplyAdd_limb factor (by omega : 0 < base) carry limbs
    have last := multiplyAdd_carry small h.limb
    unfold pushCarry
    split
    · intro l listed
      rcases mem_append.mp listed with inside | new
      · exact limb l inside
      · rw [mem_singleton.mp new]
        omega
    · exact limb
  leading := by
    have value := pushCarry_value base factor carry limbs
    have whole := multiplyAdd_value base factor carry limbs
    rw [value]
    unfold pushCarry
    split
    · rename_i some
      intro _
      rw [length_append, multiplyAdd_length, length_singleton, Nat.add_sub_cancel, ← whole]
      have one : 1 ≤ (Limbs.multiplyAdd base factor carry limbs).2 := Nat.one_le_iff_ne_zero.mpr some
      have := Nat.mul_le_mul_left (base ^ limbs.length) one
      omega
    · intro nonempty
      rw [multiplyAdd_length]
      have : limbs ≠ [] := by
        rintro rfl
        exact nonempty rfl
      have grown := Nat.le_mul_of_pos_right (Nat.ofDigits base limbs) more
      have := h.leading this
      omega

theorem normal_nil : Normal base [] where
  limb := by simp
  leading := fun nonempty => absurd rfl nonempty

/-! ## Limbs of bits -/

theorem testBit_ofDigits {k : ℕ} (positive : 0 < k) {limbs : List ℕ} (limb : ∀ l ∈ limbs, l < 2 ^ k) (p : ℕ) :
    (Nat.ofDigits (2 ^ k) limbs).testBit p = (limbs.getD (p / k) 0).testBit (p % k) := by
  induction limbs generalizing p with
  | nil => simp
  | cons first rest ih =>
    have tail := ih fun l listed => limb l (mem_cons_of_mem first listed)
    rw [Nat.ofDigits_cons, add_comm, Nat.testBit_two_pow_mul_add _ (limb first mem_cons_self)]
    rcases lt_or_ge p k with here | there
    · rw [if_pos here, Nat.div_eq_of_lt here, Nat.mod_eq_of_lt here]
      rfl
    · have quotient : p / k = (p - k) / k + 1 := by
        rw [← Nat.add_div_right _ positive, Nat.sub_add_cancel there]
      have remainder : p % k = (p - k) % k := Nat.mod_eq_sub_mod there
      rw [if_neg (by omega), tail, quotient, remainder]
      rfl

theorem ofDigits_mod {k : ℕ} {limbs : List ℕ} (limb : ∀ l ∈ limbs, l < 2 ^ k) (whole : ℕ) {r : ℕ} (part : r < k) :
    Nat.ofDigits (2 ^ k) limbs % 2 ^ (k * whole + r) =
      Nat.ofDigits (2 ^ k) (limbs.take whole) + 2 ^ (k * whole) * (limbs.getD whole 0 % 2 ^ r) := by
  induction whole generalizing limbs with
  | zero =>
    cases limbs with
    | nil => simp
    | cons first rest =>
      obtain ⟨d, rfl⟩ : ∃ d, k = r + d := ⟨k - r, by omega⟩
      simp only [Nat.ofDigits_cons, mul_zero, zero_add, take_zero, Nat.ofDigits_nil, pow_zero, one_mul,
        getD_cons_zero, pow_add, mul_assoc, Nat.add_mul_mod_self_left]
  | succ whole ih =>
    cases limbs with
    | nil => simp
    | cons first rest =>
      have below := limb first (.head _)
      have tail := ih fun l listed => limb l (mem_cons_of_mem first listed)
      have exponent : k * (whole + 1) + r = k + (k * whole + r) := by ring
      have power : 2 ^ (k * (whole + 1)) = 2 ^ k * 2 ^ (k * whole) := by ring
      rw [exponent, Nat.ofDigits_cons, pow_add, add_comm first, Nat.mod_mul, Nat.mul_add_mod,
        Nat.mod_eq_of_lt below, Nat.mul_add_div (by positivity), Nat.div_eq_of_lt below, add_zero, tail, power,
        take_succ_cons, Nat.ofDigits_cons, getD_cons_succ]
      ring

end Limbs
