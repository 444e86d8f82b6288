import Mathlib.Algebra.Order.Ring.Int
import Mathlib.Tactic.Ring
import Mathlib.Tactic.Common

/-!
# Numbers in a memory of bytes

A memory gives each address a byte. Numbers are stored low byte first; a store changes nothing outside its own bytes,
and a load sees nothing outside its own.
-/

namespace ByteMemory

/-- A byte for each address. -/
abbrev Mem := Nat → UInt8

/-- The number in the `n` bytes at an address. -/
def load : Nat → Mem → Nat → Nat
  | 0, _, _ => 0
  | n + 1, m, a => (m a).toNat + 256 * load n m (a + 1)

/-- Put a number into the `n` bytes at an address. -/
def store : Nat → Mem → Nat → Nat → Mem
  | 0, m, _, _ => m
  | n + 1, m, a, v => fun x => if x = a then UInt8.ofNat v else store n m (a + 1) (v / 256) x

variable {m m' : Mem} {n k a b v x : Nat}

theorem store_of_outside (h : x < a ∨ a + n ≤ x) : store n m a v x = m x := by
  induction n generalizing a v with
  | zero => rfl
  | succ n ih =>
    have ne : x ≠ a := by omega
    exact (if_neg ne).trans (ih (by omega))

theorem load_congr (same : ∀ x, a ≤ x → x < a + n → m x = m' x) : load n m a = load n m' a := by
  induction n generalizing a with
  | zero => rfl
  | succ n ih =>
    rw [load, load, same a (le_refl _) (by omega), ih]
    intro x lo hi
    exact same x (by omega) (by omega)

theorem load_store_of_disjoint (h : a + n ≤ b ∨ b + k ≤ a) : load k (store n m a v) b = load k m b := by
  apply load_congr
  intro x lo hi
  exact store_of_outside (by omega)

/-- **A load sees the number just stored**, as far as it fits. -/
theorem load_store : load n (store n m a v) a = v % 256 ^ n := by
  induction n generalizing a v with
  | zero => rw [load, Nat.pow_zero, Nat.mod_one]
  | succ n ih =>
    have rest : load n (store (n + 1) m a v) (a + 1) = v / 256 % 256 ^ n := by
      rw [← ih (a := a + 1) (v := v / 256)]
      apply load_congr
      intro x lo _
      exact if_neg (by omega)
    have first : (store (n + 1) m a v a).toNat = v % 256 := by
      have at_a : store (n + 1) m a v a = UInt8.ofNat v := if_pos rfl
      rw [at_a]
      exact UInt8.toNat_ofNat'
    rw [load, first, rest, pow_succ, mul_comm (256 ^ n), Nat.mod_mul]

theorem store_zero (inside : a ≤ x ∧ x < a + n) : store n m a 0 x = 0 := by
  induction n generalizing a with
  | zero => omega
  | succ n ih =>
    unfold store
    split
    · rfl
    · exact ih (by omega)

theorem load_zero (zero : ∀ x, a ≤ x → x < a + n → m x = 0) : load n m a = 0 := by
  induction n generalizing a with
  | zero => rfl
  | succ n ih =>
    rw [load, zero a (le_refl _) (by omega), ih fun x lo hi => zero x (by omega) (by omega)]
    rfl

theorem load_lt : load n m a < 256 ^ n := by
  induction n generalizing a with
  | zero => exact Nat.one_pos
  | succ n ih =>
    have byte := (m a).toNat_lt
    have rest := ih (a := a + 1)
    rw [load, pow_succ]
    omega

/-! ## Copying -/

/-- `memcpy` of `n` bytes from `src` to `dst`. -/
def copy (m : Mem) (dst src n : Nat) : Mem :=
  fun x => if dst ≤ x ∧ x < dst + n then m (src + (x - dst)) else m x

theorem copy_of_outside {dst src : Nat} (h : x < dst ∨ dst + n ≤ x) : copy m dst src n x = m x :=
  if_neg (by omega)

theorem copy_inside {dst src i : Nat} (h : i < n) : copy m dst src n (dst + i) = m (src + i) := by
  unfold copy
  rw [if_pos (by omega), Nat.add_sub_cancel_left]

end ByteMemory
