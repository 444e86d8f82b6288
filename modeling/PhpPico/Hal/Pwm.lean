import Mathlib.Data.Nat.Basic

/-!
# Pulse width modulation on the RP2040

`hal_pwm_init` computes a clock divider in sixteenths and the number of steps of the counter; levels are shares of
these. The quotient lacks the factor sixteen, so that for most low frequencies the counter would need more steps than
it has.
-/

namespace PhpPico.Pwm

/-! ## The code -/

/-- Arithmetic on `uint32_t`. -/
def u32 (n : Nat) : Nat := n % 4294967296

/-- What is written to the slice of a pin. -/
structure Setting where
  divider16 : Nat
  top : Nat
  deriving DecidableEq

/-- `divider16` in `hal_pwm_init`, after its two clamps. -/
def divider16 (clock hz : Nat) : Nat :=
  min 4095 (max 16 (u32 (u32 (clock + u32 (hz * 65535)) + 4294967295) / u32 (hz * 65535)))

/-- `wrap` in `hal_pwm_init`, after its two clamps; the quotient has 64 bits. -/
def counterWrap (clock hz : Nat) : Nat := min 65535 (max 1 (u32 (clock * 16 / (hz * divider16 clock hz))))

/-- `hal_pwm_init`, nothing where it is `PPHP_HAL_INVALID`; the top is kept in `pwm_wraps[pin]` too. -/
def halPwmInit (clock pin hz : Nat) : Option Setting :=
  if 30 ≤ pin ∨ hz = 0 then none else some ⟨divider16 clock hz, counterWrap clock hz - 1⟩

/-- `hal_pwm_set_duty_u16`, with the level that it writes. -/
def halPwmSetDutyU16 (wraps pin duty : Nat) : Option Nat :=
  if 30 ≤ pin then none else some (u32 ((wraps + 1) * duty) / 65535 % 65536)

/-- `hal_pwm_set_period_us`. -/
def halPwmSetPeriodUs (clock pin us pulse : Nat) : Option (Setting × Nat) :=
  if 30 ≤ pin ∨ us = 0 ∨ us < pulse then none
  else (halPwmInit clock pin (1000000 / us)).map fun s => (s, u32 ((s.top + 1) * pulse) / us % 65536)

/-- What `pwm_wraps[pin]` can hold: zero, until `hal_pwm_init` sets it. -/
inductive PwmWraps (pin : Nat) : Nat → Prop
  | initial : PwmWraps pin 0
  | set (clock hz : Nat) (s : Setting) (called : halPwmInit clock pin hz = some s) : PwmWraps pin s.top

/-- A call of one of the functions. -/
inductive Call where
  | init (hz : UInt32)
  | duty (duty : UInt16)
  | period (us pulse : UInt32)

/-! ## What the calls are for -/

/-- The counter of a slice can take this number of steps, with a divider that the hardware has. -/
def Reachable (clock hz : Nat) : Prop :=
  ∃ divider, 16 ≤ divider ∧ divider ≤ 4095 ∧ 1 ≤ clock * 16 / (hz * divider) ∧ clock * 16 / (hz * divider) ≤ 65536

/-- A setting that is right for a frequency, and computed without a wrap-around. -/
structure Setting.Right (clock hz : Nat) (s : Setting) : Prop where
  exact : hz * 65535 < 4294967296 ∧ clock + hz * 65535 < 4294967296
  clamped : s.top + 1 ≠ clock * 16 / (hz * s.divider16) → ¬ Reachable clock hz
  near : s.top + 1 = clock * 16 / (hz * s.divider16) →
    hz * (s.divider16 * (s.top + 1)) ≤ 16 * clock ∧ 16 * clock < hz * (s.divider16 * (s.top + 2))

/-- A level that is the share `part / whole` of the steps, to within one step. -/
structure LevelRight (steps part whole level : Nat) : Prop where
  exact : steps * part < 4294967296
  low : level * whole ≤ steps * part
  high : steps * part < (level + 1) * whole

/-- A call does what it should. -/
def Call.Right (clock : UInt32) (wraps pin : Nat) : Call → Prop
  | .init hz => ∃ s, halPwmInit clock.toNat pin hz.toNat = some s ∧ s.Right clock.toNat hz.toNat
  | .duty share => ∃ level, halPwmSetDutyU16 wraps pin share.toNat = some level ∧
      LevelRight (wraps + 1) share.toNat 65535 level
  | .period us pulse => ∃ s level, halPwmSetPeriodUs clock.toNat pin us.toNat pulse.toNat = some (s, level) ∧
      s.Right clock.toNat (1000000 / us.toNat) ∧ LevelRight (s.top + 1) pulse.toNat us.toNat level

/-- A call that the functions accept. -/
def Call.Accepted : Call → Prop
  | .init hz => 0 < hz.toNat
  | .duty _ => True
  | .period us pulse => 0 < us.toNat ∧ us.toNat ≤ 1000000 ∧ pulse.toNat ≤ us.toNat

/-- The frequencies that `hal_pwm_init` gets right: no sum wraps around, and the divider one is enough or the
largest one is not. -/
def Fits (clock hz : Nat) : Prop :=
  clock + hz * 65535 < 4294967296 ∧ (clock < 65536 * hz ∨ 65537 * (4095 * hz) ≤ 16 * clock)

/-- The calls that do what they should. -/
def Call.Fits (clock : UInt32) : Call → Prop
  | .init hz => Pwm.Fits clock.toNat hz.toNat
  | .duty _ => True
  | .period us pulse => Pwm.Fits clock.toNat (1000000 / us.toNat) ∧
      (if clock.toNat < 65536 * (1000000 / us.toNat) then max 1 (clock.toNat / (1000000 / us.toNat)) else 65535) *
        pulse.toNat < 4294967296

/-! ## The frequency -/

variable {clock hz : Nat}

theorem u32_of_lt {n : Nat} (lt : n < 4294967296) : u32 n = n := Nat.mod_eq_of_lt lt

theorem counterWrap_pos (clock hz : Nat) : 1 ≤ counterWrap clock hz ∧ counterWrap clock hz ≤ 65535 := by
  unfold counterWrap
  omega

theorem divider16_bounds (clock hz : Nat) : 16 ≤ divider16 clock hz ∧ divider16 clock hz ≤ 4095 := by
  unfold divider16
  omega

/-- Without a wrap-around the divider is the least one for counters of 65535 steps of sixteenths. -/
theorem divider16_eq (pos : 0 < hz) (exact : clock + hz * 65535 < 4294967296) :
    divider16 clock hz = min 4095 (max 16 ((clock + (hz * 65535 - 1)) / (hz * 65535))) := by
  have less : u32 (u32 (clock + u32 (hz * 65535)) + 4294967295) = clock + (hz * 65535 - 1) := by
    simp only [u32]
    omega
  rw [divider16, less, u32_of_lt (show hz * 65535 < 4294967296 by omega)]

theorem quotient_lt (pos : 0 < hz) (small : clock < 4294967296) {divider : Nat} (large : 16 ≤ divider) :
    clock * 16 / (hz * divider) < 4294967296 := by
  have le : 1 * 16 ≤ hz * divider := Nat.mul_le_mul pos large
  have le' : clock * 16 / (hz * divider) ≤ clock * 16 / 16 := Nat.div_le_div_left le (by decide)
  omega

theorem counterWrap_high (pos : 0 < hz) (exact : clock + hz * 65535 < 4294967296) (high : clock < 65536 * hz) :
    divider16 clock hz = 16 ∧ counterWrap clock hz = max 1 (clock / hz) := by
  have least : divider16 clock hz = 16 := by
    rw [divider16_eq pos exact]
    have few : (clock + (hz * 65535 - 1)) / (hz * 65535) < 17 := Nat.div_lt_of_lt_mul (by omega)
    omega
  have steps : clock / hz < 65536 := Nat.div_lt_of_lt_mul (by omega)
  have small : u32 (clock * 16 / (hz * 16)) = clock / hz := by
    rw [Nat.mul_div_mul_right _ _ (by decide), u32_of_lt (by omega)]
  refine ⟨least, ?_⟩
  rw [counterWrap, least, small]
  omega

theorem counterWrap_low (pos : 0 < hz) (exact : clock + hz * 65535 < 4294967296) (low : 65536 * hz ≤ clock) :
    counterWrap clock hz = 65535 ∧ 65536 ≤ clock * 16 / (hz * divider16 clock hz) := by
  have bounds := divider16_bounds clock hz
  have many : 65536 * (hz * divider16 clock hz) ≤ clock * 16 := by
    by_cases least : divider16 clock hz = 16
    · rw [least]
      omega
    · have rounded := Nat.div_mul_le_self (clock + (hz * 65535 - 1)) (hz * 65535)
      have up : divider16 clock hz ≤ (clock + (hz * 65535 - 1)) / (hz * 65535) := by
        have eq := divider16_eq pos exact
        omega
      have le := Nat.le_trans (Nat.mul_le_mul_right (hz * 65535) up) rounded
      have more : hz * 17 ≤ hz * divider16 clock hz := Nat.mul_le_mul_left hz (by omega)
      rw [show divider16 clock hz * (hz * 65535) = hz * divider16 clock hz * 65535 by
        rw [← Nat.mul_assoc, Nat.mul_comm (divider16 clock hz)]] at le
      omega
  have steps : 65536 ≤ clock * 16 / (hz * divider16 clock hz) :=
    (Nat.le_div_iff_mul_le (Nat.mul_pos pos (by omega))).mpr many
  refine ⟨?_, steps⟩
  have small := quotient_lt pos (show clock < 4294967296 by omega) bounds.1
  rw [counterWrap, u32_of_lt small]
  omega

/-- Some divider is enough exactly if the largest one is. -/
theorem reachable_iff (pos : 0 < hz) (low : 65536 * hz ≤ clock) :
    Reachable clock hz ↔ ¬ 65537 * (4095 * hz) ≤ 16 * clock := by
  have steps : ∀ divider, 16 ≤ divider →
      (clock * 16 / (hz * divider) ≤ 65536 ↔ clock * 16 < 65537 * (hz * divider)) := by
    intro divider large
    rw [← Nat.lt_succ_iff]
    exact Nat.div_lt_iff_lt_mul (Nat.mul_pos pos (by omega))
  constructor
  · rintro ⟨divider, large, small, -, few⟩
    have lt := (steps divider large).mp few
    have le : hz * divider ≤ hz * 4095 := Nat.mul_le_mul_left hz small
    omega
  · intro enough
    refine ⟨4095, by decide, by decide, ?_, (steps 4095 (by decide)).mpr (by omega)⟩
    exact (Nat.le_div_iff_mul_le (by omega)).mpr (by omega)

/-- **The frequencies that are right** are those that fit. -/
theorem right_iff (pos : 0 < hz) :
    (⟨divider16 clock hz, counterWrap clock hz - 1⟩ : Setting).Right clock hz ↔ Fits clock hz := by
  have wrap := counterWrap_pos clock hz
  constructor
  · intro right
    refine ⟨right.exact.2, or_iff_not_imp_left.mpr fun high => ?_⟩
    obtain ⟨most, more⟩ := counterWrap_low pos right.exact.2 (Nat.not_lt.mp high)
    have clamped := right.clamped (by dsimp only; omega)
    exact not_not.mp (mt (reachable_iff pos (Nat.not_lt.mp high)).mpr clamped)
  · rintro ⟨exact, fits⟩
    refine ⟨⟨by omega, exact⟩, fun clamped => ?_, fun same => ?_⟩
    · by_cases high : clock < 65536 * hz
      · obtain ⟨least, steps⟩ := counterWrap_high pos exact high
        dsimp only at clamped
        rw [least, steps, Nat.mul_div_mul_right _ _ (by decide)] at clamped
        have none_left : clock < hz := by
          by_contra some_left
          have one := Nat.div_pos (Nat.not_lt.mp some_left) pos
          omega
        rintro ⟨divider, large, -, one, -⟩
        have le := (Nat.le_div_iff_mul_le (Nat.mul_pos pos (by omega))).mp one
        have more : hz * 16 ≤ hz * divider := Nat.mul_le_mul_left hz large
        omega
      · exact fun reachable => (reachable_iff pos (Nat.not_lt.mp high)).mp reachable (fits.resolve_left high)
    · dsimp only at same ⊢
      have divider := divider16_bounds clock hz
      have product : 0 < hz * divider16 clock hz := Nat.mul_pos pos (by omega)
      have more : counterWrap clock hz - 1 + 2 = counterWrap clock hz - 1 + 1 + 1 := rfl
      rw [← Nat.mul_assoc, ← Nat.mul_assoc, more, same, Nat.mul_comm 16 clock]
      exact ⟨Nat.mul_div_le _ _, Nat.lt_mul_div_succ _ product⟩

/-! ## The levels -/

/-- A share of at most the whole is right if the product does not wrap around. -/
theorem levelRight_iff {steps part whole : Nat} (pos : 0 < whole) (le : part ≤ whole) (few : steps ≤ 65535) :
    LevelRight steps part whole (u32 (steps * part) / whole % 65536) ↔ steps * part < 4294967296 := by
  refine ⟨fun right => right.exact, fun exact => ?_⟩
  have share : steps * part / whole ≤ steps :=
    Nat.div_le_of_le_mul (by rw [Nat.mul_comm whole]; exact Nat.mul_le_mul_left steps le)
  rw [u32_of_lt exact, Nat.mod_eq_of_lt (by omega)]
  refine ⟨exact, Nat.div_mul_le_self _ _, ?_⟩
  rw [Nat.mul_comm _ whole]
  exact Nat.lt_mul_div_succ _ pos

theorem PwmWraps.le {pin wraps : Nat} (held : PwmWraps pin wraps) : wraps ≤ 65534 := by
  cases held with
  | initial => decide
  | set clock hz s called =>
    have wrap := counterWrap_pos clock hz
    unfold halPwmInit at called
    split at called
    · cases called
    · cases called
      dsimp only
      omega

end PhpPico.Pwm
