import Mathlib.Algebra.Order.Field.Power
import Mathlib.Tactic.NormNum
import Mathlib.Tactic.Positivity
import Mathlib.Tactic.Ring
import ScriptLang.Decimal.Binary

/-!
# A decimal rounds to one fraction

The decimals that round to a fraction are those in an interval around it (`Binary.RoundsTo`). Read
as rational numbers, the bounds of the interval are multiples of a quarter of the last place
(`Binary.roundsTo_iff`). The fractions of floating-point numbers are written in one way only
(`Binary.Canonical`), and the intervals of two of them have at most an end in common. Where they
have, one mantissa is odd, so that this end does not belong to its interval. Hence a decimal rounds
to at most one fraction (`Binary.RoundsTo.unique`).
-/

namespace ScriptLang.Decimal

/-- The number `digits · 10 ^ power`. -/
def decimalValue (digits : Nat) (power : Int) : ℚ := digits * 10 ^ power

namespace Binary

/-- The fraction is that of a finite floating-point number: its mantissa has 53 places, the first
one of which may be a zero only if the exponent is the least one. -/
structure Canonical (b : Binary) : Prop where
  mantissa_lt : b.mantissa < 2 ^ 53
  exponent_ge : -1074 ≤ b.exponent
  normal : 2 ^ 52 ≤ b.mantissa ∨ b.exponent = -1074

/-- A fourth of the last place. -/
def quarterPlace (b : Binary) : ℚ := 2 ^ (b.exponent - 2)

theorem quarterPlace_pos (b : Binary) : 0 < b.quarterPlace := by
  unfold quarterPlace
  positivity

variable {b b' : Binary} {digits digits' : Nat} {power power' : Int}

/-! ## Bounds as rational numbers -/

theorem pow_toNat {x : ℚ} (hx : x ≠ 0) (n : Int) : x ^ n.toNat = x ^ n * x ^ (-n).toNat := by
  rcases Int.le_total 0 n with hn | hn
  · have hneg : (-n).toNat = 0 := by omega
    have hpos : (n.toNat : Int) = n := by omega
    rw [hneg, pow_zero, mul_one, ← zpow_natCast, hpos]
  · have hneg : n.toNat = 0 := by omega
    have hpos : ((-n).toNat : Int) = -n := by omega
    rw [hneg, pow_zero, ← zpow_natCast, hpos, zpow_neg, mul_inv_cancel₀ (zpow_ne_zero n hx)]

theorem scale_unit_pos (b : Binary) (power : Int) : 0 < ((b.scale power).2 : ℚ) := by
  simp only [scale, Nat.pow_eq]
  positivity

/-- In the common unit, both are as they are in the rational numbers. -/
theorem scale_eq (b : Binary) (power : Int) :
    ((b.scale power).1 : ℚ) * 10 ^ power = (b.scale power).2 * b.quarterPlace := by
  have htwo : (2 : ℚ) ^ (b.exponent - 2).toNat =
      b.quarterPlace * 2 ^ (2 - b.exponent).toNat := by
    rw [pow_toNat (by norm_num) (b.exponent - 2), neg_sub]
    rfl
  have hten : (10 : ℚ) ^ power.toNat = 10 ^ power * 10 ^ (-power).toNat :=
    pow_toNat (by norm_num) power
  simp only [scale, Nat.pow_eq, Nat.cast_mul, Nat.cast_pow, Nat.cast_ofNat]
  rw [htwo, hten]
  ring

/-- A multiple of a quarter of the last place against a multiple of a power of ten, in the common
unit and as rational numbers. -/
theorem scale_le_iff (b : Binary) (power : Int) (n digits : Nat) :
    (n * (b.scale power).1 ≤ digits * (b.scale power).2 ↔
      n * b.quarterPlace ≤ decimalValue digits power) ∧
    (digits * (b.scale power).2 ≤ n * (b.scale power).1 ↔
      decimalValue digits power ≤ n * b.quarterPlace) := by
  have hten : (0 : ℚ) < 10 ^ power := by positivity
  have hunit := b.scale_unit_pos power
  have hquarter : n * ((b.scale power).1 : ℚ) * 10 ^ power =
      n * b.quarterPlace * (b.scale power).2 := by
    rw [mul_assoc, b.scale_eq power]
    ring
  have hdecimal : digits * ((b.scale power).2 : ℚ) * 10 ^ power =
      decimalValue digits power * (b.scale power).2 := by
    unfold decimalValue
    ring
  constructor
  · rw [← Nat.cast_le (α := ℚ), Nat.cast_mul, Nat.cast_mul, ← mul_le_mul_iff_left₀ hten, hquarter,
      hdecimal, mul_le_mul_iff_left₀ hunit]
  · rw [← Nat.cast_le (α := ℚ), Nat.cast_mul, Nat.cast_mul, ← mul_le_mul_iff_left₀ hten, hquarter,
      hdecimal, mul_le_mul_iff_left₀ hunit]

/-- The decimals that round to a fraction, as rational numbers. -/
theorem roundsTo_iff : b.RoundsTo digits power ↔
    if b.mantissa % 2 = 0 then
      b.bounds.1 * b.quarterPlace ≤ decimalValue digits power ∧
        decimalValue digits power ≤ b.bounds.2 * b.quarterPlace
    else
      b.bounds.1 * b.quarterPlace < decimalValue digits power ∧
        decimalValue digits power < b.bounds.2 * b.quarterPlace := by
  unfold RoundsTo
  dsimp only
  split
  · rw [(b.scale_le_iff power b.bounds.1 digits).1, (b.scale_le_iff power b.bounds.2 digits).2]
  · simp only [← not_le, (b.scale_le_iff power b.bounds.1 digits).2,
      (b.scale_le_iff power b.bounds.2 digits).1]

/-- A decimal that rounds to a fraction is between its bounds. -/
theorem RoundsTo.bounds_le (h : b.RoundsTo digits power) :
    b.bounds.1 * b.quarterPlace ≤ decimalValue digits power ∧
      decimalValue digits power ≤ b.bounds.2 * b.quarterPlace := by
  rw [roundsTo_iff] at h
  split at h
  · exact h
  · exact ⟨h.1.le, h.2.le⟩

/-- The bounds of a fraction with an odd mantissa do not round to it. -/
theorem RoundsTo.bounds_lt (h : b.RoundsTo digits power) (hodd : b.mantissa % 2 ≠ 0) :
    b.bounds.1 * b.quarterPlace < decimalValue digits power ∧
      decimalValue digits power < b.bounds.2 * b.quarterPlace := by
  rw [roundsTo_iff, if_neg hodd] at h
  exact h

/-! ## At most one fraction -/

/-- Quarters of the last place of the fraction with the greater exponent, in quarters of the last
place of the other one. -/
theorem quarterPlace_mul (he : b.exponent ≤ b'.exponent) :
    b'.quarterPlace = 2 ^ (b'.exponent - b.exponent).toNat * b.quarterPlace := by
  have hdiff : ((b'.exponent - b.exponent).toNat : Int) = b'.exponent - b.exponent := by omega
  unfold quarterPlace
  rw [← zpow_natCast, hdiff, ← zpow_add₀ (by norm_num)]
  congr 1
  omega

/-- If a decimal rounds to two fractions, the lower bound of the one with the greater exponent is
not above the upper bound of the other one, and it is below where one of the mantissas is odd. -/
theorem RoundsTo.low_le_high (h : b.RoundsTo digits power) (h' : b'.RoundsTo digits' power')
    (hvalue : decimalValue digits power = decimalValue digits' power')
    (he : b.exponent ≤ b'.exponent) :
    b'.bounds.1 * 2 ^ (b'.exponent - b.exponent).toNat ≤ b.bounds.2 ∧
      (b.mantissa % 2 ≠ 0 ∨ b'.mantissa % 2 ≠ 0 →
        b'.bounds.1 * 2 ^ (b'.exponent - b.exponent).toNat < b.bounds.2) := by
  have hpos := b.quarterPlace_pos
  have hlow := h'.bounds_le.1
  have hhigh := h.bounds_le.2
  have hscaled : (b'.bounds.1 : ℚ) * b'.quarterPlace =
      (b'.bounds.1 * 2 ^ (b'.exponent - b.exponent).toNat : Nat) * b.quarterPlace := by
    rw [quarterPlace_mul he]
    push_cast
    ring
  rw [hscaled, ← hvalue] at hlow
  constructor
  · have hle := hlow.trans hhigh
    rw [mul_le_mul_iff_left₀ hpos] at hle
    exact_mod_cast hle
  · intro hodd
    have hlt : ((b'.bounds.1 * 2 ^ (b'.exponent - b.exponent).toNat : Nat) : ℚ) * b.quarterPlace <
        b.bounds.2 * b.quarterPlace := by
      rcases hodd with hodd | hodd
      · exact hlow.trans_lt (h.bounds_lt hodd).2
      · have hstrict := (h'.bounds_lt hodd).1
        rw [hscaled, ← hvalue] at hstrict
        exact hstrict.trans_le hhigh
    rw [mul_lt_mul_iff_left₀ hpos] at hlt
    exact_mod_cast hlt

/-- Of fractions that a decimal rounds to, none has a greater exponent than another. -/
theorem RoundsTo.exponent_le (hb : b.Canonical) (hb' : b'.Canonical) (h : b.RoundsTo digits power)
    (h' : b'.RoundsTo digits' power')
    (hvalue : decimalValue digits power = decimalValue digits' power') :
    b'.exponent ≤ b.exponent := by
  by_contra hlt
  obtain ⟨hle, hstrict⟩ := h.low_le_high h' hvalue (by omega)
  have hlow : 2 ^ 54 - 1 ≤ b'.bounds.1 := by
    have hnormal := hb'.normal
    have hleast := hb.exponent_ge
    simp only [bounds, Nat.pow_eq]
    split <;> omega
  have htwo : 2 ≤ 2 ^ (b'.exponent - b.exponent).toNat :=
    Nat.le_self_pow (by omega) 2
  -- The greatest fraction with one exponent reaches up to the least one with the next exponent, and
  -- its mantissa is odd.
  have hreach : (2 ^ 54 - 1) * 2 ≤ b'.bounds.1 * 2 ^ (b'.exponent - b.exponent).toNat :=
    Nat.mul_le_mul hlow htwo
  have hmantissa := hb.mantissa_lt
  have hhigh : b.bounds.2 = 4 * b.mantissa + 2 := rfl
  by_cases hodd : b.mantissa % 2 = 0
  · omega
  · have := hstrict (.inl hodd)
    omega

/-- Of fractions with one exponent that a decimal rounds to, none has a greater mantissa than
another. -/
theorem RoundsTo.mantissa_le (h : b.RoundsTo digits power) (h' : b'.RoundsTo digits' power')
    (hvalue : decimalValue digits power = decimalValue digits' power')
    (he : b.exponent = b'.exponent) : b'.mantissa ≤ b.mantissa := by
  by_contra hlt
  obtain ⟨hle, hstrict⟩ := h.low_le_high h' hvalue he.le
  have hone : 2 ^ (b'.exponent - b.exponent).toNat = 1 := by
    have hzero : (b'.exponent - b.exponent).toNat = 0 := by omega
    rw [hzero, pow_zero]
  rw [hone, Nat.mul_one] at hle hstrict
  have hlow : 4 * b'.mantissa - 2 ≤ b'.bounds.1 := by
    simp only [bounds]
    split <;> omega
  have hhigh : b.bounds.2 = 4 * b.mantissa + 2 := rfl
  -- Of two mantissas in a row, one is odd.
  have hodd : b.mantissa % 2 ≠ 0 ∨ b'.mantissa % 2 ≠ 0 := by omega
  have := hstrict hodd
  omega

/-- **A decimal rounds to at most one fraction.** -/
theorem RoundsTo.unique (hb : b.Canonical) (hb' : b'.Canonical) (h : b.RoundsTo digits power)
    (h' : b'.RoundsTo digits' power')
    (hvalue : decimalValue digits power = decimalValue digits' power') : b = b' := by
  have hexponent : b.exponent = b'.exponent :=
    le_antisymm (h'.exponent_le hb' hb h hvalue.symm) (h.exponent_le hb hb' h' hvalue)
  have hmantissa : b.mantissa = b'.mantissa :=
    le_antisymm (h'.mantissa_le h hvalue.symm hexponent.symm) (h.mantissa_le h' hvalue hexponent)
  obtain ⟨mantissa, exponent⟩ := b
  cases hexponent
  cases hmantissa
  rfl

end Binary

end ScriptLang.Decimal
