import ScriptLang.Decimal.Shortest
import ScriptLang.Proofs.Decimal.Rounding

/-!
# The search for the shortest decimal

What the search tries and takes rounds to the fraction (`Binary.nearest_roundsTo`). It does take
something: at the least power that it comes to, the fraction is a multiple of the power itself
(`Binary.nearest_exact`), and the power where it begins is not below that one
(`Binary.min_le_topPower`). So the decimal that is found rounds to the fraction
(`Binary.roundsTo_shortest`).
-/

namespace ScriptLang.Decimal.Binary

variable {b : Binary} {digits : Nat} {power : Int}

/-- A multiple that is taken rounds to the fraction. -/
theorem nearest_roundsTo (h : b.nearest power = some digits) : b.RoundsTo digits power := by
  unfold nearest at h
  dsimp only at h
  split at h
  · rename_i hbelow
    split at h
    · rename_i habove
      cases h
      exact habove.1
    · cases h
      exact hbelow
  · split at h
    · rename_i habove
      cases h
      exact habove
    · cases h

/-- The fraction itself rounds to it. -/
theorem roundsTo_of_eq (h : digits * (b.scale power).2 = 4 * b.mantissa * (b.scale power).1)
    (hzero : b.mantissa ≠ 0) : b.RoundsTo digits power := by
  have hquarter : 0 < (b.scale power).1 := by
    simp only [scale, Nat.pow_eq]
    positivity
  have hlow : b.bounds.1 < 4 * b.mantissa := by
    simp only [bounds]
    split <;> omega
  have hhigh : 4 * b.mantissa < b.bounds.2 := Nat.lt_add_of_pos_right (by decide)
  have hlow' := Nat.mul_lt_mul_of_pos_right hlow hquarter
  have hhigh' := Nat.mul_lt_mul_of_pos_right hhigh hquarter
  unfold RoundsTo
  dsimp only
  rw [h]
  split
  · exact ⟨hlow'.le, hhigh'.le⟩
  · exact ⟨hlow', hhigh'⟩

/-- The fraction is a multiple of the least power that is tried. -/
theorem scale_dvd (b : Binary) :
    (b.scale (min b.exponent 0)).2 ∣ 4 * b.mantissa * (b.scale (min b.exponent 0)).1 := by
  have hwhole : (min b.exponent 0).toNat = 0 := by omega
  have hplaces : (2 - b.exponent).toNat ≤ 2 + (-min b.exponent 0).toNat := by omega
  have hunit : (b.scale (min b.exponent 0)).2 = 2 ^ (2 - b.exponent).toNat := by
    simp only [scale, Nat.pow_eq]
    rw [hwhole, pow_zero, Nat.mul_one]
  have hten : 2 ^ (-min b.exponent 0).toNat ∣ 10 ^ (-min b.exponent 0).toNat :=
    pow_dvd_pow_of_dvd (by decide) _
  have hquarter : 10 ^ (-min b.exponent 0).toNat ∣ b.mantissa * (b.scale (min b.exponent 0)).1 :=
    Nat.dvd_mul_left_of_dvd (Nat.dvd_mul_left ..) b.mantissa
  calc (b.scale (min b.exponent 0)).2
      = 2 ^ (2 - b.exponent).toNat := hunit
    _ ∣ 2 ^ (2 + (-min b.exponent 0).toNat) := pow_dvd_pow 2 hplaces
    _ = 4 * 2 ^ (-min b.exponent 0).toNat := pow_add 2 2 _
    _ ∣ 4 * (b.mantissa * (b.scale (min b.exponent 0)).1) :=
      Nat.mul_dvd_mul_left 4 (hten.trans hquarter)
    _ = 4 * b.mantissa * (b.scale (min b.exponent 0)).1 := (Nat.mul_assoc ..).symm

/-- Something is taken at the least power that is tried. -/
theorem nearest_exact (hzero : b.mantissa ≠ 0) :
    ∃ digits, b.nearest (min b.exponent 0) = some digits := by
  have hround : b.RoundsTo (4 * b.mantissa * (b.scale (min b.exponent 0)).1 /
      (b.scale (min b.exponent 0)).2) (min b.exponent 0) :=
    roundsTo_of_eq (Nat.div_mul_cancel b.scale_dvd) hzero
  unfold nearest
  dsimp only
  rw [if_pos hround]
  split
  · exact ⟨_, rfl⟩
  · exact ⟨_, rfl⟩

/-- If something is taken at one of the powers that are tried, the search ends with what rounds to
the fraction. -/
theorem shortestFrom_roundsTo {fuel : Nat} {top : Int} (hle : power ≤ top)
    (hfuel : top < power + fuel) (h : ∃ digits, b.nearest power = some digits) :
    b.RoundsTo (b.shortestFrom fuel top).digits (b.shortestFrom fuel top).power := by
  induction fuel generalizing top with
  | zero => omega
  | succ fuel ih =>
    unfold shortestFrom
    cases hnearest : b.nearest top with
    | some digits => exact nearest_roundsTo hnearest
    | none =>
      have hne : power ≠ top := by
        rintro rfl
        obtain ⟨digits, hdigits⟩ := h
        cases hdigits.symm.trans hnearest
      exact ih (by omega) (by omega)

/-- The search does not begin below the least power. -/
theorem min_le_topPower (b : Binary) : min b.exponent 0 ≤ b.topPower := by
  unfold topPower
  omega

/-- **The decimal that is found rounds to the fraction.** -/
theorem roundsTo_shortest (b : Binary) : b.RoundsTo b.shortest.digits b.shortest.power := by
  unfold shortest
  split
  · rename_i hzero
    have hlow : b.bounds.1 = 0 := by
      simp only [bounds, hzero]
      omega
    unfold RoundsTo
    simp [hzero, hlow]
  · rename_i hzero
    have htop := b.min_le_topPower
    exact shortestFrom_roundsTo htop (by omega) (nearest_exact hzero)

end ScriptLang.Decimal.Binary
