import Mathlib.Logic.Basic
import ScriptLang.Proofs.Decimal.Rounding

/-!
# The fractions of floating-point numbers

A floating-point number is finite if its exponent bits are not all set (`isFinite_iff`), and then
it is a fraction with a sign. The fraction is a canonical one (`Parts.of_isFinite`), and the number
is the only one with these parts (`Parts.of_injective`). So both zeros have parts of their own.
-/

namespace ScriptLang.Decimal

/-! ## Bits -/

open Float.Model in
theorem exponentBits_eq (x : Float) :
    (@UnpackedFloat.unpackExponent Format.binary64 x.toBits.toBitVec).toNat =
      x.toBits.toNat / 2 ^ 52 % 2 ^ 11 := by
  simp [UnpackedFloat.unpackExponent, Nat.shiftRight_eq_div_pow]

/-- A number is finite if its exponent is not the greatest one. -/
theorem isFinite_iff (x : Float) :
    x.isFinite = true ↔ x.toBits.toNat / 2 ^ 52 % 2 ^ 11 ≠ 2047 := by
  open Float.Model in
  have hfinite : x.isFinite = true ↔
      @UnpackedFloat.unpackExponent Format.binary64 x.toBits.toBitVec ≠ -1#11 := by
    change (UnpackedFloat.unpack Format.binary64 x.toBits.toBitVec).isFinite = true ↔ _
    unfold UnpackedFloat.unpack
    dsimp only
    by_cases hgreatest : @UnpackedFloat.unpackExponent Format.binary64 x.toBits.toBitVec = -1#11
    · rw [if_pos hgreatest]
      refine iff_of_false ?_ (not_not_intro hgreatest)
      by_cases hinfinite : @UnpackedFloat.unpackMantissa Format.binary64 x.toBits.toBitVec = 0#52
      · rw [if_pos hinfinite]
        exact Bool.false_ne_true
      · rw [if_neg hinfinite]
        exact Bool.false_ne_true
    · rw [if_neg hgreatest]
      refine iff_of_true ?_ hgreatest
      by_cases hleast : @UnpackedFloat.unpackExponent Format.binary64 x.toBits.toBitVec = 0#11
      · rw [if_pos hleast]
        by_cases hzero : @UnpackedFloat.unpackMantissa Format.binary64 x.toBits.toBitVec = 0#52
        · rw [dif_pos hzero]
          rfl
        · rw [dif_neg hzero]
          rfl
      · rw [if_neg hleast]
        rfl
  rw [hfinite, ← exponentBits_eq, ne_eq, ← BitVec.toNat_inj]
  rfl

theorem eq_of_toBits {x y : Float} (h : x.toBits.toNat = y.toBits.toNat) : x = y := by
  obtain ⟨⟨bits, hbits⟩⟩ := x
  obtain ⟨⟨bits', hbits'⟩⟩ := y
  have heq : bits = bits' := UInt64.toNat_inj.mp h
  cases heq
  rfl

/-! ## Parts -/

namespace Parts

variable {x y : Float} {negative : Bool} {b : Binary}

/-- What the parts of a finite number say about its bits. -/
theorem of_eq_finite (h : of x = .finite negative b) :
    (x.toBits.toNat / 2 ^ 63 % 2 = 1 ↔ negative = true) ∧
      (x.toBits.toNat / 2 ^ 52 % 2 ^ 11 = 0 ∧ b = ⟨x.toBits.toNat % 2 ^ 52, -1074⟩ ∨
        x.toBits.toNat / 2 ^ 52 % 2 ^ 11 ≠ 0 ∧
          b = ⟨2 ^ 52 + x.toBits.toNat % 2 ^ 52,
            (x.toBits.toNat / 2 ^ 52 % 2 ^ 11 : Nat) - 1075⟩) := by
  unfold of at h
  simp only [Nat.pow_eq] at h
  split at h
  · split at h <;> cases h
  · split at h
    · rename_i hzero
      cases h
      exact ⟨by simp, .inl ⟨hzero, rfl⟩⟩
    · rename_i hzero
      cases h
      exact ⟨by simp, .inr ⟨hzero, rfl⟩⟩

/-- A finite number is a canonical fraction with a sign. -/
theorem of_isFinite (h : x.isFinite = true) :
    ∃ negative b, of x = .finite negative b ∧ b.Canonical := by
  rw [isFinite_iff] at h
  have hexponent : x.toBits.toNat / 2 ^ 52 % 2 ^ 11 < 2 ^ 11 := Nat.mod_lt _ (by decide)
  have hfraction : x.toBits.toNat % 2 ^ 52 < 2 ^ 52 := Nat.mod_lt _ (by decide)
  have hparts : ∃ negative b, of x = .finite negative b := by
    unfold of
    simp only [Nat.pow_eq]
    rw [if_neg h]
    split <;> exact ⟨_, _, rfl⟩
  obtain ⟨negative, b, hb⟩ := hparts
  refine ⟨negative, b, hb, ?_⟩
  obtain ⟨-, ⟨-, rfl⟩ | ⟨hzero, rfl⟩⟩ := of_eq_finite hb
  · exact ⟨by dsimp only; omega, Int.le_refl _, .inr rfl⟩
  · exact ⟨by dsimp only; omega, by dsimp only; omega, .inl (Nat.le_add_right ..)⟩

/-- No two finite numbers have the same parts. -/
theorem of_injective (hx : of x = .finite negative b) (hy : of y = .finite negative b) : x = y := by
  have hlt := x.toBits.toNat_lt
  have hlt' := y.toBits.toNat_lt
  obtain ⟨hsign, hvalue⟩ := of_eq_finite hx
  obtain ⟨hsign', hvalue'⟩ := of_eq_finite hy
  rw [← hsign'] at hsign
  apply eq_of_toBits
  rcases hvalue with ⟨hzero, rfl⟩ | ⟨hzero, rfl⟩
  · rcases hvalue' with ⟨hzero', heq⟩ | ⟨hzero', heq⟩
    · have hfraction := congrArg Binary.mantissa heq
      dsimp only at hfraction
      omega
    · have hfraction := congrArg Binary.mantissa heq
      dsimp only at hfraction
      omega
  · rcases hvalue' with ⟨hzero', heq⟩ | ⟨hzero', heq⟩
    · have hfraction := congrArg Binary.mantissa heq
      dsimp only at hfraction
      omega
    · have hfraction := congrArg Binary.mantissa heq
      have hexponent := congrArg Binary.exponent heq
      dsimp only at hfraction hexponent
      omega

end Parts

end ScriptLang.Decimal
