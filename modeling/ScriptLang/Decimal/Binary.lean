/-!
# Floating-point numbers as fractions

A floating-point number is a signed zero or fraction `mantissa · 2 ^ exponent`, an
infinity, or no number. `Parts.of` reads this off its bits. The reals that round to a
fraction form an interval around it (`Binary.RoundsTo`), whose ends belong to it exactly
when the mantissa is even.
-/

namespace ScriptLang.Decimal

/-- The fraction `mantissa · 2 ^ exponent`. -/
structure Binary where
  mantissa : Nat
  exponent : Int
  deriving DecidableEq

/-- The value of a floating-point number. -/
inductive Parts
  | nan
  | infinite (negative : Bool)
  | finite (negative : Bool) (value : Binary)
  deriving DecidableEq

/-- The value of a floating-point number, from its sign bit, its eleven exponent bits and
its fifty-two fraction bits. The least exponent has no hidden bit. -/
def Parts.of (x : Float) : Parts :=
  let bits : Nat := x.toBits.toNat
  let negative := bits / Nat.pow 2 63 % 2 = 1
  let exponent : Nat := bits / Nat.pow 2 52 % Nat.pow 2 11
  let fraction : Nat := bits % Nat.pow 2 52
  if exponent = 2047 then
    if fraction = 0 then .infinite negative else .nan
  else if exponent = 0 then
    .finite negative ⟨fraction, -1074⟩
  else
    .finite negative ⟨Nat.pow 2 52 + fraction, (exponent : Int) - 1075⟩

namespace Binary

/-- The least and the greatest real that round to `b`, in quarters of its last place. The
neighbour below a power of two is only half as far away as the one above. -/
def bounds (b : Binary) : Nat × Nat :=
  (4 * b.mantissa - (if b.mantissa = Nat.pow 2 52 ∧ b.exponent > -1074 then 1 else 2),
    4 * b.mantissa + 2)

/-- The common unit in which a quarter of the last place of `b` and the power
`10 ^ power` are both whole: how many units the quarter has, and how many the power. -/
def scale (b : Binary) (power : Int) : Nat × Nat :=
  (Nat.pow 2 (b.exponent - 2).toNat * Nat.pow 10 (-power).toNat,
    Nat.pow 2 (2 - b.exponent).toNat * Nat.pow 10 power.toNat)

/-- Whether `digits · 10 ^ power` rounds to `b`. -/
def RoundsTo (b : Binary) (digits : Nat) (power : Int) : Prop :=
  let (low, high) := b.bounds
  let (quarter, unit) := b.scale power
  if b.mantissa % 2 = 0 then
    low * quarter ≤ digits * unit ∧ digits * unit ≤ high * quarter
  else
    low * quarter < digits * unit ∧ digits * unit < high * quarter

instance (b : Binary) (digits : Nat) (power : Int) : Decidable (b.RoundsTo digits power) := by
  unfold RoundsTo
  split
  split
  infer_instance

end Binary

end ScriptLang.Decimal
