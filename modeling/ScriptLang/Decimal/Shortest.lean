import ScriptLang.Decimal.Binary

/-!
# Shortest decimals

The shortest decimal that rounds to a floating-point number is a multiple of the greatest
power of ten that has such a multiple. `Binary.shortest` looks for that power from above:
of the multiples of one power only the two next to the number need to be tried
(`Binary.nearest`), for if any multiple rounds to the number, so does one of these. Of two
that do, the nearer is taken, and the greater where both are equally near.
-/

namespace ScriptLang.Decimal

/-- The decimal `digits · 10 ^ power`. -/
structure Scientific where
  digits : Nat
  power : Int
  deriving DecidableEq

namespace Binary

/-- The multiple of `10 ^ power` nearest to `b` among those that round to it. -/
def nearest (b : Binary) (power : Int) : Option Nat :=
  let (quarter, unit) := b.scale power
  let value := 4 * b.mantissa * quarter
  let below := value / unit
  if b.RoundsTo below power then
    if b.RoundsTo (below + 1) power ∧ unit ≤ 2 * (value - below * unit) then
      some (below + 1)
    else
      some below
  else if b.RoundsTo (below + 1) power then
    some (below + 1)
  else
    none

/-- The first of the powers `power`, `power - 1`, … with a multiple that rounds to `b`; at
most `fuel` powers are tried. -/
def shortestFrom (b : Binary) : Nat → Int → Scientific
  | 0, power => ⟨0, power⟩
  | fuel + 1, power =>
    match b.nearest power with
    | some digits => ⟨digits, power⟩
    | none => b.shortestFrom fuel (power - 1)

/-- A power of ten above which no power has a multiple that rounds to `b`. It is close to
the number's own order of magnitude, as `30103 / 100000` is close to the decimal logarithm
of two. -/
def topPower (b : Binary) : Int :=
  ((b.mantissa.log2 : Int) + 1 + b.exponent) * 30103 / 100000 + 1

/-- The shortest decimal that rounds to `b`. The power `10 ^ b.exponent` is fine enough to
write `b` exactly when the exponent is negative, as are the units otherwise, so the search
never goes below it. -/
def shortest (b : Binary) : Scientific :=
  if b.mantissa = 0 then ⟨0, 0⟩
  else b.shortestFrom (b.topPower - min b.exponent 0 + 1).toNat b.topPower

end Binary

end ScriptLang.Decimal
