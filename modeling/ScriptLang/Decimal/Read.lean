/-!
# Reading decimals

A number is written as digits, or as digits, a point and digits. `Decimal.read` gives the
floating-point number nearest to such a text and refuses every other text.
-/

namespace ScriptLang.Decimal

/-- The number that a row of digits stands for. -/
def digitsValue (digits : List Char) : Nat :=
  digits.foldl (fun n c => 10 * n + (c.toNat - '0'.toNat)) 0

/-- The number nearest to `digits` or `digits.digits`. -/
def read (text : List Char) : Option Float :=
  let whole := text.takeWhile Char.isDigit
  match whole, text.dropWhile Char.isDigit with
  | [], _ => none
  | _, [] => some (Float.ofScientific (digitsValue whole) true 0)
  | _, point :: places =>
    if point = '.' ∧ places ≠ [] ∧ places.all Char.isDigit then
      some (Float.ofScientific (digitsValue (whole ++ places)) true places.length)
    else
      none

end ScriptLang.Decimal
