import ScriptLang.Decimal.Shortest

/-!
# Layout of decimals

How a number is written out once its digits are known. A `Style` says which orders of
magnitude are written without an exponent and whether a whole number keeps a point.
`plain` is the style of program output and `detailed` that of descriptions for the
programmer.
-/

namespace ScriptLang.Decimal

/-- The decisions of a number format. -/
structure Style where
  /-- Whether numbers whose first digit stands for `10 ^ order` are written in full. -/
  positional : (order : Int) → Bool
  /-- Whether a whole number written in full ends in a point and a zero. -/
  keepPoint : Bool

/-- Always in full, and whole numbers without a point. -/
def plain : Style := ⟨fun _ => true, false⟩

/-- In full from `10 ^ -4` to below `10 ^ 16`, and whole numbers with a point. -/
def detailed : Style := ⟨fun order => -4 ≤ order && order < 16, true⟩

/-- The decimal digits of a number, at least one. -/
def digitsOf (n : Nat) : List Char := Nat.toDigits 10 n

/-- `digits · 10 ^ power` without an exponent. -/
def inFull (keepPoint : Bool) (digits : List Char) (power : Int) : List Char :=
  if 0 ≤ power then
    digits ++ List.replicate power.toNat '0' ++ (if keepPoint then ['.', '0'] else [])
  else
    let places := (-power).toNat
    if places < digits.length then
      digits.take (digits.length - places) ++ '.' :: digits.drop (digits.length - places)
    else
      '0' :: '.' :: (List.replicate (places - digits.length) '0' ++ digits)

/-- `digits · 10 ^ power` with one digit before the point and the exponent `order`. -/
def withExponent (digits : List Char) (order : Int) : List Char :=
  digits.take 1 ++ (if digits.length ≤ 1 then [] else '.' :: digits.drop 1)
    ++ 'e' :: (if order < 0 then ['-'] else []) ++ digitsOf order.natAbs

/-- A decimal in a given style. Zero counts as a number of order zero. -/
def Scientific.render (style : Style) (s : Scientific) : List Char :=
  let digits := digitsOf s.digits
  let order := s.power + digits.length - 1
  if s.digits = 0 ∨ style.positional order then
    inFull style.keepPoint digits s.power
  else
    withExponent digits order

/-- A floating-point number in a given style. What is no number has no sign. -/
def render (style : Style) (x : Float) : String :=
  let signed (negative : Bool) (cs : List Char) :=
    String.ofList (if negative then '-' :: cs else cs)
  match Parts.of x with
  | .nan => "NaN"
  | .infinite negative => signed negative ['i', 'n', 'f']
  | .finite negative value => signed negative (value.shortest.render style)

end ScriptLang.Decimal
