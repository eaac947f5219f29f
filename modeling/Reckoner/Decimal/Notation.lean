import Reckoner.Decimal.Shortest

/-!
# How a double is written

A double is written with its shortest digits. Numbers from `1e-4` and below `1e16` are written out, with at least one
digit on each side of the point; all others have one digit in front of the point and an exponent, and no point where
there is only that digit. The text of a finite number therefore always holds a point or an exponent.
-/

namespace Reckoner

namespace Decimal

/-- Writes the digits out, with the point behind the first `point` of them. -/
def plain (digits : List Char) (point : Int) : List Char :=
  if point ≤ 0 then
    ['0', '.'] ++ List.replicate (-point).toNat '0' ++ digits
  else
    let whole := point.toNat
    let fraction := digits.drop whole
    digits.take whole ++ List.replicate (whole - digits.length) '0'
      ++ '.' :: (if fraction = [] then ['0'] else fraction)

/-- Writes the first digit, the point and the others, and the power of ten. -/
def scientific (digits : List Char) (power : Int) : List Char :=
  digits.take 1 ++ (if digits.length ≤ 1 then [] else '.' :: digits.drop 1) ++ 'e' :: (toString power).toList

/-- Writes a positive decimal whose last digit is not zero. -/
def render (d : Decimal) : List Char :=
  let digits := Nat.toDigits 10 d.digits
  let power := d.exponent + digits.length - 1
  if -4 ≤ power ∧ power < 16 then plain digits (power + 1) else scientific digits power

end Decimal

/-- The text of a double. -/
def renderFloat (x : Float) : String :=
  let bits := x.toBits
  let sign := if bits >>> 63 = 1 then "-" else ""
  if x.isNaN then "NaN"
  else if x.isInf then sign ++ "inf"
  else if x == 0 then sign ++ "0.0"
  else sign ++ String.ofList (Decimal.shortest (Binary.ofBits bits)).render

end Reckoner
