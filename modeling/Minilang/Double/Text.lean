import Minilang.Double.Shortest
import Minilang.Text.Decimal

/-!
# Texts of floating-point numbers

A number is printed with the fewest digits that read back as the same number.  The leading digit's
decimal exponent decides the form: from `-4` to `5` the number is written out, with `.0` at the end
of a whole number; outside of it the form is `1.5e-05`, with a sign and at least two digits in the
exponent.
-/

namespace Minilang.Double

def exponentText (e : Int) : Bytes :=
  let digits := Decimal.ofNat e.natAbs
  101 :: (if e < 0 then 45 else 43) :: (Bytes.repeated (2 - digits.length) 48 ++ digits)

/-- The digits of a number written out; `point` digits stand before the decimal point. -/
def plainText (digits : Bytes) (point : Int) : Bytes :=
  if point ≤ 0 then Bytes.concat ["0.", Bytes.repeated (-point).toNat 48, digits]
  else if point < digits.length then
    Bytes.concat [digits.take point.toNat, ".", digits.drop point.toNat]
  else Bytes.concat [digits, Bytes.repeated (point.toNat - digits.length) 48, ".0"]

def scientificText (digits : Bytes) (e : Int) : Bytes :=
  match digits with
  | [] => []
  | [d] => d :: exponentText e
  | d :: rest => Bytes.concat [[d], ".", rest, exponentText e]

def magnitudeText (x : Double) : Bytes :=
  if x.isZero then "0.0" else
    let s := x.shortest
    let digits := Decimal.ofNat s.significand
    let e := s.exponent + digits.length - 1
    if e < -4 || 6 ≤ e then scientificText digits e else plainText digits (e + 1)

def text (x : Double) : Bytes :=
  if x.isNaN then "NaN"
  else if x.isInfinite then (if x.isNegative then "-Inf" else "+Inf")
  else if x.isNegative then 45 :: x.magnitudeText
  else x.magnitudeText

end Minilang.Double
