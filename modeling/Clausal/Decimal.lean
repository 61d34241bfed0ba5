/-!
# Decimal numbers

A decimal is a whole number of units of a power of ten, with a sign. `Decimal.toFloat` rounds a
decimal to the nearest floating-point number, and `Decimal.text` writes one down: positionally
where the leading digit stands between the fourth place after the point and the sixteenth before
it, and with an exponent otherwise.
-/

namespace Clausal

/-- The number `digits · 10 ^ exponent`, or its negative. -/
structure Decimal where
  negative : Bool := false
  digits : Nat
  exponent : Int := 0
deriving DecidableEq, Repr, Inhabited

namespace Decimal

/-- How many decimal digits a number has; zero has one. -/
def width (n : Nat) : Nat :=
  (Nat.toDigits 10 n).length

/-- The decimal without zeros at the end of its digits. The value stays the same. -/
def strip (d : Decimal) : Decimal :=
  if h : d.digits ≠ 0 ∧ d.digits % 10 = 0 then
    have : d.digits / 10 < d.digits := Nat.div_lt_self (Nat.pos_of_ne_zero h.1) (by decide)
    strip { d with digits := d.digits / 10, exponent := d.exponent + 1 }
  else d
termination_by d.digits

/-- The nearest floating-point number. Beyond the range of floating-point numbers the result is
infinite, and below it zero. -/
def toFloat (d : Decimal) : Float :=
  let leading := (width d.digits : Int) + d.exponent
  let size : Float :=
    if d.digits = 0 ∨ leading < -400 then 0.0
    else if 400 < leading then 1.0 / 0.0
    else Float.ofScientific d.digits (d.exponent < 0) d.exponent.natAbs
  if d.negative then -size else size

/-- The exponent part of a number: a sign and at least two digits. -/
def exponentText (e : Int) : List Char :=
  'e' :: (if e < 0 then '-' else '+') :: (Nat.toDigits 10 e.natAbs).leftpad 2 '0'

/-- The digits of a number with a point after the first `n` of them; zeros are filled in on both
sides, and at least one digit follows the point. -/
def positional (ds : List Char) (n : Int) : List Char :=
  if n ≤ 0 then '0' :: '.' :: List.replicate n.natAbs '0' ++ ds
  else
    let whole := ds.take n.toNat ++ List.replicate (n.toNat - ds.length) '0'
    let fraction := ds.drop n.toNat
    whole ++ '.' :: if fraction.isEmpty then ['0'] else fraction

/-- One digit, a point and the other digits if there are any, and the exponent. -/
def scientific (ds : List Char) (e : Int) : List Char :=
  match ds with
  | [] => exponentText e
  | [d] => d :: exponentText e
  | d :: rest => d :: '.' :: rest ++ exponentText e

/-- The text of a decimal. -/
def text (d : Decimal) : List Char :=
  let s := d.strip
  let ds := Nat.toDigits 10 s.digits
  let leading : Int := if s.digits = 0 then 0 else ds.length + s.exponent - 1
  let size := if -4 ≤ leading ∧ leading < 16 then positional ds (leading + 1)
    else scientific ds leading
  if d.negative then '-' :: size else size

end Decimal

end Clausal
