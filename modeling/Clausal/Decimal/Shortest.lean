import Clausal.Decimal

/-!
# The shortest decimal of a floating-point number

Of the decimals that round to a floating-point number, the one with the fewest digits is taken,
and of several such the one nearest to it; where two are equally near, the even one.

A positive floating-point number is `m · 2 ^ q`. The reals that round to it form an interval around
it, which reaches half a step up and down, or a quarter of a step down where the steps below are
half as wide; its ends belong to it if `m` is even. On each grid of decimals, from the coarsest on
which the number has one digit, the two neighbours of the number are tried.
-/

namespace Clausal.Decimal

/-- A power of two. -/
def powerOfTwo (n : Nat) : Nat :=
  Nat.pow 2 n

/-- A power of ten. -/
def powerOfTen (n : Nat) : Nat :=
  Nat.pow 10 n

/-- The positive number `mantissa · 2 ^ exponent`; `narrow` says that the steps below it are half
as wide as those above. -/
structure Binary where
  mantissa : Nat
  exponent : Int
  narrow : Bool
deriving DecidableEq, Repr, Inhabited

namespace Binary

/-- The finite positive number with the given bits, the sign bit aside. -/
def ofBits (bits : Nat) : Binary :=
  let fraction := bits % powerOfTwo 52
  let biased : Nat := bits / powerOfTwo 52 % powerOfTwo 11
  if biased = 0 then ⟨fraction, -1074, false⟩
  else ⟨powerOfTwo 52 + fraction, (biased : Int) - 1075, fraction = 0 ∧ 1 < biased⟩

/-- The number times four, over the denominator that makes it whole. -/
def scale (b : Binary) : Nat × Nat :=
  if 0 ≤ b.exponent then (powerOfTwo b.exponent.toNat, 4) else (1, 4 * powerOfTwo b.exponent.natAbs)

/-- The power of ten above the number: `10 ^ (p - 1) ≤ number < 10 ^ p`. -/
def magnitude (b : Binary) : Int :=
  let (unit, den) := b.scale
  let num := 4 * b.mantissa * unit
  if den ≤ num then width (num / den) else 1 - (width ((den - 1) / num) : Int)

/-- Whether `digits · 10 ^ exponent` rounds to the number. -/
def accepts (b : Binary) (digits : Nat) (exponent : Int) : Bool :=
  let (unit, den) := b.scale
  let up := powerOfTen exponent.toNat
  let down := powerOfTen (-exponent).toNat
  let point := digits * up * den
  let low := (4 * b.mantissa - if b.narrow then 1 else 2) * unit * down
  let high := (4 * b.mantissa + 2) * unit * down
  if b.mantissa % 2 = 0 then low ≤ point && point ≤ high else low < point && point < high

/-- The better of the two neighbours of the number on the grid of a power of ten, if one of them
rounds to it. -/
def onGrid? (b : Binary) (exponent : Int) : Option Decimal :=
  let (unit, den) := b.scale
  let up := powerOfTen exponent.toNat
  let down := powerOfTen (-exponent).toNat
  let num := 4 * b.mantissa * unit * down
  let step := den * up
  let below := num / step
  let excess := num % step
  let above := below + 1
  let nearer : Nat :=
    if 2 * excess < step then below
    else if step < 2 * excess then above
    else if below % 2 = 0 then below else above
  match b.accepts below exponent, b.accepts above exponent with
  | true, true => some { digits := nearer, exponent }
  | true, false => some { digits := below, exponent }
  | false, true => some { digits := above, exponent }
  | false, false => none

/-- The shortest decimal that rounds to the number. Seventeen digits are always enough. -/
def shortest (b : Binary) : Decimal :=
  let p := b.magnitude
  ((List.range 18).findSome? fun n => b.onGrid? (p - (n + 1 : Nat))).getD { digits := 0 }

end Binary

/-- The text of a floating-point number: the shortest decimal that reads back as it. -/
def ofFloat (x : Float) : List Char :=
  let bits := x.toBits.toNat
  let negative := powerOfTwo 63 ≤ bits
  let size := bits % powerOfTwo 63
  let endless := 2047 * powerOfTwo 52
  if endless < size then ['n', 'a', 'n']
  else if size = endless then if negative then ['-', 'i', 'n', 'f'] else ['i', 'n', 'f']
  else if size = 0 then text { negative, digits := 0 }
  else text { (Binary.ofBits size).shortest with negative }

end Clausal.Decimal
