import Treewalk.Number.Double

/-!
# Decimal numbers and their text

A `Decimal` is a natural coefficient times a power of ten. `Double.ofDecimal` reads one: the
nearest double, as `Double.ofRatio` rounds. `Decimal.chars` writes one, in positional notation
while the decimal point falls inside a fixed range of places and with an exponent outside it;
`Layout` holds the range, and `Layout.standard` the one this library writes.
-/

set_option autoImplicit false

namespace Treewalk

/-- The number `coefficient * 10 ^ exponent`. -/
structure Decimal where
  coefficient : Nat
  exponent : Int
  deriving DecidableEq, Repr

def Double.ofDecimal (negative : Bool) (d : Decimal) : Double :=
  if d.exponent < 0 then ofRatio negative d.coefficient (Nat.pow 10 (-d.exponent).toNat)
  else ofRatio negative (d.coefficient * Nat.pow 10 d.exponent.toNat) 1

/-- Where positional notation ends. A number whose point stands after its `k`-th digit, counted
from the first significant one, is written positionally when `lowest < k ≤ highest`. -/
structure Layout where
  lowest : Int
  highest : Int

/-- From 0.000001 up to and below `10 ^ 21`, numbers are written out; all others have an
exponent. -/
def Layout.standard : Layout := ⟨-6, 21⟩

namespace Decimal

/-- The decimal digits of a natural number, the most significant first. -/
def digits (n : Nat) : List Char := Nat.toDigits 10 n

def significant (n : Nat) : List Char :=
  ((digits n).reverse.dropWhile (· = '0')).reverse

/-- How many digits stand before the decimal point; negative when zeros follow it. -/
def point (d : Decimal) : Int := (digits d.coefficient).length + d.exponent

/-- One digit, then the others behind a point, then the power of ten with its sign. -/
def scientific (ds : List Char) (point : Int) : List Char :=
  let power := point - 1
  ds.take 1 ++ (if ds.length ≤ 1 then [] else '.' :: ds.drop 1)
    ++ 'e' :: (if power < 0 then '-' else '+') :: digits power.natAbs

/-- Significant digits with the point after the given number of places. -/
def place (layout : Layout) (ds : List Char) (point : Int) : List Char :=
  if point ≤ layout.lowest ∨ layout.highest < point then scientific ds point
  else if point ≤ 0 then '0' :: '.' :: (List.replicate (-point).toNat '0' ++ ds)
  else if (ds.length : Int) ≤ point then ds ++ List.replicate (point.toNat - ds.length) '0'
  else ds.take point.toNat ++ '.' :: ds.drop point.toNat

def chars (d : Decimal) : List Char :=
  place Layout.standard (significant d.coefficient) d.point

end Decimal

end Treewalk
