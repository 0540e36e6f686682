import Treewalk.Number.Decimal

/-!
# The shortest decimal that reads back

`Double.shortest` finds, for a finite number that is not zero, the decimal with the fewest
digits that `Double.ofDecimal` reads as that very number, and of those the nearest to it. For one
digit, two digits and so on it looks at the two neighbours of the number on the grid of that many
digits: if any point of a grid reads back, one of these two does. Seventeen digits always suffice.

`Double.text` is the text of a double, built on it.
-/

set_option autoImplicit false

namespace Treewalk.Double

/-- The place of the leading digit: `units` lies from `10 ^ (k - 1)` up to and below `10 ^ k`. The
least positive double exceeds `10 ^ -324`, so scaling by `10 ^ 324` leaves at least one digit. -/
def leadingPlace (units : Nat) : Int :=
  (Decimal.digits (units * Nat.pow 10 324 / unitsPerOne)).length - 324

/-- The points of the grid of multiples of `10 ^ e` on both sides of a number, the nearer first;
of two equally near the even one. -/
def neighbours (units : Nat) (e : Int) : List Decimal :=
  let num := units * Nat.pow 10 (-e).toNat
  let den := unitsPerOne * Nat.pow 10 e.toNat
  let below := num / den
  let r := num % den
  if 2 * r < den ∨ 2 * r = den ∧ below % 2 = 0 then [⟨below, e⟩, ⟨below + 1, e⟩]
  else [⟨below + 1, e⟩, ⟨below, e⟩]

def readsAs (units : Nat) (d : Decimal) : Bool := decide (ofDecimal false d = ofUnits false units)

/-- All digits of a magnitude: a unit is `5 ^ 1074` times `10 ^ -1074`. -/
def allDigits (units : Nat) : Decimal := ⟨units * Nat.pow 5 1074, -1074⟩

/-- The decimal of fewest digits that reads back, and of those the nearest. -/
def shortest (units : Nat) : Decimal :=
  let k := leadingPlace units
  let found := (List.range 17).findSome? fun (n : Nat) =>
    (neighbours units (k - (n + 1 : Nat))).find? (readsAs units)
  found.getD (allDigits units)

/-- The characters of a double's text: no sign on zero, and a name for what is no number. -/
def chars : Double → List Char
  | .nan => ['N', 'a', 'N']
  | .infinity negative =>
    (if negative then ['-'] else []) ++ ['I', 'n', 'f', 'i', 'n', 'i', 't', 'y']
  | .finite negative units _ =>
    if units = 0 then ['0']
    else (if negative then ['-'] else []) ++ (shortest units).chars

def text (x : Double) : String := String.ofList x.chars

instance : ToString Double := ⟨text⟩

end Treewalk.Double
