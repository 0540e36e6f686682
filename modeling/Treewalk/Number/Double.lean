/-!
# Binary64 numbers, exactly

A `Double` is not-a-number, an infinity, or a finite number. A finite number is a sign and a
count of *units*, the unit being the least positive double, `2 ^ -1074`: every finite double is a
whole number of units, so all arithmetic here is on `Nat`, and two finite doubles of one sign are
equal exactly when their counts are. The two zeros differ by their sign alone.

Which counts are doubles is `Representable`: the magnitude lies below `2 ^ 1024`, and the count
has at most 53 significant bits, that is, the power of two 52 places below its leading bit
divides it. Below `2 ^ 53` units every count qualifies; those are the subnormal numbers and the
first normal ones, and no case of its own is needed for them.

`Double.ofRatio` rounds a quotient to the nearest double, a tie to the even neighbour.

Powers are `Nat.pow` throughout, so that no import decides what they mean.
-/

set_option autoImplicit false

namespace Treewalk

/-- A number of units that is the magnitude of a finite double. -/
def Representable (units : Nat) : Prop :=
  units < Nat.pow 2 2098 ∧ Nat.pow 2 (units.log2 - 52) ∣ units

instance : DecidablePred Representable := fun _ => inferInstanceAs (Decidable (_ ∧ _))

inductive Double where
  | nan
  | infinity (negative : Bool)
  | finite (negative : Bool) (units : Nat) (representable : Representable units)
  deriving DecidableEq

/-- The quotient as a whole number: the nearest, and of two equally near ones the even one. -/
def roundDiv (n d : Nat) : Nat :=
  let q := n / d
  let r := n % d
  if 2 * r < d then q else if d < 2 * r then q + 1 else q + q % 2

namespace Double

def unitsPerOne : Nat := Nat.pow 2 1074

/-- A count of units as a double; a count beyond the largest double becomes an infinity. -/
def ofUnits (negative : Bool) (units : Nat) : Double :=
  if h : Representable units then .finite negative units h else .infinity negative

/-- The representable count nearest to `num / den`. The gap between neighbouring doubles at the
quotient's size is the power of two 52 places below its leading bit, and at least one unit. -/
def nearestUnits (num den : Nat) : Nat :=
  let scaled := num * unitsPerOne
  let gap := Nat.pow 2 ((scaled / den).log2 - 52)
  gap * roundDiv scaled (den * gap)

/-- The double nearest to the quotient of two naturals, with the given sign. -/
def ofRatio (negative : Bool) (num den : Nat) : Double :=
  ofUnits negative (nearestUnits num den)

def ofNat (n : Nat) : Double := ofRatio false n 1

def zero : Double := ofNat 0

def negativeZero : Double := ofUnits true 0

/-- Finite and a whole number. Both zeros are. -/
def isInteger : Double → Bool
  | .finite _ units _ => decide (unitsPerOne ∣ units)
  | _ => false

/-- The natural number that a double is, if it is one. Negative zero is zero. -/
def toNat? : Double → Option Nat
  | .finite negative units _ =>
    if (negative = false ∨ units = 0) ∧ unitsPerOne ∣ units then some (units / unitsPerOne)
    else none
  | _ => none

def signed (negative : Bool) (units : Nat) : Int :=
  if negative then -(units : Int) else units

/-- The order of the extended number line. Not-a-number is below nothing and above nothing, and
the two zeros are level. -/
def lt : Double → Double → Bool
  | .nan, _ => false
  | _, .nan => false
  | .infinity n, .infinity m => n && !m
  | .infinity n, .finite .. => n
  | .finite .., .infinity m => !m
  | .finite n u _, .finite m v _ => decide (signed n u < signed m v)

/-- Below zero; negative zero is not. -/
def isNegative (x : Double) : Bool := x.lt zero

def isPositive (x : Double) : Bool := zero.lt x

theorem zero_eq : zero = .finite false 0 (by decide +kernel) := by decide +kernel

theorem unitsPerOne_pos : 0 < unitsPerOne := by decide +kernel

/-- The positive whole numbers among the doubles are those that are a positive natural number. -/
theorem isInteger_and_isPositive_iff {x : Double} :
    x.isInteger = true ∧ x.isPositive = true ↔ ∃ n, x.toNat? = some n ∧ 0 < n := by
  cases x with
  | nan | infinity => simp [isInteger, toNat?]
  | finite negative units hunits =>
    rw [isPositive, zero_eq]
    simp only [isInteger, lt, signed, toNat?, decide_eq_true_eq]
    constructor
    · rintro ⟨hwhole, hpositive⟩
      cases negative with
      | true => simp at hpositive; omega
      | false =>
        have hunits : 0 < units := by simpa using hpositive
        refine ⟨units / unitsPerOne, by simp [hwhole], ?_⟩
        exact Nat.div_pos (Nat.le_of_dvd hunits hwhole) unitsPerOne_pos
    · rintro ⟨n, hn, hpos⟩
      split at hn
      · next h =>
        obtain rfl := Option.some.inj hn
        have hunits : 0 < units := Nat.pos_of_div_pos hpos
        have hsign : negative = false := h.1.resolve_right (Nat.ne_of_gt hunits)
        subst hsign
        exact ⟨h.2, by simpa using hunits⟩
      · exact absurd hn nofun

end Double

end Treewalk
