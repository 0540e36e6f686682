import Mathlib.Algebra.Order.Field.Power
import Mathlib.Tactic.FieldSimp
import Mathlib.Tactic.Linarith
import Mathlib.Tactic.Ring
import Treewalk.Number.Shortest

/-!
# What a decimal is read as

The double that a decimal is read as depends on the number that the decimal is, `Decimal.value`,
and not on how that number is written: `ofDecimal_congr`. A number that is a double is read as that
double, `ofDecimal_of_value`.

Both are facts about the rounding of quotients: it does not change when the two sides of the
quotient are multiplied by the same number, and it leaves alone what need not be rounded.
-/

set_option autoImplicit false

namespace Treewalk

theorem roundDiv_mul_right {k : Nat} (hk : 0 < k) (n d : Nat) :
    roundDiv (n * k) (d * k) = roundDiv n d := by
  have hr : n * k % (d * k) = n % d * k := Nat.mul_mod_mul_right ..
  have hlt : ∀ a b : Nat, a * k < b * k ↔ a < b := fun a b => Nat.mul_lt_mul_right hk
  simp only [roundDiv, Nat.mul_div_mul_right _ _ hk, hr, ← Nat.mul_assoc, hlt]

theorem roundDiv_mul_self {d : Nat} (hd : 0 < d) (q : Nat) : roundDiv (q * d) d = q := by
  simp only [roundDiv, Nat.mul_div_cancel _ hd, Nat.mul_mod_left, Nat.mul_zero, hd, if_true]

/-- The number that a decimal is. -/
def Decimal.value (d : Decimal) : ℚ := d.coefficient * 10 ^ d.exponent

namespace Double

/-- The number that a count of units is. -/
def unitsValue (units : Nat) : ℚ := units / unitsPerOne

theorem unitsPerOne_cast_ne_zero : (unitsPerOne : ℚ) ≠ 0 :=
  Nat.cast_ne_zero.mpr unitsPerOne_pos.ne'

theorem nearestUnits_mul_right {k : Nat} (hk : 0 < k) (num den : Nat) :
    nearestUnits (num * k) (den * k) = nearestUnits num den := by
  have hscaled : num * k * unitsPerOne = num * unitsPerOne * k := Nat.mul_right_comm ..
  have hgap : ∀ g, den * k * g = den * g * k := fun g => Nat.mul_right_comm ..
  simp only [nearestUnits, hscaled, Nat.mul_div_mul_right _ _ hk, hgap, roundDiv_mul_right hk]

theorem nearestUnits_congr {a b c d : Nat} (hb : b ≠ 0) (hd : d ≠ 0) (h : (a : ℚ) / b = c / d) :
    nearestUnits a b = nearestUnits c d := by
  have hcross : a * d = c * b := by
    rw [div_eq_div_iff (Nat.cast_ne_zero.mpr hb) (Nat.cast_ne_zero.mpr hd)] at h
    exact_mod_cast h
  rw [← nearestUnits_mul_right (Nat.pos_of_ne_zero hd) a b, hcross, Nat.mul_comm b d,
    nearestUnits_mul_right (Nat.pos_of_ne_zero hb)]

/-- A double is nearest to itself. -/
theorem nearestUnits_self {units : Nat} (h : Representable units) :
    nearestUnits units unitsPerOne = units := by
  have hgap : 0 < Nat.pow 2 (units.log2 - 52) := Nat.pow_pos (Nat.succ_pos 1)
  obtain ⟨q, hq⟩ := h.2
  simp only [nearestUnits, Nat.mul_div_cancel _ unitsPerOne_pos]
  generalize Nat.pow 2 (units.log2 - 52) = gap at hgap hq ⊢
  have hnum : units * unitsPerOne = q * (unitsPerOne * gap) := by
    rw [hq]
    ring
  rw [hnum, roundDiv_mul_self (Nat.mul_pos unitsPerOne_pos hgap), hq]

/-- What a decimal is read as is a rounded quotient, and the decimal's value is that quotient. -/
theorem ofDecimal_eq_ofRatio (d : Decimal) :
    ∃ num den : Nat, den ≠ 0 ∧ (num : ℚ) / den = d.value ∧
      ∀ negative, ofDecimal negative d = ofRatio negative num den := by
  by_cases hneg : d.exponent < 0
  · obtain ⟨k, hk⟩ : ∃ k : Nat, d.exponent = -k := ⟨(-d.exponent).toNat, by omega⟩
    refine ⟨d.coefficient, Nat.pow 10 (-d.exponent).toNat, (Nat.pow_pos (Nat.succ_pos 9)).ne', ?_,
      fun negative => if_pos hneg⟩
    simp only [Decimal.value, hk, neg_neg, Int.toNat_natCast, Nat.pow_eq, Nat.cast_pow,
      Nat.cast_ofNat, zpow_neg, zpow_natCast, div_eq_mul_inv]
  · obtain ⟨k, hk⟩ : ∃ k : Nat, d.exponent = k := ⟨d.exponent.toNat, by omega⟩
    refine ⟨d.coefficient * Nat.pow 10 d.exponent.toNat, 1, one_ne_zero, ?_,
      fun negative => if_neg hneg⟩
    simp only [Decimal.value, hk, Int.toNat_natCast, Nat.pow_eq, Nat.cast_mul, Nat.cast_pow,
      Nat.cast_ofNat, zpow_natCast, Nat.cast_one, div_one]

/-- What a decimal is read as depends on its value alone. -/
theorem ofDecimal_congr {d d' : Decimal} (h : d.value = d'.value) (negative : Bool) :
    ofDecimal negative d = ofDecimal negative d' := by
  obtain ⟨a, b, hb, hvalue, hd⟩ := ofDecimal_eq_ofRatio d
  obtain ⟨a', b', hb', hvalue', hd'⟩ := ofDecimal_eq_ofRatio d'
  rw [hd, hd', ofRatio, ofRatio, nearestUnits_congr hb hb' (by rw [hvalue, hvalue', h])]

/-- A number that is a double is read as that double. -/
theorem ofDecimal_of_value {units : Nat} (h : Representable units) {d : Decimal}
    (hd : d.value = unitsValue units) (negative : Bool) :
    ofDecimal negative d = .finite negative units h := by
  obtain ⟨a, b, hb, hvalue, hratio⟩ := ofDecimal_eq_ofRatio d
  have hnearest : nearestUnits a b = units :=
    (nearestUnits_congr hb unitsPerOne_pos.ne' (hvalue.trans hd)).trans (nearestUnits_self h)
  rw [hratio, ofRatio, hnearest, ofUnits, dif_pos h]

/-- Which magnitude a decimal is read as does not depend on the sign. -/
theorem ofDecimal_of_readsAs {units : Nat} (h : Representable units) {d : Decimal}
    (hd : readsAs units d = true) (negative : Bool) :
    ofDecimal negative d = .finite negative units h := by
  obtain ⟨a, b, -, -, hratio⟩ := ofDecimal_eq_ofRatio d
  rw [readsAs, decide_eq_true_eq, hratio, ofRatio, ofUnits, ofUnits, dif_pos h] at hd
  split at hd
  · next hrepresentable =>
    cases hd
    rw [hratio, ofRatio, ofUnits, dif_pos h]
  · cases hd

theorem readsAs_of_value {units : Nat} (h : Representable units) {d : Decimal}
    (hd : d.value = unitsValue units) : readsAs units d = true := by
  rw [readsAs, decide_eq_true_eq, ofDecimal_of_value h hd, ofUnits, dif_pos h]

end Double

end Treewalk
