import Mathlib.Data.Nat.Cast.Order.Field
import Mathlib.Tactic.NormNum
import Treewalk.Proofs.Rounding

/-!
# The shortest decimal

`Double.shortest` gives a decimal that is read as the number it was found for, `readsAs_shortest`.
It is of the same size, that is, both lie between the same powers of ten: `shortest_bounds`. And a
whole number has a whole one, `shortest_of_dvd`, since the search comes to the grid of whole numbers
before it comes to finer ones.
-/

set_option autoImplicit false

namespace Treewalk

/-! ## Digits and powers of ten -/

namespace Decimal

/-- A number has as many digits as it takes for a power of ten to exceed it. -/
theorem digits_bounds {n : Nat} (hn : 0 < n) :
    10 ^ ((digits n).length - 1) ≤ n ∧ n < 10 ^ (digits n).length := by
  have hlength : 0 < (digits n).length := Nat.length_toDigits_pos
  refine ⟨?_, (Nat.length_toDigits_le_iff (by decide) hlength).mp (Nat.le_refl _)⟩
  by_cases hone : (digits n).length = 1
  · rw [hone]
    exact hn
  · have hlt : ¬ (digits n).length ≤ (digits n).length - 1 := by omega
    exact Nat.le_of_not_lt fun h =>
      hlt ((Nat.length_toDigits_le_iff (by decide) (by omega)).mpr h)

theorem zpow_ten_pos (e : ℤ) : (0 : ℚ) < 10 ^ e := zpow_pos (by norm_num) e

theorem zpow_ten_add (a b : ℤ) : (10 : ℚ) ^ (a + b) = 10 ^ a * 10 ^ b :=
  zpow_add₀ (by norm_num) a b

theorem zpow_ten_le_iff {a b : ℤ} : (10 : ℚ) ^ a ≤ 10 ^ b ↔ a ≤ b :=
  zpow_le_zpow_iff_right₀ (by norm_num)

theorem zpow_ten_lt_iff {a b : ℤ} : (10 : ℚ) ^ a < 10 ^ b ↔ a < b :=
  zpow_lt_zpow_iff_right₀ (by norm_num)

/-- The place of the point says between which powers of ten a decimal lies. -/
theorem point_bounds {d : Decimal} (hd : 0 < d.coefficient) :
    10 ^ (d.point - 1) ≤ d.value ∧ d.value < 10 ^ d.point := by
  obtain ⟨hle, hlt⟩ := digits_bounds hd
  have hlength : 0 < (digits d.coefficient).length := Nat.length_toDigits_pos
  have hpred : (((digits d.coefficient).length - 1 : Nat) : ℤ) =
      (digits d.coefficient).length - 1 := by omega
  have hle' : (10 : ℚ) ^ (((digits d.coefficient).length : ℤ) - 1) ≤ d.coefficient := by
    rw [← hpred, zpow_natCast]
    exact_mod_cast hle
  have hlt' : (d.coefficient : ℚ) < 10 ^ ((digits d.coefficient).length : ℤ) := by
    rw [zpow_natCast]
    exact_mod_cast hlt
  have hpos := zpow_ten_pos d.exponent
  rw [value, point, zpow_ten_add, add_sub_right_comm, zpow_ten_add]
  exact ⟨mul_le_mul_of_nonneg_right hle' hpos.le, mul_lt_mul_of_pos_right hlt' hpos⟩

end Decimal

namespace Double

open Decimal (zpow_ten_pos zpow_ten_add zpow_ten_le_iff zpow_ten_lt_iff)

/-- Scaled by a power of ten and cut down to a whole number, a number keeps its leading place. -/
theorem floor_bounds {units scale : Nat} {place : ℤ}
    (h : 0 < units * Nat.pow 10 scale / unitsPerOne)
    (hplace :
      place = (Decimal.digits (units * Nat.pow 10 scale / unitsPerOne)).length - scale) :
    10 ^ (place - 1) ≤ unitsValue units ∧ unitsValue units < 10 ^ place := by
  have hone : (0 : ℚ) < unitsPerOne := Nat.cast_pos.mpr unitsPerOne_pos
  have hpos := zpow_ten_pos scale
  obtain ⟨hle, hlt⟩ := Decimal.digits_bounds h
  have hlength : 0 < (Decimal.digits (units * Nat.pow 10 scale / unitsPerOne)).length :=
    Nat.length_toDigits_pos
  have hscaled : unitsValue units * 10 ^ (scale : ℤ) =
      (units * Nat.pow 10 scale : Nat) / (unitsPerOne : Nat) := by
    rw [unitsValue, zpow_natCast, Nat.pow_eq]
    push_cast
    ring
  constructor
  · rw [← mul_le_mul_iff_left₀ hpos, hscaled, le_div_iff₀ hone, ← zpow_ten_add,
      show place - 1 + scale = ((Decimal.digits (units * Nat.pow 10 scale /
        unitsPerOne)).length - 1 : Nat) by omega, zpow_natCast]
    exact_mod_cast (Nat.le_div_iff_mul_le unitsPerOne_pos).mp hle
  · rw [← mul_lt_mul_iff_left₀ hpos, hscaled, div_lt_iff₀ hone, ← zpow_ten_add,
      show place + scale = ((Decimal.digits (units * Nat.pow 10 scale /
        unitsPerOne)).length : Nat) by omega, zpow_natCast]
    exact_mod_cast (Nat.div_lt_iff_lt_mul unitsPerOne_pos).mp hlt

/-- The leading place says between which powers of ten a number lies. -/
theorem leadingPlace_bounds {units : Nat} (h : 0 < units) :
    10 ^ (leadingPlace units - 1) ≤ unitsValue units ∧
      unitsValue units < 10 ^ leadingPlace units := by
  have hscale : unitsPerOne ≤ Nat.pow 10 324 := by decide +kernel
  have hfloor : 0 < units * Nat.pow 10 324 / unitsPerOne :=
    Nat.div_pos (hscale.trans (Nat.le_mul_of_pos_left _ h)) unitsPerOne_pos
  exact floor_bounds hfloor (by rw [leadingPlace, Nat.cast_ofNat])

/-! ## Neighbours -/

theorem zpow_ten_eq_div (e : ℤ) :
    (10 : ℚ) ^ e = (Nat.pow 10 e.toNat : Nat) / (Nat.pow 10 (-e).toNat : Nat) := by
  simp only [Nat.pow_eq, Nat.cast_pow, Nat.cast_ofNat]
  rcases Int.le_total 0 e with he | he
  · obtain ⟨k, rfl⟩ := Int.eq_ofNat_of_zero_le he
    simp
  · obtain ⟨k, hk⟩ := Int.eq_ofNat_of_zero_le (Int.neg_nonneg.mpr he)
    obtain rfl : e = -k := by omega
    simp

/-- The neighbours of a number on a grid are the two points on its sides. -/
theorem mem_neighbours {units : Nat} {e : ℤ} {d : Decimal} (h : d ∈ neighbours units e) :
    d.exponent = e ∧ ∃ below : Nat, below * 10 ^ e ≤ unitsValue units ∧
      unitsValue units < (below + 1) * 10 ^ e ∧
      (d.coefficient = below ∨ d.coefficient = below + 1) := by
  have hten : ∀ k, 0 < Nat.pow 10 k := fun k => Nat.pow_pos (Nat.succ_pos 9)
  obtain ⟨num, hnum⟩ : ∃ num, num = units * Nat.pow 10 (-e).toNat := ⟨_, rfl⟩
  obtain ⟨den, hden⟩ : ∃ den, den = unitsPerOne * Nat.pow 10 e.toNat := ⟨_, rfl⟩
  have hpos : 0 < den := hden ▸ Nat.mul_pos unitsPerOne_pos (hten _)
  have hquotient : unitsValue units = (num / den : ℚ) * 10 ^ e := by
    have hup : ((Nat.pow 10 e.toNat : Nat) : ℚ) ≠ 0 := Nat.cast_ne_zero.mpr (hten _).ne'
    have hdown : ((Nat.pow 10 (-e).toNat : Nat) : ℚ) ≠ 0 := Nat.cast_ne_zero.mpr (hten _).ne'
    have hone := unitsPerOne_cast_ne_zero
    rw [unitsValue, zpow_ten_eq_div, hnum, hden, Nat.cast_mul, Nat.cast_mul]
    field_simp
  have hbelow : ((num / den : Nat) : ℚ) ≤ num / den := Nat.cast_div_le
  have habove : (num / den : ℚ) < (num / den : Nat) + 1 := by
    rw [div_lt_iff₀ (Nat.cast_pos.mpr hpos)]
    exact_mod_cast Nat.lt_mul_of_div_lt (Nat.lt_succ_self _) hpos
  have hgrid := zpow_ten_pos e
  have hmem : d = ⟨num / den, e⟩ ∨ d = ⟨num / den + 1, e⟩ := by
    rw [neighbours, ← hnum, ← hden] at h
    split at h
    · simpa using h
    · simpa [or_comm] using h
  refine ⟨by rcases hmem with rfl | rfl <;> rfl, num / den, ?_, ?_, ?_⟩
  · rw [hquotient]
    exact mul_le_mul_of_nonneg_right hbelow hgrid.le
  · rw [hquotient]
    exact mul_lt_mul_of_pos_right habove hgrid
  · rcases hmem with rfl | rfl
    · exact .inl rfl
    · exact .inr rfl

/-- The neighbours of a number lie between the powers of ten that the number lies between, since
these are points of the grid. -/
theorem neighbours_bounds {units : Nat} {place e : ℤ} {d : Decimal}
    (hplace : 10 ^ (place - 1) ≤ unitsValue units ∧ unitsValue units < 10 ^ place)
    (he : e < place) (hd : d ∈ neighbours units e) :
    10 ^ (place - 1) ≤ d.value ∧ d.value ≤ 10 ^ place := by
  obtain ⟨hexponent, below, hbelow, habove, hcoefficient⟩ := mem_neighbours hd
  obtain ⟨n, hn⟩ : ∃ n : Nat, place - 1 = n + e := ⟨(place - 1 - e).toNat, by omega⟩
  have hn' : place = (n + 1 : Nat) + e := by omega
  have hgrid := zpow_ten_pos e
  rw [hn, hn', zpow_ten_add, zpow_ten_add, zpow_natCast, zpow_natCast] at hplace
  rw [hn, hn', zpow_ten_add, zpow_ten_add, zpow_natCast, zpow_natCast, Decimal.value, hexponent,
    mul_le_mul_iff_left₀ hgrid, mul_le_mul_iff_left₀ hgrid]
  have hlow : 10 ^ n < below + 1 := by
    exact_mod_cast (mul_lt_mul_iff_left₀ hgrid).mp (hplace.1.trans_lt habove)
  have hhigh : below < 10 ^ (n + 1) := by
    exact_mod_cast (mul_lt_mul_iff_left₀ hgrid).mp (hbelow.trans_lt hplace.2)
  have hle : 10 ^ n ≤ d.coefficient ∧ d.coefficient ≤ 10 ^ (n + 1) := by omega
  exact_mod_cast hle

/-- A whole number is on the grid of whole numbers, and so it is its own nearest neighbour there. -/
theorem neighbours_zero (n : Nat) : ⟨n, 0⟩ ∈ neighbours (n * unitsPerOne) 0 := by
  have hone : Nat.pow 10 0 = 1 := rfl
  simp only [neighbours, neg_zero, Int.toNat_zero, hone, Nat.mul_one,
    Nat.mul_div_cancel _ unitsPerOne_pos]
  split <;> simp

/-! ## The search -/

theorem value_allDigits (units : Nat) : (allDigits units).value = unitsValue units := by
  -- No tactic is to work out the power, so its exponent is a variable.
  obtain ⟨p, hp⟩ : ∃ p : Nat, 1074 = p := ⟨_, rfl⟩
  have hp' : (1074 : ℤ) = p := by rw [← hp, Nat.cast_ofNat]
  unfold Decimal.value allDigits unitsValue unitsPerOne
  rw [hp, hp', zpow_neg, zpow_natCast]
  simp only [Nat.pow_eq, Nat.cast_mul, Nat.cast_pow, Nat.cast_ofNat]
  rw [show (10 : ℚ) = 2 * 5 by norm_num, mul_pow]
  field_simp

/-- The numbers before one that stands in a range are those below it. -/
theorem mem_of_range_eq_append {k n m : Nat} {before after : List Nat}
    (h : List.range k = before ++ n :: after) (hm : m < n) : m ∈ before := by
  have hsorted := List.pairwise_lt_range (n := k)
  rw [h, List.pairwise_append, List.pairwise_cons] at hsorted
  have hn : n < k := by
    rw [← List.mem_range, h]
    exact List.mem_append_right _ List.mem_cons_self
  have hmem : m ∈ before ++ n :: after := h ▸ List.mem_range.mpr (hm.trans hn)
  refine (List.mem_append.mp hmem).resolve_right fun hafter => ?_
  rcases List.mem_cons.mp hafter with rfl | hafter
  · exact Nat.lt_irrefl m hm
  · exact Nat.lt_asymm hm (hsorted.2.1.1 m hafter)

/-- The decimal found is a neighbour on the first grid on which one reads back, or else all digits
of the number. -/
theorem shortest_cases (units : Nat) :
    (∃ n, shortest units ∈ neighbours units (leadingPlace units - (n + 1 : Nat)) ∧
      readsAs units (shortest units) = true ∧
      ∀ m < n, ∀ d ∈ neighbours units (leadingPlace units - (m + 1 : Nat)),
        readsAs units d = false) ∨
    shortest units = allDigits units := by
  rw [shortest]
  cases hfound : (List.range 17).findSome? fun (n : Nat) =>
      (neighbours units (leadingPlace units - (n + 1 : Nat))).find? (readsAs units) with
  | none => exact .inr rfl
  | some d =>
    obtain ⟨before, n, after, hrange, hd, hnone⟩ := List.findSome?_eq_some_iff.mp hfound
    refine .inl ⟨n, List.mem_of_find?_eq_some hd, List.find?_some hd, fun m hm d' hd' => ?_⟩
    have hmem : m ∈ before := mem_of_range_eq_append hrange hm
    have hnone' := List.find?_eq_none.mp (hnone m hmem) d' hd'
    exact Bool.eq_false_iff.mpr hnone'

/-- **The shortest decimal reads back.** -/
theorem readsAs_shortest {units : Nat} (h : Representable units) :
    readsAs units (shortest units) = true := by
  rcases shortest_cases units with ⟨-, -, hreads, -⟩ | hall
  · exact hreads
  · rw [hall]
    exact readsAs_of_value h (value_allDigits units)

/-- The shortest decimal is of the size of the number. -/
theorem shortest_bounds {units : Nat} (h : 0 < units) :
    10 ^ (leadingPlace units - 1) ≤ (shortest units).value ∧
      (shortest units).value ≤ 10 ^ leadingPlace units := by
  have hplace := leadingPlace_bounds h
  rcases shortest_cases units with ⟨n, hd, -, -⟩ | hall
  · exact neighbours_bounds hplace (by omega) hd
  · rw [hall, value_allDigits]
    exact ⟨hplace.1, hplace.2.le⟩

theorem coefficient_shortest_pos {units : Nat} (h : 0 < units) :
    0 < (shortest units).coefficient := by
  have hvalue := (zpow_ten_pos _).trans_le (shortest_bounds h).1
  refine Nat.pos_of_ne_zero fun hzero => ?_
  rw [Decimal.value, hzero, Nat.cast_zero, zero_mul] at hvalue
  exact lt_irrefl _ hvalue

theorem unitsValue_mul (n : Nat) : unitsValue (n * unitsPerOne) = n := by
  rw [unitsValue, Nat.cast_mul, mul_div_cancel_right₀ _ unitsPerOne_cast_ne_zero]

/-- The shortest decimal of a whole number is a whole number. -/
theorem shortest_of_dvd {n : Nat} (hn : 0 < n) (h : Representable (n * unitsPerOne)) :
    ∃ m : Nat, (shortest (n * unitsPerOne)).value = m := by
  rcases shortest_cases (n * unitsPerOne) with ⟨i, hd, -, hfirst⟩ | hall
  · have hexponent := (mem_neighbours hd).1
    by_cases hi : (i + 1 : Nat) ≤ leadingPlace (n * unitsPerOne)
    · obtain ⟨e, he⟩ := Int.eq_ofNat_of_zero_le (Int.sub_nonneg_of_le hi)
      refine ⟨(shortest (n * unitsPerOne)).coefficient * 10 ^ e, ?_⟩
      rw [Decimal.value, hexponent, he, zpow_natCast, Nat.cast_mul, Nat.cast_pow, Nat.cast_ofNat]
    · -- The grid of whole numbers comes before this one, and the number itself is on it.
      have hplace : 0 < leadingPlace (n * unitsPerOne) := by
        have hlt := (leadingPlace_bounds (Nat.mul_pos hn unitsPerOne_pos)).2
        rw [unitsValue_mul] at hlt
        have hone : (10 : ℚ) ^ (0 : ℤ) ≤ n := by
          rw [zpow_zero]
          exact_mod_cast hn
        exact zpow_ten_lt_iff.mp (hone.trans_lt hlt)
      obtain ⟨j, hj⟩ : ∃ j : Nat, leadingPlace (n * unitsPerOne) = (j + 1 : Nat) :=
        ⟨(leadingPlace (n * unitsPerOne) - 1).toNat, by omega⟩
      have hgrid := hfirst j (by omega) ⟨n, 0⟩ (by rw [hj, sub_self]; exact neighbours_zero n)
      have hvalue : (⟨n, 0⟩ : Decimal).value = unitsValue (n * unitsPerOne) := by
        rw [Decimal.value, zpow_zero, mul_one, unitsValue_mul]
      rw [readsAs_of_value h hvalue] at hgrid
      exact absurd hgrid.symm Bool.false_ne_true
  · exact ⟨n, by rw [hall, value_allDigits, unitsValue_mul]⟩

/-- The shortest decimal lies below a power of ten that is a double if the number does. -/
theorem shortest_lt_pow_iff {units k : Nat} (hunits : 0 < units) (h : Representable units)
    (hpow : Representable (10 ^ k * unitsPerOne)) :
    (shortest units).value < 10 ^ (k : ℤ) ↔ unitsValue units < 10 ^ (k : ℤ) := by
  obtain ⟨hlow, hhigh⟩ := shortest_bounds hunits
  obtain ⟨hlow', hhigh'⟩ := leadingPlace_bounds hunits
  constructor
  · intro hlt
    have hplace : leadingPlace units ≤ k :=
      Int.le_of_sub_one_lt (zpow_ten_lt_iff.mp (hlow.trans_lt hlt))
    exact hhigh'.trans_le (zpow_ten_le_iff.mpr hplace)
  · intro hlt
    have hplace : leadingPlace units ≤ k :=
      Int.le_of_sub_one_lt (zpow_ten_lt_iff.mp (hlow'.trans_lt hlt))
    refine lt_of_le_of_ne (hhigh.trans (zpow_ten_le_iff.mpr hplace)) fun heq => ?_
    -- Equal to the power, the decimal would be read as the power.
    have hvalue : (shortest units).value = unitsValue (10 ^ k * unitsPerOne) := by
      rw [heq, unitsValue_mul, Nat.cast_pow, Nat.cast_ofNat, zpow_natCast]
    have hread := ofDecimal_of_value hpow hvalue false
    rw [ofDecimal_of_readsAs h (readsAs_shortest h)] at hread
    injection hread with _ hunits
    rw [hunits, unitsValue_mul, Nat.cast_pow, Nat.cast_ofNat, zpow_natCast] at hlt
    exact lt_irrefl _ hlt

end Double

end Treewalk
