import Mathlib.Data.List.DropRight
import Treewalk.Proofs.Numerals
import Treewalk.Proofs.Shortest

/-!
# The text of a double

The text of a finite double is a numeral, `Double.numeral`, that is read back as that double, except
that negative zero is written without its sign: `ofChars_chars`. So doubles with the same text are
the same up to the sign of zero.

Whole numbers below `10 ^ 21` are written with digits alone, and all numbers from there on with an
exponent. No number is written with a fraction zero, nor with what is used as a delimiter.
-/

set_option autoImplicit false

namespace Treewalk

/-! ## Significant digits -/

namespace Decimal

theorem digits_eq_significant (n : Nat) :
    ∃ k, digits n = significant n ++ List.replicate k '0' := by
  refine ⟨((digits n).rtakeWhile (· = '0')).length, ?_⟩
  have hzeros : (digits n).rtakeWhile (· = '0') =
      List.replicate ((digits n).rtakeWhile (· = '0')).length '0' := by
    rw [List.eq_replicate_iff]
    refine ⟨rfl, fun c hc => ?_⟩
    simpa using List.mem_rtakeWhile_imp hc
  rw [← hzeros]
  exact List.rdropWhile_append_rtakeWhile.symm

theorem significant_ne_nil {n : Nat} (hn : 0 < n) : significant n ≠ [] := by
  intro hnil
  obtain ⟨k, hk⟩ := digits_eq_significant n
  have hvalue : Nat.ofDigitChars 10 (digits n) 0 = n := Nat.ofDigitChars_ten_toDigits
  rw [hk, hnil, List.nil_append, Nat.ofDigitChars_replicate_zero, Nat.mul_zero] at hvalue
  exact hn.ne hvalue

/-- The last significant digit is not zero. -/
theorem getLast?_significant {n : Nat} : (significant n).getLast? ≠ some '0' := by
  intro h
  have hne : (digits n).rdropWhile (· = '0') ≠ [] := by
    rintro hnil
    rw [show significant n = (digits n).rdropWhile (· = '0') from rfl, hnil] at h
    exact absurd h nofun
  have hlast := List.rdropWhile_last_not _ _ hne
  rw [show significant n = (digits n).rdropWhile (· = '0') from rfl,
    List.getLast?_eq_some_getLast hne] at h
  rw [Option.some.inj h] at hlast
  exact hlast (decide_eq_true rfl)

end Decimal

/-- The significant digits of a number other than zero. -/
def Digits.significant {n : Nat} (hn : 0 < n) : Digits where
  chars := Decimal.significant n
  ne_nil := Decimal.significant_ne_nil hn
  isDigit c hc := by
    obtain ⟨k, hk⟩ := Decimal.digits_eq_significant n
    have hmem : c ∈ Nat.toDigits 10 n := by
      rw [show Nat.toDigits 10 n = _ from hk]
      exact List.mem_append_left _ hc
    exact Nat.isDigit_of_mem_toDigits (by decide) (by decide) hmem

namespace Decimal

/-- A decimal is its significant digits, with the point in its place. -/
theorem value_eq_significant {d : Decimal} (hd : 0 < d.coefficient) :
    d.value = (Digits.significant hd).value *
      10 ^ (d.point - (Digits.significant hd).chars.length) := by
  obtain ⟨k, hk⟩ := digits_eq_significant d.coefficient
  have hcoefficient : d.coefficient = 10 ^ k * (Digits.significant hd).value := by
    conv_lhs => rw [← Nat.ofDigitChars_ten_toDigits (n := d.coefficient)]
    rw [show Nat.toDigits 10 d.coefficient = _ from hk, Nat.ofDigitChars_append,
      Nat.ofDigitChars_replicate_zero]
    rfl
  have hpoint : d.point - (Digits.significant hd).chars.length = k + d.exponent := by
    rw [point, hk, List.length_append, List.length_replicate]
    show ((significant d.coefficient).length + k : Nat) + d.exponent -
      ((significant d.coefficient).length : ℤ) = k + d.exponent
    omega
  rw [value, hpoint, zpow_ten_add, zpow_natCast]
  conv_lhs => rw [hcoefficient]
  push_cast
  ring

end Decimal

/-! ## Digits around a point -/

namespace Numeral

open Decimal (zpow_ten_add)

variable {layout : Layout} {ds : Digits} {point : ℤ}

theorem charsOf_some (ds : Digits) : Digits.charsOf (some ds) = ds.chars := rfl

theorem first_append_drop (ds : Digits) (k : Nat) (hk : 0 < k) :
    (ds.first k hk).chars ++ ds.chars.drop k = ds.chars :=
  List.take_append_drop k ds.chars

/-- The numeral denotes what the digits around the point do. -/
theorem value_ofPlaces (layout : Layout) (ds : Digits) (point : ℤ) :
    (ofPlaces layout ds point).magnitude.value = ds.value * 10 ^ (point - ds.chars.length) := by
  have hlength : 0 < ds.chars.length := List.length_pos_iff.mpr ds.ne_nil
  unfold ofPlaces
  split
  · have hpower : (if point - 1 < 0 then -((point - 1).natAbs : ℤ) else (point - 1).natAbs) =
        point - 1 := by
      split <;> omega
    have hexponent : point - 1 - ((ds.chars.length - 1 : Nat) : ℤ) =
        point - ds.chars.length := by omega
    simp only [magnitude, exponent, digits, Decimal.value, Digits.charsOf_rest?,
      first_append_drop, List.length_drop, Digits.value_ofNat, decide_eq_true_eq, hpower,
      hexponent]
    rfl
  · split
    · have hexponent : 0 - (((-point).toNat + ds.chars.length : Nat) : ℤ) =
          point - ds.chars.length := by omega
      have hvalue : Nat.ofDigitChars 10
          (Digits.zero.chars ++ (List.replicate (-point).toNat '0' ++ ds.chars)) 0 = ds.value := by
        rw [Nat.ofDigitChars_append, Nat.ofDigitChars_append, Nat.ofDigitChars_replicate_zero]
        rfl
      simp only [magnitude, exponent, digits, Decimal.value, charsOf_some, Digits.afterZeros,
        List.length_append, List.length_replicate, hexponent, hvalue]
    · split
      · next hle =>
        obtain ⟨k, hk⟩ : ∃ k : Nat, point = k + ds.chars.length :=
          ⟨(point - ds.chars.length).toNat, by omega⟩
        have hzeros : point.toNat - ds.chars.length = k := by omega
        have hexponent : point - (ds.chars.length : ℤ) = k := by omega
        have hvalue : Nat.ofDigitChars 10 (ds.chars ++ List.replicate k '0') 0 =
            10 ^ k * ds.value := by
          rw [Nat.ofDigitChars_append, Nat.ofDigitChars_replicate_zero]
          rfl
        simp only [magnitude, exponent, digits, Decimal.value, Digits.charsOf, Option.map_none,
          Option.getD_none, List.append_nil, List.length_nil, Digits.beforeZeros, hzeros, hvalue,
          hexponent, zpow_natCast]
        push_cast
        ring
      · have hexponent : 0 - ((ds.chars.length - point.toNat : Nat) : ℤ) =
            point - ds.chars.length := by omega
        simp only [magnitude, exponent, digits, Decimal.value, Digits.charsOf_rest?,
          first_append_drop, List.length_drop, hexponent]
        rfl

theorem getLast?_rest? {k : Nat} {rest : Digits} (h : ds.rest? k = some rest) :
    rest.chars.getLast? = ds.chars.getLast? := by
  have hdrop : rest.chars = ds.chars.drop k := Digits.of?_eq_some_iff.mp h
  have hne := rest.ne_nil
  rw [hdrop] at hne ⊢
  rw [List.getLast?_drop, if_neg]
  exact fun hle => hne (List.drop_eq_nil_iff.mpr hle)

/-- A fraction ends with the last of the digits. -/
theorem getLast?_fraction_ofPlaces {fraction : Digits}
    (h : (ofPlaces layout ds point).fraction = some fraction) :
    fraction.chars.getLast? = ds.chars.getLast? := by
  unfold ofPlaces at h
  split at h
  · exact getLast?_rest? h
  · split at h
    · obtain rfl := Option.some.inj h
      exact List.getLast?_append_of_ne_nil _ ds.ne_nil
    · split at h
      · cases h
      · exact getLast?_rest? h

theorem negative_ofPlaces (layout : Layout) (ds : Digits) (point : ℤ) :
    (ofPlaces layout ds point).negative = false := by
  unfold ofPlaces
  split
  · rfl
  · split
    · rfl
    · split <;> rfl

theorem power_ofPlaces_ne_none (h : layout.highest < point) :
    (ofPlaces layout ds point).power ≠ none := by
  rw [ofPlaces, if_pos (.inr h)]
  exact nofun

/-- Nothing but digits are written where all of them stand before the point. -/
theorem ofPlaces_of_le (hlow : layout.lowest < point) (hhigh : point ≤ layout.highest)
    (hpoint : 0 < point) (hlength : ds.chars.length ≤ point) :
    (ofPlaces layout ds point).fraction = none ∧ (ofPlaces layout ds point).power = none := by
  rw [ofPlaces, if_neg (by omega), dif_neg (by omega), if_pos hlength]
  exact ⟨rfl, rfl⟩

theorem fraction_withSign (n : Numeral) (negative : Bool) :
    { n with negative }.fraction = n.fraction := rfl

theorem power_withSign (n : Numeral) (negative : Bool) : { n with negative }.power = n.power := rfl

theorem toDouble_withSign (n : Numeral) (negative : Bool) :
    { n with negative }.toDouble = .ofDecimal negative n.magnitude := rfl

/-- The sign of a numeral stands before the rest. -/
theorem chars_withSign {n : Numeral} (hn : n.negative = false) (negative : Bool) :
    { n with negative }.chars = signChars negative ++ n.chars := by
  rw [chars, chars, hn]
  rfl

/-- A numeral of digits alone, and the same with a fraction zero. -/
theorem chars_withZero {n : Numeral} (hfraction : n.fraction = none) (hpower : n.power = none) :
    { n with fraction := some .zero }.chars = n.chars ++ ['.', '0'] := by
  rw [chars, chars, hfraction, hpower]
  simp only [fractionChars, powerChars, List.append_nil, List.append_assoc]
  rfl

/-- A fraction zero does not change what is denoted. -/
theorem toDouble_withZero {n : Numeral} (hfraction : n.fraction = none) :
    { n with fraction := some .zero }.toDouble = n.toDouble := by
  refine Double.ofDecimal_congr ?_ n.negative
  have hdigits : { n with fraction := some .zero }.digits = n.digits ++ ['0'] := by
    rw [digits, digits, hfraction]
    exact congrArg (· ++ ['0']) (List.append_nil _).symm
  have hexponent : { n with fraction := some .zero }.magnitude.exponent =
      n.magnitude.exponent + -1 := by
    rw [magnitude, magnitude, hfraction]
    exact congrArg (· + -1) (sub_zero _).symm
  have hcoefficient : { n with fraction := some .zero }.magnitude.coefficient =
      10 * n.magnitude.coefficient := by
    rw [magnitude, hdigits, Nat.ofDigitChars_append, Nat.ofDigitChars_cons, Nat.ofDigitChars_nil]
    rfl
  rw [Decimal.value, Decimal.value, hexponent, hcoefficient, Decimal.zpow_ten_add, zpow_neg_one]
  push_cast
  ring

end Numeral

/-- The last digit is the remainder by ten. -/
theorem Digits.not_dvd_value {ds : Digits} (h : ds.chars.getLast? ≠ some '0') :
    ¬ 10 ∣ ds.value := by
  obtain ⟨before, c, hchars⟩ := (List.eq_nil_or_concat' _).resolve_left ds.ne_nil
  have hc : c.isDigit = true := ds.isDigit c (by rw [hchars]; simp)
  have hlast : c ≠ '0' := by
    rintro rfl
    exact h (by rw [hchars, List.getLast?_concat])
  have hvalue : ds.value = 10 * Nat.ofDigitChars 10 before 0 + (c.toNat - '0'.toNat) := by
    rw [value, hchars, Nat.ofDigitChars_append, Nat.ofDigitChars_cons, Nat.ofDigitChars_nil]
  have hzero : c.toNat ≠ '0'.toNat := fun h => hlast (Char.toNat_inj.mp h)
  have hrange : '0'.toNat ≤ c.toNat ∧ c.toNat ≤ '9'.toNat := by
    rw [Char.isDigit, Bool.and_eq_true, decide_eq_true_eq, decide_eq_true_eq] at hc
    exact hc
  have hnine : '9'.toNat = '0'.toNat + 9 := rfl
  omega

/-- The significant digits of a whole number stand before the point, since the last of them is not
zero. -/
theorem Decimal.length_significant_le {d : Decimal} (hd : 0 < d.coefficient) {m : Nat}
    (h : d.value = m) : ((Digits.significant hd).chars.length : ℤ) ≤ d.point := by
  refine Int.le_of_not_gt fun hlt => ?_
  obtain ⟨k, hk⟩ : ∃ k : Nat, d.point - (Digits.significant hd).chars.length = -(k + 1 : Nat) :=
    ⟨((Digits.significant hd).chars.length - d.point - 1).toNat, by omega⟩
  rw [value_eq_significant hd, hk, zpow_neg, zpow_natCast,
    mul_inv_eq_iff_eq_mul₀ (by positivity)] at h
  have hvalue : (Digits.significant hd).value = m * 10 ^ (k + 1) := by exact_mod_cast h
  have hlast : (Digits.significant hd).chars.getLast? ≠ some '0' := getLast?_significant
  refine Digits.not_dvd_value hlast ⟨m * 10 ^ k, ?_⟩
  rw [hvalue, pow_succ, ← Nat.mul_assoc, Nat.mul_comm]

namespace Double

open Decimal (zpow_ten_le_iff zpow_ten_lt_iff)

theorem toList_text (x : Double) : x.text.toList = x.chars := String.toList_ofList

/-- The double itself, but zero without a sign. -/
def unsignedZero : Double → Double
  | .finite negative units h => .finite (negative && decide (units ≠ 0)) units h
  | x => x

/-- The numeral that a finite double is written as. -/
def numeral (negative : Bool) (units : Nat) : Numeral :=
  if h : 0 < units then
    { Numeral.ofPlaces .standard (.significant (coefficient_shortest_pos h)) (shortest units).point
      with negative }
  else ⟨false, .zero, none, none⟩

theorem chars_numeral (negative : Bool) {units : Nat} (h : Representable units) :
    (numeral negative units).chars = (Double.finite negative units h).chars := by
  rw [numeral, chars]
  split
  · next hpos =>
    rw [if_neg hpos.ne', Numeral.chars_withSign (Numeral.negative_ofPlaces ..),
      Numeral.chars_ofPlaces]
    rfl
  · next hpos =>
    rw [if_pos (Nat.eq_zero_of_not_pos hpos)]
    rfl

theorem toDouble_numeral (negative : Bool) {units : Nat} (h : Representable units) :
    (numeral negative units).toDouble = (Double.finite negative units h).unsignedZero := by
  rw [numeral, unsignedZero]
  split
  · next hpos =>
    have hvalue := Numeral.value_ofPlaces .standard (.significant (coefficient_shortest_pos hpos))
      (shortest units).point
    rw [← Decimal.value_eq_significant] at hvalue
    have hread := ofDecimal_of_readsAs h (readsAs_shortest h) negative
    rw [decide_eq_true hpos.ne', Bool.and_true, ← hread, Numeral.toDouble_withSign]
    exact ofDecimal_congr hvalue negative
  · next hpos =>
    obtain rfl := Nat.eq_zero_of_not_pos hpos
    rw [decide_eq_false (not_not_intro rfl), Bool.and_false]
    have hvalue : (⟨false, .zero, none, none⟩ : Numeral).magnitude.value = unitsValue 0 := by
      rw [unitsValue, Nat.cast_zero, zero_div, Decimal.value]
      exact mul_eq_zero_of_left Nat.cast_zero _
    rw [Numeral.toDouble]
    dsimp only
    rw [ofDecimal_of_value h hvalue]

theorem read?_chars (negative : Bool) {units : Nat} (h : Representable units) :
    Numeral.read? (Double.finite negative units h).chars = some (numeral negative units) :=
  Numeral.read?_eq_some_iff.mpr (chars_numeral negative h)

theorem read?_nan : Numeral.read? nan.chars = none := by decide

theorem read?_infinity (negative : Bool) : Numeral.read? (infinity negative).chars = none := by
  cases negative <;> decide

/-- Reads the text of a double: a numeral, or a name for what is no number. -/
def ofChars (cs : List Char) : Double :=
  match Numeral.read? cs with
  | some n => n.toDouble
  | none => if cs = nan.chars then .nan else .infinity (cs.head? = some '-')

/-- **The text of a double reads back**, negative zero as zero. -/
theorem ofChars_chars (x : Double) : ofChars x.chars = x.unsignedZero := by
  cases x with
  | nan =>
    rw [ofChars, read?_nan]
    rfl
  | infinity negative =>
    rw [ofChars, read?_infinity]
    cases negative <;> rfl
  | finite negative units h =>
    rw [ofChars, read?_chars]
    exact toDouble_numeral negative h

/-- Doubles with the same text are the same, up to the sign of zero. -/
theorem chars_injective {x y : Double} (h : x.chars = y.chars) :
    x.unsignedZero = y.unsignedZero := by
  rw [← ofChars_chars, ← ofChars_chars, h]

/-! ## Fractions and exponents -/

/-- How many digits stand before the point tells how large a number is. -/
theorem point_le_iff {units k : Nat} (hunits : 0 < units) (h : Representable units)
    (hpow : Representable (10 ^ k * unitsPerOne)) :
    (shortest units).point ≤ k ↔ units < 10 ^ k * unitsPerOne := by
  obtain ⟨hlow, hhigh⟩ := Decimal.point_bounds (coefficient_shortest_pos hunits)
  have hvalue : unitsValue units < 10 ^ (k : ℤ) ↔ units < 10 ^ k * unitsPerOne := by
    rw [unitsValue, div_lt_iff₀ (Nat.cast_pos.mpr unitsPerOne_pos), zpow_natCast]
    exact_mod_cast Iff.rfl
  rw [← hvalue, ← shortest_lt_pow_iff hunits h hpow]
  constructor
  · exact fun hle => hhigh.trans_le (zpow_ten_le_iff.mpr hle)
  · exact fun hlt => Int.le_of_sub_one_lt (zpow_ten_lt_iff.mp (hlow.trans_lt hlt))

/-- From here on a number is written with an exponent. -/
def positionalLimit : Nat := Nat.pow 10 21 * unitsPerOne

theorem positionalLimit_pos : 0 < positionalLimit := by decide +kernel

theorem representable_positionalLimit : Representable positionalLimit := by decide +kernel

theorem point_le_highest_iff {units : Nat} (hunits : 0 < units) (h : Representable units) :
    (shortest units).point ≤ Layout.standard.highest ↔ units < positionalLimit := by
  -- No tactic is to work out the power, so its exponent is a variable.
  obtain ⟨k, hk⟩ : ∃ k, 21 = k := ⟨_, rfl⟩
  have hhighest : Layout.standard.highest = k := by
    rw [← hk]
    rfl
  have hlimit : positionalLimit = 10 ^ k * unitsPerOne := by
    unfold positionalLimit
    rw [hk, Nat.pow_eq]
  rw [hhighest, hlimit]
  exact point_le_iff hunits h (hlimit ▸ representable_positionalLimit)

/-- A large number has an exponent. -/
theorem power_numeral_ne_none {negative : Bool} {units : Nat} (h : Representable units)
    (hle : positionalLimit ≤ units) : (numeral negative units).power ≠ none := by
  have hunits : 0 < units := positionalLimit_pos.trans_le hle
  have hpoint : Layout.standard.highest < (shortest units).point :=
    not_le.mp fun hpoint => hle.not_gt ((point_le_highest_iff hunits h).mp hpoint)
  rw [numeral, dif_pos hunits, Numeral.power_withSign]
  exact Numeral.power_ofPlaces_ne_none hpoint

/-- A whole number that is not large is written with digits alone. -/
theorem numeral_of_dvd (negative : Bool) {units : Nat} (h : Representable units)
    (hdvd : unitsPerOne ∣ units) (hlt : units < positionalLimit) :
    (numeral negative units).fraction = none ∧ (numeral negative units).power = none := by
  rw [numeral]
  split
  · next hunits =>
    obtain ⟨m, hm⟩ : ∃ m : Nat, (shortest units).value = m := by
      obtain ⟨n, hn⟩ := hdvd
      rw [Nat.mul_comm] at hn
      rw [hn] at h hunits ⊢
      exact shortest_of_dvd (Nat.pos_of_mul_pos_right hunits) h
    have hhigh := (point_le_highest_iff hunits h).mpr hlt
    have hlength := Decimal.length_significant_le (coefficient_shortest_pos hunits) hm
    have hpos := List.length_pos_iff.mpr
      (Digits.significant (coefficient_shortest_pos hunits)).ne_nil
    have hlow : Layout.standard.lowest = -6 := rfl
    rw [Numeral.power_withSign, Numeral.fraction_withSign]
    exact Numeral.ofPlaces_of_le (by omega) hhigh (by omega) hlength
  · exact ⟨rfl, rfl⟩

/-- Large doubles are whole numbers. -/
theorem dvd_of_le {units : Nat} (h : Representable units) (hle : positionalLimit ≤ units) :
    unitsPerOne ∣ units := by
  obtain ⟨k, hk⟩ : ∃ k, 1074 = k := ⟨_, rfl⟩
  have hone : unitsPerOne = Nat.pow 2 k := by
    unfold unitsPerOne
    rw [hk]
  have hpow : Nat.pow 2 (k + 52) ≤ positionalLimit := by
    rw [← hk]
    decide +kernel
  have hlog : k + 52 ≤ units.log2 :=
    (Nat.le_log2 (positionalLimit_pos.trans_le hle).ne').mpr (hpow.trans hle)
  rw [hone]
  exact Nat.dvd_trans (Nat.pow_dvd_pow 2 (Nat.le_sub_of_add_le hlog)) h.2

theorem getLast?_fraction_numeral {negative : Bool} {units : Nat} {fraction : Digits}
    (h : (numeral negative units).fraction = some fraction) :
    fraction.chars.getLast? ≠ some '0' := by
  rw [numeral] at h
  split at h
  · rw [Numeral.fraction_withSign] at h
    rw [Numeral.getLast?_fraction_ofPlaces h]
    exact Decimal.getLast?_significant
  · exact absurd h nofun

/-- No double is written with a fraction zero. -/
theorem chars_ne_append_point_zero (x : Double) (cs : List Char) : x.chars ≠ cs ++ ['.', '0'] := by
  intro h
  cases x with
  | nan | infinity =>
    have hlast := congrArg List.getLast? h
    simp [chars] at hlast
  | finite negative units hunits =>
    rw [← chars_numeral negative hunits] at h
    obtain ⟨-, fraction, hfraction, hlast⟩ := Numeral.fraction_of_chars_eq h
    exact getLast?_fraction_numeral hfraction hlast

/-! ## Characters -/

/-- The characters that the text of a double may have in it. -/
def isNumberChar (c : Char) : Bool := c.isAlphanum || ['-', '.', '+'].contains c

theorem isNumberChar_of_mem_chars {x : Double} {c : Char} (h : c ∈ x.chars) :
    isNumberChar c = true := by
  cases x with
  | nan => exact List.all_eq_true.mp (by decide : nan.chars.all isNumberChar = true) c h
  | infinity negative =>
    have hall : (infinity negative).chars.all isNumberChar = true := by cases negative <;> decide
    exact List.all_eq_true.mp hall c h
  | finite negative units hunits =>
    rw [← chars_numeral negative hunits] at h
    rcases Numeral.mem_chars h with h | h
    · rw [isNumberChar, Char.isAlphanum, h, Bool.or_true, Bool.true_or]
    · simp only [List.mem_cons, List.not_mem_nil, or_false] at h
      rcases h with rfl | rfl | rfl | rfl <;> decide

/-- Delimiters are none of the characters that numbers are written with. -/
theorem not_delimiter_of_mem_chars {delimiters : List Char}
    (h : delimiters.any isNumberChar = false) (x : Double) : ∀ c ∈ x.chars, c ∉ delimiters := by
  intro c hc hd
  exact List.any_eq_false.mp h c hd (isNumberChar_of_mem_chars hc)

end Double

end Treewalk
