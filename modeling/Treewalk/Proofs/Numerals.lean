import Mathlib.Data.List.Basic
import Mathlib.Tactic.ByContra
import Treewalk.Number.Decimal

/-!
# Decimal numerals

A `Numeral` is what the grammar of decimal numerals derives: an optional minus sign, digits,
optionally a point and digits, and at the end optionally an exponent, that is the letter `e`, a
sign and digits. `Numeral.chars` writes it down, `Numeral.toDouble` is the double it denotes, and
`Numeral.read?` reads one: it accepts what is a numeral and nothing else, `read?_eq_some_iff`. So a
text is at most one numeral.

`Numeral.ofPlaces` gives the numeral of some significant digits around a decimal point. Its text is
the one that `Decimal.place` lays out.
-/

set_option autoImplicit false

namespace Treewalk

/-! ## Digits -/

/-- A digit, or several. -/
structure Digits where
  chars : List Char
  ne_nil : chars ≠ []
  isDigit : ∀ c ∈ chars, c.isDigit = true

namespace Digits

theorem not_mem {ds : Digits} {c : Char} (hc : c.isDigit = false) : c ∉ ds.chars := by
  intro h
  rw [ds.isDigit c h] at hc
  exact Bool.noConfusion hc

def of? (cs : List Char) : Option Digits :=
  if h : cs ≠ [] ∧ cs.all Char.isDigit = true then
    some ⟨cs, h.1, List.all_eq_true.mp h.2⟩
  else none

theorem of?_eq_some_iff {cs : List Char} {ds : Digits} : of? cs = some ds ↔ ds.chars = cs := by
  rw [of?]
  constructor
  · intro h
    split at h
    · cases h
      rfl
    · exact absurd h nofun
  · rintro rfl
    rw [dif_pos ⟨ds.ne_nil, List.all_eq_true.mpr ds.isDigit⟩]

@[simp] theorem of?_chars (ds : Digits) : of? ds.chars = some ds := of?_eq_some_iff.mpr rfl

/-- The digits there are, if any. -/
def charsOf (o : Option Digits) : List Char := (o.map chars).getD []

theorem charsOf_of? {cs : List Char} (h : ∀ c ∈ cs, c.isDigit = true) : charsOf (of? cs) = cs := by
  by_cases hnil : cs = []
  · subst hnil
    rfl
  · rw [of?, dif_pos ⟨hnil, List.all_eq_true.mpr h⟩]
    rfl

/-- The digits of a number. -/
def ofNat (n : Nat) : Digits where
  chars := Decimal.digits n
  ne_nil := Nat.toDigits_ne_nil
  isDigit _ := Nat.isDigit_of_mem_toDigits (by decide) (by decide)

def zero : Digits := ofNat 0

def value (ds : Digits) : Nat := Nat.ofDigitChars 10 ds.chars 0

@[simp] theorem value_ofNat (n : Nat) : (ofNat n).value = n := Nat.ofDigitChars_ten_toDigits

/-- The digits behind some zeros. -/
def afterZeros (ds : Digits) (k : Nat) : Digits where
  chars := List.replicate k '0' ++ ds.chars
  ne_nil := List.append_ne_nil_of_right_ne_nil _ ds.ne_nil
  isDigit c hc := by
    rcases List.mem_append.mp hc with hc | hc
    · rw [List.eq_of_mem_replicate hc]
      rfl
    · exact ds.isDigit c hc

/-- The digits before some zeros. -/
def beforeZeros (ds : Digits) (k : Nat) : Digits where
  chars := ds.chars ++ List.replicate k '0'
  ne_nil := List.append_ne_nil_of_left_ne_nil ds.ne_nil _
  isDigit c hc := by
    rcases List.mem_append.mp hc with hc | hc
    · exact ds.isDigit c hc
    · rw [List.eq_of_mem_replicate hc]
      rfl

/-- The first digits, of which there is at least one. -/
def first (ds : Digits) (k : Nat) (hk : 0 < k) : Digits where
  chars := ds.chars.take k
  ne_nil := by
    rw [ne_eq, List.take_eq_nil_iff, not_or]
    exact ⟨Nat.ne_of_gt hk, ds.ne_nil⟩
  isDigit c hc := ds.isDigit c (List.mem_of_mem_take hc)

/-- The digits after the first ones, if there are any. -/
def rest? (ds : Digits) (k : Nat) : Option Digits := of? (ds.chars.drop k)

theorem charsOf_rest? (ds : Digits) (k : Nat) : charsOf (ds.rest? k) = ds.chars.drop k :=
  charsOf_of? fun c hc => ds.isDigit c (List.mem_of_mem_drop hc)

end Digits

/-! ## Numerals -/

/-- A decimal numeral, by its parts. An exponent may be negative. -/
structure Numeral where
  negative : Bool
  whole : Digits
  fraction : Option Digits
  power : Option (Bool × Digits)

namespace Numeral

/-- A fraction stands behind a point. -/
def fractionChars : Option Digits → List Char
  | none => []
  | some ds => '.' :: ds.chars

/-- An exponent stands behind a letter, and has a sign. -/
def powerChars : Option (Bool × Digits) → List Char
  | none => []
  | some (negative, ds) => 'e' :: (if negative then '-' else '+') :: ds.chars

def signChars (negative : Bool) : List Char := if negative then ['-'] else []

def chars (n : Numeral) : List Char :=
  signChars n.negative ++ (n.whole.chars ++ fractionChars n.fraction ++ powerChars n.power)

/-- All digits before the exponent. -/
def digits (n : Numeral) : List Char := n.whole.chars ++ Digits.charsOf n.fraction

def exponent (n : Numeral) : Int :=
  match n.power with
  | none => 0
  | some (negative, ds) => if negative then -ds.value else ds.value

/-- The magnitude that a numeral denotes. -/
def magnitude (n : Numeral) : Decimal where
  coefficient := Nat.ofDigitChars 10 n.digits 0
  exponent := n.exponent - (Digits.charsOf n.fraction).length

/-- The double nearest to what a numeral denotes. -/
def toDouble (n : Numeral) : Double := .ofDecimal n.negative n.magnitude

/-! ## Reading -/

def readFraction? : List Char → Option (Option Digits)
  | [] => some none
  | '.' :: cs => (Digits.of? cs).map some
  | _ => none

def readPower? : List Char → Option (Option (Bool × Digits))
  | [] => some none
  | 'e' :: '-' :: cs => (Digits.of? cs).map fun ds => some (true, ds)
  | 'e' :: '+' :: cs => (Digits.of? cs).map fun ds => some (false, ds)
  | _ => none

/-- Reads a numeral without its sign: the exponent starts at the letter, and the fraction at the
point before it. -/
def readUnsigned? (negative : Bool) (cs : List Char) : Option Numeral := do
  let mantissa := cs.takeWhile (· ≠ 'e')
  let whole ← Digits.of? (mantissa.takeWhile (· ≠ '.'))
  let fraction ← readFraction? (mantissa.dropWhile (· ≠ '.'))
  let power ← readPower? (cs.dropWhile (· ≠ 'e'))
  pure ⟨negative, whole, fraction, power⟩

def read? : List Char → Option Numeral
  | '-' :: cs => readUnsigned? true cs
  | cs => readUnsigned? false cs

theorem readFraction?_fractionChars (o : Option Digits) :
    readFraction? (fractionChars o) = some o := by
  cases o with
  | none => rfl
  | some ds => rw [fractionChars, readFraction?, Digits.of?_chars, Option.map_some]

theorem readPower?_powerChars (o : Option (Bool × Digits)) :
    readPower? (powerChars o) = some o := by
  match o with
  | none => rfl
  | some (true, ds) => simp [powerChars, readPower?]
  | some (false, ds) => simp [powerChars, readPower?]

/-- Before the exponent stand digits and a point. -/
theorem not_mem_mantissa (n : Numeral) {c : Char} (hdigit : c.isDigit = false) (hpoint : c ≠ '.') :
    c ∉ n.whole.chars ++ fractionChars n.fraction := by
  rw [List.mem_append, not_or]
  refine ⟨Digits.not_mem hdigit, ?_⟩
  cases n.fraction with
  | none => exact List.not_mem_nil
  | some ds =>
    rw [fractionChars, List.mem_cons, not_or]
    exact ⟨hpoint, Digits.not_mem hdigit⟩

/-- The exponent starts where the first `e` stands. -/
theorem span_power (n : Numeral) :
    let cs := n.whole.chars ++ fractionChars n.fraction ++ powerChars n.power
    cs.takeWhile (· ≠ 'e') = n.whole.chars ++ fractionChars n.fraction ∧
      cs.dropWhile (· ≠ 'e') = powerChars n.power := by
  have hbefore : ∀ c ∈ n.whole.chars ++ fractionChars n.fraction, decide (c ≠ 'e') = true := by
    intro c hc
    rw [decide_eq_true_eq]
    rintro rfl
    exact n.not_mem_mantissa rfl (by decide) hc
  dsimp only
  rw [List.takeWhile_append_of_pos hbefore, List.dropWhile_append_of_pos hbefore]
  cases n.power with
  | none => simp [powerChars]
  | some p => simp [powerChars]

/-- The fraction starts where the first point stands. -/
theorem span_fraction (n : Numeral) :
    (n.whole.chars ++ fractionChars n.fraction).takeWhile (· ≠ '.') = n.whole.chars ∧
      (n.whole.chars ++ fractionChars n.fraction).dropWhile (· ≠ '.') =
        fractionChars n.fraction := by
  have hbefore : ∀ c ∈ n.whole.chars, decide (c ≠ '.') = true := by
    intro c hc
    rw [decide_eq_true_eq]
    rintro rfl
    exact Digits.not_mem rfl hc
  rw [List.takeWhile_append_of_pos hbefore, List.dropWhile_append_of_pos hbefore]
  cases n.fraction with
  | none => simp [fractionChars]
  | some ds => simp [fractionChars]

theorem readUnsigned?_eq (n : Numeral) :
    readUnsigned? n.negative
      (n.whole.chars ++ fractionChars n.fraction ++ powerChars n.power) = some n := by
  obtain ⟨hmantissa, hpower⟩ := n.span_power
  obtain ⟨hwhole, hfraction⟩ := n.span_fraction
  simp only [readUnsigned?, hmantissa, hpower, hwhole, hfraction, Digits.of?_chars,
    readFraction?_fractionChars, readPower?_powerChars, Option.bind_eq_bind, Option.bind_some,
    Option.pure_def]

theorem read?_chars (n : Numeral) : read? n.chars = some n := by
  have hread := n.readUnsigned?_eq
  cases hsign : n.negative with
  | true =>
    rw [hsign] at hread
    rw [chars, hsign]
    exact hread
  | false =>
    rw [hsign] at hread
    rw [chars, hsign, signChars, if_neg Bool.false_ne_true, List.nil_append, read?]
    · exact hread
    -- The first character is a digit, and so no sign.
    · intro cs hcs
      obtain ⟨c, rest, hwhole⟩ := List.exists_cons_of_ne_nil n.whole.ne_nil
      rw [hwhole, List.cons_append, List.cons_append, List.cons.injEq] at hcs
      have hdigit : c.isDigit = true := n.whole.isDigit c (hwhole ▸ List.mem_cons_self)
      rw [hcs.1] at hdigit
      exact absurd hdigit (by decide)

theorem fractionChars_of_readFraction? {cs : List Char} {o : Option Digits}
    (h : readFraction? cs = some o) : fractionChars o = cs := by
  unfold readFraction? at h
  split at h
  · cases h
    rfl
  · obtain ⟨ds, hds, rfl⟩ := Option.map_eq_some_iff.mp h
    rw [fractionChars, Digits.of?_eq_some_iff.mp hds]
  · exact absurd h nofun

theorem powerChars_of_readPower? {cs : List Char} {o : Option (Bool × Digits)}
    (h : readPower? cs = some o) : powerChars o = cs := by
  unfold readPower? at h
  split at h
  · cases h
    rfl
  · obtain ⟨ds, hds, rfl⟩ := Option.map_eq_some_iff.mp h
    rw [powerChars, Digits.of?_eq_some_iff.mp hds, if_pos rfl]
  · obtain ⟨ds, hds, rfl⟩ := Option.map_eq_some_iff.mp h
    rw [powerChars, Digits.of?_eq_some_iff.mp hds, if_neg Bool.false_ne_true]
  · exact absurd h nofun

theorem chars_of_readUnsigned? {negative : Bool} {cs : List Char} {n : Numeral}
    (h : readUnsigned? negative cs = some n) : n.chars = signChars negative ++ cs := by
  simp only [readUnsigned?, Option.bind_eq_bind, Option.bind_eq_some_iff, Option.pure_def,
    Option.some.injEq] at h
  obtain ⟨whole, hwhole, fraction, hfraction, power, hpower, rfl⟩ := h
  rw [chars, Digits.of?_eq_some_iff.mp hwhole, fractionChars_of_readFraction? hfraction,
    powerChars_of_readPower? hpower, List.takeWhile_append_dropWhile,
    List.takeWhile_append_dropWhile]

/-- **Reading accepts the numerals.** -/
theorem read?_eq_some_iff {cs : List Char} {n : Numeral} : read? cs = some n ↔ n.chars = cs := by
  constructor
  · intro h
    unfold read? at h
    split at h
    · exact chars_of_readUnsigned? h
    · exact chars_of_readUnsigned? h
  · rintro rfl
    exact n.read?_chars

/-! ## Characters -/

theorem not_mem_signChars {c : Char} (hc : c ≠ '-') (negative : Bool) : c ∉ signChars negative := by
  cases negative <;> simp [signChars, hc]

/-- A numeral without an exponent has no letter. -/
theorem power_ne_none_iff {n : Numeral} : n.power ≠ none ↔ 'e' ∈ n.chars := by
  rw [chars, List.mem_append, List.mem_append,
    or_iff_right (not_mem_signChars (by decide) _),
    or_iff_right (n.not_mem_mantissa rfl (by decide))]
  cases n.power with
  | none => simp [powerChars]
  | some p => simp [powerChars]

/-- Where a numeral ends in a point and a zero, it has no exponent, and its fraction ends in the
zero. -/
theorem fraction_of_chars_eq {n : Numeral} {cs : List Char} (h : n.chars = cs ++ ['.', '0']) :
    n.power = none ∧
      ∃ fraction, n.fraction = some fraction ∧ fraction.chars.getLast? = some '0' := by
  match hpower : n.power with
  | some (negative, ds) =>
    -- An exponent ends in a sign and digits, and no point is among them.
    have hdigits : (if negative then '-' else '+') :: ds.chars <:+ n.chars := by
      rw [chars, hpower, powerChars, ← List.append_assoc]
      exact (List.suffix_cons _ _).trans (List.suffix_append _ _)
    have hend : ['.', '0'] <:+ (if negative then '-' else '+') :: ds.chars :=
      List.suffix_of_suffix_length_le ⟨cs, h.symm⟩ hdigits
        (Nat.succ_le_succ (List.length_pos_iff.mpr ds.ne_nil))
    rcases List.mem_cons.mp (hend.subset List.mem_cons_self) with hsign | hdigit
    · cases negative <;> exact absurd hsign (by decide)
    · exact absurd hdigit (Digits.not_mem rfl)
  | none =>
    refine ⟨rfl, ?_⟩
    rw [chars, hpower, powerChars, List.append_nil] at h
    cases hfraction : n.fraction with
    | none =>
      rw [hfraction, fractionChars, List.append_nil] at h
      have hmem : '.' ∈ signChars n.negative ++ n.whole.chars := by simp [h]
      rcases List.mem_append.mp hmem with hmem | hmem
      · exact absurd hmem (not_mem_signChars (by decide) _)
      · exact absurd hmem (Digits.not_mem rfl)
    | some fraction =>
      refine ⟨fraction, rfl, ?_⟩
      rw [hfraction, fractionChars, ← List.append_assoc] at h
      have hlast := congrArg List.getLast? h
      rw [List.getLast?_append_of_ne_nil _ (List.cons_ne_nil _ _),
        List.getLast?_append_of_ne_nil _ (List.cons_ne_nil _ _)] at hlast
      rw [← List.getLast?_append_of_ne_nil ['.'] fraction.ne_nil]
      exact hlast

/-- No numeral has a point and a zero behind its exponent. -/
theorem read?_append_point_zero {n : Numeral} (h : n.power ≠ none) :
    read? (n.chars ++ ['.', '0']) = none := by
  rw [Option.eq_none_iff_forall_ne_some]
  intro n' hread
  have hchars := read?_eq_some_iff.mp hread
  have hletter : 'e' ∈ n'.chars := hchars ▸ List.mem_append_left _ (power_ne_none_iff.mp h)
  exact power_ne_none_iff.mpr hletter (fraction_of_chars_eq hchars).1

/-- What a numeral is made of. -/
theorem mem_chars {n : Numeral} {c : Char} (h : c ∈ n.chars) :
    c.isDigit = true ∨ c ∈ ['-', '.', 'e', '+'] := by
  by_contra hc
  simp only [List.mem_cons, List.not_mem_nil, or_false, not_or, Bool.not_eq_true] at hc
  obtain ⟨hdigit, hminus, hpoint, he, hplus⟩ := hc
  rw [chars, List.mem_append, or_iff_right (not_mem_signChars hminus _), List.mem_append,
    or_iff_right (n.not_mem_mantissa hdigit hpoint)] at h
  match hpower : n.power with
  | none =>
    rw [hpower] at h
    exact List.not_mem_nil h
  | some (negative, ds) =>
    rw [hpower, powerChars, List.mem_cons, List.mem_cons, or_iff_right he,
      or_iff_left (Digits.not_mem hdigit)] at h
    cases negative
    · exact hplus h
    · exact hminus h

/-! ## Digits around a decimal point -/

/-- The numeral of some digits with the point after the given number of places. -/
def ofPlaces (layout : Layout) (ds : Digits) (point : Int) : Numeral :=
  if point ≤ layout.lowest ∨ layout.highest < point then
    ⟨false, ds.first 1 Nat.one_pos, ds.rest? 1,
      some (decide (point - 1 < 0), .ofNat (point - 1).natAbs)⟩
  else if h : point ≤ 0 then ⟨false, .zero, some (ds.afterZeros (-point).toNat), none⟩
  else if ds.chars.length ≤ point then
    ⟨false, ds.beforeZeros (point.toNat - ds.chars.length), none, none⟩
  else ⟨false, ds.first point.toNat (by omega), ds.rest? point.toNat, none⟩

theorem fractionChars_rest? (ds : Digits) (k : Nat) :
    fractionChars (ds.rest? k) = if ds.chars.length ≤ k then [] else '.' :: ds.chars.drop k := by
  have hchars := ds.charsOf_rest? k
  cases hrest : ds.rest? k with
  | none =>
    rw [hrest] at hchars
    rw [if_pos (List.drop_eq_nil_iff.mp hchars.symm)]
    rfl
  | some rest =>
    rw [hrest] at hchars
    have hdrop : rest.chars = ds.chars.drop k := hchars
    rw [if_neg, fractionChars, hdrop]
    intro hle
    exact rest.ne_nil (hdrop.trans (List.drop_eq_nil_iff.mpr hle))

/-- The layout writes down this numeral. -/
theorem chars_ofPlaces (layout : Layout) (ds : Digits) (point : Int) :
    (ofPlaces layout ds point).chars = Decimal.place layout ds.chars point := by
  unfold ofPlaces Decimal.place
  split
  · simp [chars, signChars, fractionChars_rest?, powerChars, Decimal.scientific, Digits.first,
      Digits.ofNat]
  · split
    · simp [chars, signChars, fractionChars, powerChars, Digits.zero, Digits.ofNat,
        Digits.afterZeros, Decimal.digits]
    · split
      · simp [chars, signChars, fractionChars, powerChars, Digits.beforeZeros]
      · have hlt : ¬ ds.chars.length ≤ point.toNat := by omega
        simp [chars, signChars, fractionChars_rest?, powerChars, Digits.first, hlt]

end Numeral

end Treewalk
