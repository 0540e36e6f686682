import Treewalk.Proofs.CallProtocol
import Treewalk.Proofs.NumberText

/-!
# The text of a float

A float that is a whole number is written with a fraction, so that it is told from an integer. Below
`10 ^ 21` this gives a numeral that is read back as the float. Larger numbers are written with an
exponent already, and nothing can stand behind one: what is written for them is no numeral,
`read?_floatText_of_le`.

The text is the same wherever the float is shown: on its own, inspected, as an element of a list,
and as a part of interpolated text.
-/

set_option autoImplicit false

namespace Treewalk

/-- The text is a numeral, and it is read as this double, negative zero as zero. -/
def Double.ReadFrom (x : Double) (s : String) : Prop :=
  ∃ n, Numeral.read? s.toList = some n ∧ n.toDouble = x.unsignedZero

/-- Interpolating parts that yield these values gives their texts, one after the other. -/
theorem dstr_endsWith {t : Tag} {parts : List Node} {m m₁ : Machine} {vs : List Value}
    (h : AllYield parts (m.record (.started .evaluating (.dstr t parts))) vs m₁) :
    ∃ m₂, (Node.dstr t parts).EndsWith m
      (.value (.string (String.join (vs.map Value.text)))) m₂ := by
  obtain ⟨least, hall⟩ := h.exists_all
  have hparts := hall least (Nat.le_refl least) [] fun vs =>
    pure (.string (String.join (vs.map Value.text)))
  rw [List.append_nil] at hparts
  refine ⟨_, Node.endsWith_iff_step.mpr ⟨rfl, least, m₁, ?_, rfl⟩⟩
  rw [Eval.step, Eval.interpolate, Eval.bind_assoc]
  refine hparts.trans ?_
  change (pure (.string (String.join ((vs ++ []).map Value.text))) : Eval Value) m₁ = _
  rw [List.append_nil]
  rfl

namespace Value

theorem toList_floatText (x : Double) :
    (floatText x).toList = if x.isInteger then x.chars ++ ['.', '0'] else x.chars := by
  rw [floatText]
  split
  · rw [String.toList_append, Double.toList_text]
    rfl
  · exact x.toList_text

variable {negative : Bool} {units : Nat}

/-- Below the limit the text of a float reads back. -/
theorem readFrom_floatText (h : Representable units) (hlt : units < Double.positionalLimit) :
    (Double.finite negative units h).ReadFrom (floatText (.finite negative units h)) := by
  rw [Double.ReadFrom, toList_floatText]
  split
  · next hinteger =>
    have hdvd : Double.unitsPerOne ∣ units := of_decide_eq_true hinteger
    obtain ⟨hfraction, hpower⟩ := Double.numeral_of_dvd negative h hdvd hlt
    refine ⟨{ Double.numeral negative units with fraction := some .zero }, ?_, ?_⟩
    · rw [Numeral.read?_eq_some_iff, Numeral.chars_withZero hfraction hpower,
        Double.chars_numeral]
    · rw [Numeral.toDouble_withZero hfraction, Double.toDouble_numeral]
  · exact ⟨_, Double.read?_chars negative h, Double.toDouble_numeral negative h⟩

/-- From the limit on the text of a float is no numeral. -/
theorem read?_floatText_of_le (h : Representable units) (hle : Double.positionalLimit ≤ units) :
    Numeral.read? (floatText (.finite negative units h)).toList = none := by
  have hinteger : (Double.finite negative units h).isInteger = true :=
    decide_eq_true (Double.dvd_of_le h hle)
  rw [toList_floatText, if_pos hinteger, ← Double.chars_numeral]
  exact Numeral.read?_append_point_zero (Double.power_numeral_ne_none h hle)

/-- The elements of a list are inspected. -/
theorem inspectAll_eq_map (vs : List Value) : inspectAll vs = vs.map inspect := by
  induction vs with
  | nil => rfl
  | cons v vs ih => rw [inspectAll, ih, List.map_cons]

end Value

/-- **What is written for a float.** -/
theorem float_text (negative : Bool) (units : Nat) (h : Representable units) :
    let x := Double.finite negative units h
    (units < Double.positionalLimit → x.ReadFrom (Value.float x).text) ∧
    (Double.positionalLimit ≤ units → Numeral.read? (Value.float x).text.toList = none) ∧
    (Value.float x).inspect = (Value.float x).text ∧
    (∀ before after : List Value, (Value.list (before ++ .float x :: after)).text =
      "[" ++ ", ".intercalate (before.map Value.inspect ++ (Value.float x).text ::
        after.map Value.inspect) ++ "]") ∧
    ∀ (t : Tag) (parts : List Node) (m m₁ : Machine) (before after : List Value),
      AllYield parts (m.record (.started .evaluating (.dstr t parts)))
        (before ++ .float x :: after) m₁ →
      ∃ m₂, (Node.dstr t parts).EndsWith m
        (.value (.string (String.join (before.map Value.text) ++ (Value.float x).text ++
          String.join (after.map Value.text)))) m₂ := by
  intro x
  refine ⟨Value.readFrom_floatText h, Value.read?_floatText_of_le h, rfl, fun before after => ?_,
    fun t parts m m₁ before after hparts => ?_⟩
  · show (Value.list (before ++ .float x :: after)).inspect = _
    rw [Value.inspect, Value.inspectAll_eq_map, List.map_append, List.map_cons]
    rfl
  · obtain ⟨m₂, hends⟩ := dstr_endsWith hparts
    rw [List.map_append, List.map_cons, String.join_append, String.join_cons,
      ← String.append_assoc] at hends
    exact ⟨m₂, hends⟩

theorem float_text_two_and_a_half :
    Representable (5 * Nat.pow 2 1073) ∧
    ∃ h, (Double.finite true (5 * Nat.pow 2 1073) h).ReadFrom
      (Value.float (.finite true (5 * Nat.pow 2 1073) h)).text := by
  have h : Representable (5 * Nat.pow 2 1073) := by decide +kernel
  exact ⟨h, h, (float_text true _ h).1 (by decide +kernel)⟩

/-- The first float whose text is no numeral. -/
theorem float_text_ten_pow :
    (Value.float (.finite false _ Double.representable_positionalLimit)).text = "1e+21.0" ∧
    Numeral.read? "1e+21.0".toList = none := by
  decide +kernel

end Treewalk
