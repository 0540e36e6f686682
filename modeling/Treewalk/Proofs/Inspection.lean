import Treewalk.Proofs.Delimiters
import Treewalk.Proofs.FloatText

/-!
# Inspected values

What is shown of a value when it is inspected says which value it is, up to the sign of zero:
`inspect_eq_iff`. This holds of values nested to any depth, and whatever the strings in them
contain. Only the names of symbols are taken as they are, so those must not contain what separates
the elements of a list or closes it; and integers must be whole numbers, as floats that are whole
numbers are told from them by their fraction.

The first character tells what form a value has, `form_of_head`. Then each form is told apart on its
own, with anything behind it that can follow an element of a list.
-/

set_option autoImplicit false

namespace Treewalk

namespace Double

@[simp] theorem isInteger_unsignedZero (x : Double) : x.unsignedZero.isInteger = x.isInteger := by
  cases x <;> rfl

@[simp] theorem chars_unsignedZero (x : Double) : x.unsignedZero.chars = x.chars := by
  cases x with
  | nan | infinity => rfl
  | finite negative units h =>
    by_cases hzero : units = 0
    · simp [unsignedZero, chars, hzero]
    · simp [unsignedZero, chars, hzero]

end Double

namespace Value

/-- Integers are whole numbers, and names of symbols have in them neither what separates the
elements of a list nor what closes it. -/
inductive Legible : Value → Prop
  | nil : Legible .nil
  | bool (b : Bool) : Legible (.bool b)
  | int {x : Double} : x.isInteger = true → Legible (.int x)
  | float (x : Double) : Legible (.float x)
  | string (s : String) : Legible (.string s)
  | symbol {name : String} : (∀ c ∈ name.toList, c ∉ [',', ']']) → Legible (.symbol name)
  | list {vs : List Value} : (∀ v ∈ vs, Legible v) → Legible (.list vs)

mutual

/-- The value with all its zeros positive. -/
def unsignedZeros : Value → Value
  | .int x => .int x.unsignedZero
  | .float x => .float x.unsignedZero
  | .list vs => .list (unsignedZerosAll vs)
  | v => v

def unsignedZerosAll : List Value → List Value
  | [] => []
  | v :: vs => unsignedZeros v :: unsignedZerosAll vs

end

theorem unsignedZerosAll_eq_map (vs : List Value) :
    unsignedZerosAll vs = vs.map unsignedZeros := by
  induction vs with
  | nil => rfl
  | cons v vs ih => rw [unsignedZerosAll, ih, List.map_cons]

theorem floatText_unsignedZero (x : Double) : floatText x.unsignedZero = floatText x := by
  rw [floatText, floatText, Double.text, Double.text, Double.isInteger_unsignedZero,
    Double.chars_unsignedZero]

mutual

/-- The sign of zero is not shown. -/
theorem inspect_unsignedZeros : (v : Value) → v.unsignedZeros.inspect = v.inspect
  | .nil | .bool _ | .string _ | .symbol _ => rfl
  | .int x => congrArg String.ofList x.chars_unsignedZero
  | .float x => floatText_unsignedZero x
  | .list vs => by rw [unsignedZeros, inspect, inspect, inspectAll_unsignedZerosAll vs]

theorem inspectAll_unsignedZerosAll :
    (vs : List Value) → inspectAll (unsignedZerosAll vs) = inspectAll vs
  | [] => rfl
  | v :: vs => by
    rw [unsignedZerosAll, inspectAll, inspectAll, inspect_unsignedZeros v,
      inspectAll_unsignedZerosAll vs]

end

/-- The characters that are shown of a value. -/
def shown (v : Value) : List Char := v.inspect.toList

theorem shown_int (x : Double) : (Value.int x).shown = x.chars := x.toList_text

theorem shown_float (x : Double) :
    (Value.float x).shown = if x.isInteger then x.chars ++ ['.', '0'] else x.chars :=
  toList_floatText x

theorem shown_symbol (name : String) : (Value.symbol name).shown = ':' :: name.toList := by
  rw [shown, inspect, String.toList_append]
  rfl

theorem shown_list (vs : List Value) :
    (Value.list vs).shown = '[' :: (Text.separated shown vs ++ [']']) := by
  rw [shown, inspect, inspectAll_eq_map, String.toList_append, String.toList_append,
    String.toList_intercalate, List.map_map]
  exact congrArg (fun cs => '[' :: (cs ++ [']'])) (Text.intercalate_eq_separated shown vs)

/-! ## Forms -/

/-- The forms of value that are shown differently. -/
inductive Form where
  | nil
  | bool (value : Bool)
  | number
  | string
  | symbol
  | list

def form : Value → Form
  | .nil => .nil
  | .bool b => .bool b
  | .int _ | .float _ => .number
  | .string _ => .string
  | .symbol _ => .symbol
  | .list _ => .list

/-- The form that a first character tells. -/
def formOf (c : Char) : Form :=
  if c = 'n' then .nil
  else if c = 't' then .bool true
  else if c = 'f' then .bool false
  else if c = '"' then .string
  else if c = ':' then .symbol
  else if c = '[' then .list
  else .number

end Value

theorem Numeral.exists_chars_eq_cons (n : Numeral) :
    ∃ c cs, n.chars = c :: cs ∧ (c.isDigit = true ∨ c = '-') := by
  obtain ⟨c, cs, hwhole⟩ := List.exists_cons_of_ne_nil n.whole.ne_nil
  rw [chars, hwhole]
  cases n.negative with
  | true => exact ⟨'-', _, rfl, .inr rfl⟩
  | false => exact ⟨c, _, rfl, .inl (n.whole.isDigit c (hwhole ▸ List.mem_cons_self))⟩

/-- The text of a double starts as that of no other value does. -/
theorem Double.exists_chars_eq_cons (x : Double) :
    ∃ c cs, x.chars = c :: cs ∧ (c.isDigit = true ∨ c ∈ ['-', 'N', 'I']) := by
  cases x with
  | nan => exact ⟨'N', _, rfl, by decide⟩
  | infinity negative =>
    cases negative with
    | true => exact ⟨'-', _, rfl, by decide⟩
    | false => exact ⟨'I', _, rfl, by decide⟩
  | finite negative units h =>
    obtain ⟨c, cs, hchars, hc⟩ := (numeral negative units).exists_chars_eq_cons
    rw [← chars_numeral negative h]
    exact ⟨c, cs, hchars, hc.imp_right fun hc => by simp [hc]⟩

namespace Value

theorem formOf_number {c : Char} (h : c.isDigit = true ∨ c ∈ ['-', 'N', 'I']) :
    formOf c = .number ∧ c ≠ ']' := by
  have hne : ∀ d : Char, d.isDigit = false → d ∉ ['-', 'N', 'I'] → c ≠ d := by
    rintro d hdigit hmem rfl
    rcases h with h | h
    · exact Bool.noConfusion (hdigit.symm.trans h)
    · exact hmem h
  rw [formOf, if_neg (hne 'n' rfl (by decide)), if_neg (hne 't' rfl (by decide)),
    if_neg (hne 'f' rfl (by decide)), if_neg (hne '"' rfl (by decide)),
    if_neg (hne ':' rfl (by decide)), if_neg (hne '[' rfl (by decide))]
  exact ⟨rfl, hne ']' rfl (by decide)⟩

/-- **The first character tells the form of a value**, and no value starts as a list ends. -/
theorem form_of_head (v : Value) :
    ∃ c cs, v.shown = c :: cs ∧ formOf c = v.form ∧ c ≠ ']' := by
  cases v with
  | nil => exact ⟨'n', _, rfl, rfl, by decide⟩
  | bool b =>
    cases b with
    | true => exact ⟨'t', _, rfl, rfl, by decide⟩
    | false => exact ⟨'f', _, rfl, rfl, by decide⟩
  | int x =>
    obtain ⟨c, cs, hchars, hc⟩ := x.exists_chars_eq_cons
    exact ⟨c, cs, (shown_int x).trans hchars, formOf_number hc⟩
  | float x =>
    obtain ⟨c, cs, hchars, hc⟩ := x.exists_chars_eq_cons
    rw [shown_float, hchars]
    split
    · exact ⟨c, _, rfl, formOf_number hc⟩
    · exact ⟨c, _, rfl, formOf_number hc⟩
  | string s => exact ⟨'"', _, String.toList_ofList, rfl, by decide⟩
  | symbol name => exact ⟨':', _, shown_symbol name, rfl, by decide⟩
  | list vs => exact ⟨'[', _, shown_list vs, rfl, by decide⟩

theorem form_eq_of_append_eq {v w : Value} {r s : List Char}
    (h : v.shown ++ r = w.shown ++ s) : v.form = w.form := by
  obtain ⟨c, cs, hv, hform, -⟩ := v.form_of_head
  obtain ⟨d, ds, hw, hform', -⟩ := w.form_of_head
  rw [hv, hw] at h
  rw [← hform, ← hform', (List.cons.inj h).1]

/-! ## Numbers -/

theorem not_delimiter_of_number {v : Value} (h : v.form = .number) :
    ∀ c ∈ v.shown, c ∉ [',', ']'] := by
  have hchars := Double.not_delimiter_of_mem_chars
    (by decide : [',', ']'].any Double.isNumberChar = false)
  cases v with
  | int x =>
    rw [shown_int]
    exact hchars x
  | float x =>
    rw [shown_float]
    have hzero : ∀ c ∈ ['.', '0'], c ∉ [',', ']'] := by simp
    split
    · intro c hc
      exact (List.mem_append.mp hc).elim (hchars x c) (hzero c)
    · exact hchars x
  | nil | bool | string | symbol | list => exact absurd h nofun

/-- A whole number is not shown as a float is: a float that is a whole number has a fraction. -/
theorem shown_int_ne_float {x : Double} (hx : x.isInteger = true) (y : Double) :
    (Value.int x).shown ≠ (Value.float y).shown := by
  rw [shown_int, shown_float]
  split
  · exact x.chars_ne_append_point_zero _
  · next hy =>
    intro h
    have hinteger := congrArg Double.isInteger (Double.chars_injective h)
    rw [Double.isInteger_unsignedZero, Double.isInteger_unsignedZero, hx] at hinteger
    exact hy hinteger.symm

theorem unsignedZero_of_shown_float {x y : Double}
    (h : (Value.float x).shown = (Value.float y).shown) : x.unsignedZero = y.unsignedZero := by
  rw [shown_float, shown_float] at h
  split at h
  · split at h
    · exact Double.chars_injective (List.append_cancel_right h)
    · exact absurd h.symm (y.chars_ne_append_point_zero _)
  · split at h
    · exact absurd h (x.chars_ne_append_point_zero _)
    · exact Double.chars_injective h

/-- What is shown of two numbers is the same only if they are the same up to the sign of zero. -/
theorem unsignedZeros_of_number {v w : Value} (hv : v.Legible) (hw : w.Legible)
    (hform : v.form = .number) (hform' : w.form = .number) (h : v.shown = w.shown) :
    v.unsignedZeros = w.unsignedZeros := by
  cases hv with
  | @int x hx =>
    cases hw with
    | @int y =>
      rw [shown_int, shown_int] at h
      exact congrArg Value.int (Double.chars_injective h)
    | float y => exact absurd h (shown_int_ne_float hx y)
    | nil | bool | string | symbol | list => exact absurd hform' nofun
  | float x =>
    cases hw with
    | @int y hy => exact absurd h.symm (shown_int_ne_float hy x)
    | float y => exact congrArg Value.float (unsignedZero_of_shown_float h)
    | nil | bool | string | symbol | list => exact absurd hform' nofun
  | nil | bool | string | symbol | list => exact absurd hform nofun

theorem tellApart_number {v w : Value} (hv : v.Legible) (hw : w.Legible)
    (hform : v.form = .number) (hform' : w.form = .number) :
    Text.TellApart [',', ']'] v.shown w.shown (v.unsignedZeros = w.unsignedZeros) :=
  (Text.tellApart_of_free (not_delimiter_of_number hform) (not_delimiter_of_number hform')).imp
    (unsignedZeros_of_number hv hw hform hform')

/-! ## Values of all forms -/

/-- **Values are told apart**, up to the sign of zero, by what is shown of them, whatever follows
that can follow an element of a list. -/
theorem tellApart_shown {v w : Value} (hv : v.Legible) (hw : w.Legible) :
    Text.TellApart [',', ']'] v.shown w.shown (v.unsignedZeros = w.unsignedZeros) := by
  intro r s hr hs heq
  have hform := form_eq_of_append_eq heq
  induction hv generalizing w r s with
  | nil =>
    cases hw with
    | nil => exact ⟨rfl, List.append_cancel_left heq⟩
    | _ => exact absurd hform nofun
  | bool b =>
    cases hw with
    | bool b' =>
      cases hform
      exact ⟨rfl, List.append_cancel_left heq⟩
    | _ => exact absurd hform nofun
  | @int x hx => exact tellApart_number (.int hx) hw rfl hform.symm r s hr hs heq
  | float x => exact tellApart_number (.float x) hw rfl hform.symm r s hr hs heq
  | string t =>
    cases hw with
    | string u =>
      obtain ⟨rfl, hrest⟩ := Text.tellApart_quoted _ t u r s hr hs heq
      exact ⟨rfl, hrest⟩
    | _ => exact absurd hform nofun
  | @symbol name hname =>
    cases hw with
    | @symbol name' hname' =>
      rw [shown_symbol, shown_symbol, List.cons_append, List.cons_append, List.cons.injEq] at heq
      obtain ⟨hchars, hrest⟩ := Text.tellApart_of_free hname hname' r s hr hs heq.2
      rw [String.toList_inj.mp hchars]
      exact ⟨rfl, hrest⟩
    | _ => exact absurd hform nofun
  | @list vs hvs ih =>
    cases hw with
    | @list ws hws =>
      have hstart : ∀ v ∈ vs ++ ws, ∃ c cs, v.shown = c :: cs ∧ c ≠ ']' := by
        intro v _
        obtain ⟨c, cs, hshown, -, hc⟩ := v.form_of_head
        exact ⟨c, cs, hshown, hc⟩
      have hall : ∀ v ∈ vs, ∀ w ∈ ws, Text.TellApart [',', ']'] v.shown w.shown
          (v.unsignedZeros = w.unsignedZeros) :=
        fun v hv w hw r s hr hs heq => ih v hv (hws w hw) r s hr hs heq (form_eq_of_append_eq heq)
      rw [shown_list, shown_list, List.cons_append, List.cons_append, List.cons.injEq,
        List.append_assoc, List.append_assoc] at heq
      obtain ⟨hsame, hrest⟩ := Text.map_eq_of_separated (by decide) hstart hall heq.2
      refine ⟨?_, hrest⟩
      rw [unsignedZeros, unsignedZeros, unsignedZerosAll_eq_map, unsignedZerosAll_eq_map,
        hsame]
    | _ => exact absurd hform nofun

end Value

/-- **What is shown of a value says which value it is**, up to the sign of zero. -/
theorem inspect_eq_iff {v w : Value} (hv : v.Legible) (hw : w.Legible) :
    v.inspect = w.inspect ↔ v.unsignedZeros = w.unsignedZeros := by
  constructor
  · intro h
    exact (Value.tellApart_shown hv hw).of_eq (congrArg String.toList h)
  · intro h
    rw [← v.inspect_unsignedZeros, h, w.inspect_unsignedZeros]

/-- A string with quotes and a comma in it is not taken for two, and negative zero is shown as
zero. -/
theorem inspect_eq_iff_nested :
    (Value.list [.int .zero, .list [.string "a", .string "b"]]).inspect ≠
      (Value.list [.int .zero, .list [.string "a\", \"b"]]).inspect ∧
    (Value.list [.int .zero, .list [.string "a", .string "b"]]).inspect =
      (Value.list [.int .negativeZero, .list [.string "a", .string "b"]]).inspect := by
  have hlegible : ∀ {x : Double} {vs : List Value}, x.isInteger = true →
      (∀ v ∈ vs, v.Legible) → (Value.list [.int x, .list vs]).Legible := fun hx hvs =>
    .list (List.forall_mem_cons.mpr ⟨.int hx, List.forall_mem_singleton.mpr (.list hvs)⟩)
  have htwo : ∀ v ∈ [Value.string "a", .string "b"], v.Legible := by
    simpa using ⟨Value.Legible.string "a", Value.Legible.string "b"⟩
  have hone : ∀ v ∈ [Value.string "a\", \"b"], v.Legible := by
    simpa using Value.Legible.string "a\", \"b"
  have hzero : Double.zero.isInteger = true := by decide +kernel
  have hnegative : Double.negativeZero.isInteger = true := by decide +kernel
  refine ⟨fun h => ?_, (inspect_eq_iff (hlegible hzero htwo) (hlegible hnegative htwo)).mpr ?_⟩
  · have hsame := (inspect_eq_iff (hlegible hzero htwo) (hlegible hzero hone)).mp h
    simp [Value.unsignedZeros, Value.unsignedZerosAll] at hsame
  · have hsame : Double.zero.unsignedZero = Double.negativeZero.unsignedZero := by decide +kernel
    simp only [Value.unsignedZeros, Value.unsignedZerosAll, hsame]

end Treewalk
