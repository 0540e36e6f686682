import Treewalk.Error

/-!
# Options of the evaluator

`Options.resolve` validates options given as dynamic input, fills in what is absent, and otherwise
lists every issue: with the warnings setting first, then with the call depth, then the settings
that are not known. The rules and the words are those of a strict object schema of the package zod,
with a boolean and a positive integer. `Options.resolve_eq_ok_iff` says which input passes, and what
it stands for.
-/

set_option autoImplicit false

namespace Treewalk

/-- How programs are evaluated. At least one call can always be entered. -/
structure Options where
  warnings : Bool
  /-- The deepest nesting of method calls. -/
  maxCallDepth : Nat
  maxCallDepth_pos : 0 < maxCallDepth
  deriving DecidableEq

/-- A setting as it comes in. What an array holds does not matter. -/
inductive Setting where
  | null
  | bool (value : Bool)
  | number (value : Double)
  | string (text : String)
  | array
  | object (fields : List (String × Setting))
  deriving Inhabited

namespace Setting

def typeName : Setting → String
  | .null => "null"
  | .bool _ => "boolean"
  | .number .nan => "nan"
  | .number _ => "number"
  | .string _ => "string"
  | .array => "array"
  | .object _ => "object"

end Setting

namespace Options

/-- Warnings are on, and calls nest a thousand deep. -/
def default : Options := ⟨true, 1000, by decide⟩

instance : Inhabited Options := ⟨default⟩

def warningsIssues : Setting → List String
  | .bool _ => []
  | s => [s!"warnings: Expected boolean, received {s.typeName}"]

/-- What is wrong with a setting for the call depth. A number can be wrong in two ways at once. -/
def maxCallDepthIssues : Setting → List String
  | .number .nan => ["maxCallDepth: Expected number, received nan"]
  | .number x =>
    (if x.isInteger then [] else ["maxCallDepth: Expected integer, received float"])
      ++ (if x.isPositive then [] else ["maxCallDepth: Number must be greater than 0"])
  | s => [s!"maxCallDepth: Expected number, received {s.typeName}"]

def known : List String := ["warnings", "maxCallDepth"]

/-- What is wrong with names that are no settings: one issue for all of them. -/
def unknownIssues (names : List String) : List String :=
  match names.filter (!known.contains ·) with
  | [] => []
  | unknown =>
    let listed := ", ".intercalate (unknown.map fun name => s!"'{name}'")
    ["Unrecognized key(s) in object: " ++ listed]

def issues (fields : List (String × Setting)) : List String :=
  ((fields.lookup "warnings").map warningsIssues).getD []
    ++ ((fields.lookup "maxCallDepth").map maxCallDepthIssues).getD []
    ++ unknownIssues (fields.map Prod.fst)

/-- The settings given, over the defaults. Meant for settings without issues. -/
def ofFields (fields : List (String × Setting)) : Options :=
  let warnings := match fields.lookup "warnings" with
    | some (.bool b) => b
    | _ => default.warnings
  match fields.lookup "maxCallDepth" with
  | some (.number x) =>
    match x.toNat? with
    -- Zero has an issue already; here only a positive number is taken over.
    | some (n + 1) => ⟨warnings, n + 1, n.succ_pos⟩
    | _ => { default with warnings }
  | _ => { default with warnings }

/-- The options that dynamic input stands for, or the issues it has. -/
def resolve : Setting → Except (List String) Options
  | .object fields =>
    match issues fields with
    | [] => .ok (ofFields fields)
    | found => .error found
  | s => .error [s!"Expected object, received {s.typeName}"]

/-- The settings say what the options are, together with the defaults: no other setting is given,
and each that is given is of its own sort and has the value of the option. -/
structure Given (fields : List (String × Setting)) (o : Options) : Prop where
  known : ∀ name ∈ fields.map Prod.fst, name ∈ Options.known
  warnings : ∀ setting, fields.lookup "warnings" = some setting → setting = .bool o.warnings
  defaultWarnings : fields.lookup "warnings" = none → o.warnings = default.warnings
  maxCallDepth : ∀ setting, fields.lookup "maxCallDepth" = some setting →
    ∃ x, setting = .number x ∧ x.toNat? = some o.maxCallDepth
  defaultMaxCallDepth : fields.lookup "maxCallDepth" = none → o.maxCallDepth = default.maxCallDepth

theorem warningsIssues_eq_nil_iff {s : Setting} : warningsIssues s = [] ↔ ∃ b, s = .bool b := by
  cases s <;> simp [warningsIssues]

theorem maxCallDepthIssues_eq_nil_iff {s : Setting} :
    maxCallDepthIssues s = [] ↔ ∃ x n, s = .number x ∧ x.toNat? = some n ∧ 0 < n := by
  cases s with
  | number x =>
    have hchecks : (∃ y n, Setting.number x = .number y ∧ y.toNat? = some n ∧ 0 < n) ↔
        x.isInteger = true ∧ x.isPositive = true := by
      simp [Double.isInteger_and_isPositive_iff]
    rw [hchecks]
    cases x with
    | nan => simp [maxCallDepthIssues, Double.isInteger]
    | infinity | finite => simp [maxCallDepthIssues]
  | null | bool | string | array | object => simp [maxCallDepthIssues]

theorem unknownIssues_eq_nil_iff {names : List String} :
    unknownIssues names = [] ↔ ∀ name ∈ names, name ∈ known := by
  have hnone : names.filter (!known.contains ·) = [] ↔ ∀ name ∈ names, name ∈ known := by
    simp [List.filter_eq_nil_iff]
  rw [← hnone, unknownIssues]
  split <;> simp_all

theorem issues_eq_nil_iff {fields : List (String × Setting)} :
    issues fields = [] ↔
      (∀ setting, fields.lookup "warnings" = some setting → warningsIssues setting = []) ∧
      (∀ setting, fields.lookup "maxCallDepth" = some setting → maxCallDepthIssues setting = []) ∧
      ∀ name ∈ fields.map Prod.fst, name ∈ known := by
  have hgetD : ∀ (given : Option Setting) (check : Setting → List String),
      (given.map check).getD [] = [] ↔ ∀ setting, given = some setting → check setting = [] := by
    rintro (_ | setting) check <;> simp
  simp only [issues, List.append_eq_nil_iff, hgetD, unknownIssues_eq_nil_iff, and_assoc]

/-- What the call depth is read as makes no difference to the warnings. -/
theorem ofFields_warnings (fields : List (String × Setting)) :
    (ofFields fields).warnings =
      match fields.lookup "warnings" with
      | some (.bool b) => b
      | _ => default.warnings := by
  unfold ofFields
  generalize (match fields.lookup "warnings" with
    | some (.bool b) => b
    | _ => default.warnings) = warnings
  split
  · split <;> rfl
  · rfl

theorem given_ofFields {fields : List (String × Setting)} (h : issues fields = []) :
    Given fields (ofFields fields) := by
  obtain ⟨hwarnings, hdepth, hknown⟩ := issues_eq_nil_iff.mp h
  refine ⟨hknown, fun setting hs => ?_, fun hs => ?_, fun setting hs => ?_, fun hs => ?_⟩
  · obtain ⟨b, rfl⟩ := warningsIssues_eq_nil_iff.mp (hwarnings setting hs)
    rw [ofFields_warnings, hs]
  · rw [ofFields_warnings, hs]
  · obtain ⟨x, n, rfl, hx, hpos⟩ := maxCallDepthIssues_eq_nil_iff.mp (hdepth setting hs)
    obtain ⟨m, rfl⟩ := Nat.exists_eq_succ_of_ne_zero (Nat.ne_of_gt hpos)
    exact ⟨x, rfl, by simp [ofFields, hs, hx]⟩
  · simp [ofFields, hs]

theorem Given.issues_eq_nil {fields : List (String × Setting)} {o : Options} (h : Given fields o) :
    issues fields = [] := by
  refine issues_eq_nil_iff.mpr ⟨fun setting hs => ?_, fun setting hs => ?_, h.known⟩
  · exact warningsIssues_eq_nil_iff.mpr ⟨o.warnings, h.warnings setting hs⟩
  · obtain ⟨x, rfl, hx⟩ := h.maxCallDepth setting hs
    exact maxCallDepthIssues_eq_nil_iff.mpr ⟨x, o.maxCallDepth, rfl, hx, o.maxCallDepth_pos⟩

/-- The settings determine the options. -/
theorem Given.unique {fields : List (String × Setting)} {o o' : Options} (h : Given fields o)
    (h' : Given fields o') : o = o' := by
  have hwarnings : o.warnings = o'.warnings := by
    cases hs : fields.lookup "warnings" with
    | none => rw [h.defaultWarnings hs, h'.defaultWarnings hs]
    | some setting => simpa using (h.warnings setting hs).symm.trans (h'.warnings setting hs)
  have hdepth : o.maxCallDepth = o'.maxCallDepth := by
    cases hs : fields.lookup "maxCallDepth" with
    | none => rw [h.defaultMaxCallDepth hs, h'.defaultMaxCallDepth hs]
    | some setting =>
      obtain ⟨x, rfl, hx⟩ := h.maxCallDepth setting hs
      obtain ⟨x', heq, hx'⟩ := h'.maxCallDepth _ hs
      obtain rfl : x = x' := by simpa using heq
      simpa using hx.symm.trans hx'
  cases o
  cases o'
  simp_all

/-- Input without issues is an object of settings that are as they should be. It stands for the
options that these say, and the defaults for the rest. -/
theorem resolve_eq_ok_iff {s : Setting} {o : Options} :
    resolve s = .ok o ↔ ∃ fields, s = .object fields ∧ Given fields o := by
  cases s with
  | object fields =>
    cases hissues : issues fields with
    | nil =>
      have hgiven := given_ofFields hissues
      simp only [resolve, hissues, Except.ok.injEq, Setting.object.injEq, exists_eq_left']
      exact ⟨fun h => h ▸ hgiven, hgiven.unique⟩
    | cons issue rest =>
      have hnot : ¬ Given fields o := fun h => by simp [h.issues_eq_nil] at hissues
      simp [resolve, hissues, hnot]
  | null | bool | number | string | array => simp [resolve]

end Options

end Treewalk
