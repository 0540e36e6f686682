import Treewalk.Eval.Basic

/-!
# Places and a machine to start from

Instances of general statements need locations, a machine on which nothing has happened yet, and
a way to look at how a run on it ended.
-/

set_option autoImplicit false

namespace Treewalk

/-- The first line of a file. -/
def Location.sample : Location := ⟨"a.st", .zero, by decide, by decide +kernel⟩

/-- The first line of another file. -/
def Location.elsewhere : Location :=
  ⟨"b.st", Location.sample.line, by decide, Location.sample.line_isLine⟩

/-- A node at the first place. -/
def Tag.sample : Tag := ⟨0, .sample⟩

/-- A machine with a new context, which keeps a journal. -/
def Machine.initial (options : Options) : Machine :=
  let made := Heap.empty.newContext options
  ⟨made.1, made.2, some []⟩

def Outcome.isValue {α : Type} : Outcome α → Bool
  | .value _ => true
  | _ => false

theorem Outcome.exists_value {α : Type} {o : Outcome α} (h : o.isValue = true) :
    ∃ a, o = .value a := by
  cases o with
  | value a => exact ⟨a, rfl⟩
  | jump | error | outOfFuel => exact absurd h Bool.noConfusion

/-- The value that something ended with, if it did. -/
def Outcome.value? {α : Type} : Outcome α → Option α
  | .value a => some a
  | _ => none

theorem Outcome.eq_value_of_value? {α : Type} {o : Outcome α} {a : α} (h : o.value? = some a) :
    o = .value a := by
  cases o with
  | value b => exact congrArg value (Option.some.inj h)
  | jump | error | outOfFuel => exact absurd h (by simp [value?])

end Treewalk
