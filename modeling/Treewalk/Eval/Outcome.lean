import Treewalk.Error

/-!
# Outcomes

How a computation ends: with a value, with a jump that nothing received, or with an error. A
computation whose fuel ran out has not ended, which is told apart from all three.
-/

set_option autoImplicit false

namespace Treewalk

inductive Outcome (α : Type) where
  | value (a : α)
  | jump (signal : Signal)
  | error (e : Error)
  | outOfFuel

/-- How a probed computation ends: an error is no answer to a probe. -/
inductive Probe (α : Type) where
  | value (a : α)
  | jump (signal : Signal)

def Outcome.isFinal {α : Type} : Outcome α → Bool
  | .outOfFuel => false
  | _ => true

end Treewalk
