import Treewalk.Eval.Basic

/-!
# Assignment and destructuring

A value is assigned to a local variable, or taken apart over several targets. A list gives its
elements and any other value is the only element; targets without an element get nil, and elements
without a target go to the rest target or are dropped. Targets are assigned from left to right,
and the values that a target node may carry itself play no part.

The number of elements is checked only on request, only at the top, and only where there is no
rest target.
-/

set_option autoImplicit false

namespace Treewalk

namespace Eval

/-- Fails where the number of elements has to be that of the targets and is not. -/
def checkCount (t : Tag) (targets : List Node) (rest : Option Node) (v : Value) : Eval Unit :=
  if rest.isNone && v.elements.length != targets.length then
    fault (.arity (.ofNat v.elements.length) (.ofNat targets.length)) (some t.location)
  else pure ()

mutual

/-- Assigns a value to a target, and yields the value. -/
def assign (checkArity : Bool) (v : Value) : Node → Eval Value
  | .localAssign t name own => observed .assigning (.localAssign t name own) do
    assignLocal name v
    pure v
  | .multiAssign t targets rest own => observed .assigning (.multiAssign t targets rest own) do
    if checkArity then checkCount t targets rest v
    assignEach v.elements targets
    assignRest (v.elements.drop targets.length) rest
    pure v
  | n => observed .assigning n (misuse (.notAssignable n.kind))

def assignEach (vs : List Value) : List Node → Eval Unit
  | [] => pure ()
  | n :: ns => do
    let _ ← assign false (vs.headD .nil) n
    assignEach vs.tail ns

/-- Assigns a list of the values that are left. -/
def assignRest (vs : List Value) : Option Node → Eval Unit
  | none => pure ()
  | some n => do
    let _ ← assign false (.list vs) n

end

def destructure (targets : List Node) (rest : Option Node) (v : Value) : Eval Unit := do
  assignEach v.elements targets
  assignRest (v.elements.drop targets.length) rest

end Eval

end Treewalk
