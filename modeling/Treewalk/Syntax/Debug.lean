import Treewalk.Syntax.Children

/-!
# Debug text of a tree

A node is shown as its kind, its name if it has one, its line and its children, between
parentheses. A node of an invisible kind is shown as nothing at all, children included.
-/

set_option autoImplicit false

namespace Treewalk.Node

/-- The kind, name and line of a node. -/
def heading (n : Node) : String :=
  n.kind.name ++ (match n.name? with | some s => ":" ++ s | none => "") ++ " "
    ++ n.location.line.text

def debugText (n : Node) : String :=
  if n.kind.isInvisible then ""
  else "(" ++ n.heading
    ++ String.join (n.childList.attach.map fun ⟨c, _⟩ => ", " ++ debugText c) ++ ")"
termination_by sizeOf n
decreasing_by exact sizeOf_lt_of_mem_childList ‹_›

theorem debugText_eq (n : Node) :
    n.debugText = if n.kind.isInvisible then ""
      else "(" ++ n.heading ++ String.join (n.childList.map fun c => ", " ++ debugText c)
        ++ ")" := by
  rw [debugText]
  simp

end Treewalk.Node
