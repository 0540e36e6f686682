import Treewalk.Store.Environments
import Treewalk.Store.Scopes
import Treewalk.Syntax.Reposition

/-!
# The heap

Environments and scopes outlive the context that made them and can be reached from several, so
they are kept together, apart from any context.
-/

set_option autoImplicit false

namespace Treewalk

/-- Everything that has an identity while programs run. -/
structure Heap where
  environments : Environments
  scopes : Scopes

namespace Heap

def empty : Heap := ⟨.empty, .empty⟩

/-- Moves a node in every stored method body. -/
def reposition (h : Heap) (id : Nat) (location : Location) : Heap :=
  { h with scopes := h.scopes.mapBodies (Node.reposition id location) }

end Heap

end Treewalk
