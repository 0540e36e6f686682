import Treewalk.Lint.Linter
import Treewalk.Lint.OutsideDefinition
import Treewalk.Lint.Unreachable

/-!
# The standard linter

The linter with the rules of this library.
-/

set_option autoImplicit false

namespace Treewalk.Lint

/-- The linter with both rules. -/
def Linter.standard : Linter := (Linter.empty.add undefOutsideDefinition).add unreachableCode

end Treewalk.Lint
