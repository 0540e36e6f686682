import Treewalk.Lint.Rule
import Treewalk.Syntax.Walk

/-!
# The rule `undef-outside-definition`

`undef` and `alias` act on the class or module that is being defined. Where there is none, the
statement fails each time it runs, so every one that stands under no class or module is reported.
-/

set_option autoImplicit false

namespace Treewalk.Lint

/-- The keyword of a statement that acts on a scope, and the name operand it starts with. -/
def scopeAction? : Node → Option (String × Node)
  | .undef _ name => some ("undef", name)
  | .aliasName _ newName _ => some ("alias", newName)
  | _ => none

/-- What is reported at one place, if anything. -/
def outsideDefinition? (v : Visit) : Option Finding :=
  match scopeAction? v.node with
  | none => none
  | some (keyword, operand) =>
    if v.path.any Node.isScope then none
    else
      let subject := match operand.staticName? with
        | some name => s!"{keyword} '{name}'"
        | none => keyword
      some (.on v.node (subject ++ " outside a class or module body"))

/-- Reports `undef` and `alias` under no class or module. -/
def undefOutsideDefinition : Rule where
  name := "undef-outside-definition"
  description := "Warn on undef or alias with no enclosing class or module body"
  severity := .warning
  run root := .ok (root.visits.filterMap outsideDefinition?)

end Treewalk.Lint
