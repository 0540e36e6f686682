import Treewalk.Lint.Rule
import Treewalk.Syntax.Visitor
import Treewalk.Syntax.Walk

/-!
# The rule `unreachable-code`

A statement that follows a `break`, `next` or `return` in the same block never runs. Each block is
reported once, at its first statement that never runs. Line breaks around a jump make no
difference.

The keyword of a jump is found by a visitor that asks the same of a statement under a line break.
`Node.jumpKeyword?` is that visitor's answer, with the knot tied by recursion on the node:
`Node.jumpKeyword?_eq_dispatch`.
-/

set_option autoImplicit false

namespace Treewalk

/-- The keyword of a statement that jumps, under any number of line breaks. -/
def Node.jumpKeyword? : Node → Option Keyword
  | .jump _ keyword _ => some keyword
  | .newline _ statement => statement.jumpKeyword?
  | _ => none

/-- The visitor that finds the keyword of a jump. Nodes of all other kinds have none, line breaks
apart. -/
def Visitor.jumpKeyword : Visitor (Option Keyword) :=
  Visitor.always (fun _ => none)
    |>.override [.brk] (fun _ => some .brk)
    |>.override [.next] (fun _ => some .next)
    |>.override [.ret] (fun _ => some .ret)
    |>.override [.newline] fun
      | .newline _ statement => statement.jumpKeyword?
      | _ => none

theorem Node.jumpKeyword?_eq_dispatch (n : Node) : n.jumpKeyword? = n.dispatch .jumpKeyword := by
  cases n with
  | jump _ keyword _ =>
    cases keyword with
    | brk | next | ret => simp [jumpKeyword?, Visitor.jumpKeyword, kind, Keyword.kind]
  | bool _ value => cases value <;> simp [jumpKeyword?, Visitor.jumpKeyword, kind]
  | scope _ sort _ _ =>
    cases sort <;> simp [jumpKeyword?, Visitor.jumpKeyword, kind, ScopeSort.kind]
  | _ => simp [jumpKeyword?, Visitor.jumpKeyword, kind]

namespace Lint

/-- The first statement that jumps and has a statement after it: its keyword and that statement. -/
def afterJump? : List Node → Option (Keyword × Node)
  | n :: next :: rest =>
    match n.jumpKeyword? with
    | some keyword => some (keyword, next)
    | none => afterJump? (next :: rest)
  | _ => none

/-- What is reported for one node, if anything. -/
def unreachable? : Node → Option Finding
  | .block _ statements =>
    (afterJump? statements).map fun (keyword, next) =>
      .on next s!"unreachable statement after {keyword.name}"
  | _ => none

/-- Reports the first statement of each block that never runs. -/
def unreachableCode : Rule where
  name := "unreachable-code"
  description := "Warn on statements that follow a break, next or return"
  severity := .warning
  run root := .ok (root.visits.filterMap fun v => unreachable? v.node)

end Lint

end Treewalk
