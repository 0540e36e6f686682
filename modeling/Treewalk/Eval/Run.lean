import Treewalk.Eval.Step

/-!
# Evaluating trees

`evaluate` closes the recursion of `Eval.step`. Fuel bounds how deep evaluations nest and how
often a loop goes round; an outcome other than `outOfFuel` is the tree's, whatever the fuel was.

`run` evaluates a whole program: a `return` that nothing received gives the program its value, and
another jump that nothing received is an error.
-/

set_option autoImplicit false

namespace Treewalk

def evaluate : Nat → Node → Eval Value
  | 0, _ => .outOfFuel
  | fuel + 1, n => .observed .evaluating n (.step fuel (evaluate fuel) n)

/-- Evaluates a tree and receives its jump. -/
def probe (fuel : Nat) (n : Node) : Eval (Probe Value) := .probe (evaluate fuel n)

/-- Says whether a tree is defined: `expression` if it yields a value, nothing if it jumps. -/
def definition? (fuel : Nat) (n : Node) : Eval (Option String) := .definition? (evaluate fuel) n

def resolveName (fuel : Nat) (n : Node) : Eval String := .resolveName (evaluate fuel) n

def run (fuel : Nat) (root : Node) : Eval Value := do
  match ← probe fuel root with
  | .value v => pure v
  | .jump s =>
    match s.keyword with
    | .ret => pure s.value
    | keyword => .fault (.unexpectedJump keyword.name) (s.location <|> some root.location)

end Treewalk
