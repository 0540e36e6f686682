import Treewalk.Syntax.Node

/-!
# Visitors

A visitor says what to do with a node of each kind. `dispatch` applies it to a node: the answer for
the node's own kind, and no other, is taken and returned as it is. A pass that cares about a few
kinds only starts from one answer for all kinds and overrides those.
-/

set_option autoImplicit false

namespace Treewalk

/-- One answer for every kind of node. -/
structure Visitor (ρ : Type) where
  visit : Kind → Node → ρ

namespace Visitor

variable {ρ : Type}

/-- The same answer for nodes of every kind. -/
def always (answer : Node → ρ) : Visitor ρ := ⟨fun _ => answer⟩

/-- Another answer for nodes of the given kinds. -/
def override (v : Visitor ρ) (kinds : List Kind) (answer : Node → ρ) : Visitor ρ :=
  ⟨fun k => if kinds.contains k then answer else v.visit k⟩

end Visitor

namespace Node

variable {ρ : Type}

/-- The visitor's answer for the node's own kind. -/
def dispatch (n : Node) (v : Visitor ρ) : ρ := v.visit n.kind n

@[simp] theorem dispatch_always (n : Node) (answer : Node → ρ) :
    n.dispatch (.always answer) = answer n := rfl

@[simp] theorem dispatch_override (n : Node) (v : Visitor ρ) (kinds : List Kind)
    (answer : Node → ρ) :
    n.dispatch (v.override kinds answer) = if n.kind ∈ kinds then answer n else n.dispatch v := by
  by_cases h : n.kind ∈ kinds <;> simp [dispatch, Visitor.override, h]

end Node

end Treewalk
