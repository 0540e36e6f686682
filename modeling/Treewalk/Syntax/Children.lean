import Treewalk.Syntax.Node

/-!
# The children of a node

`Node.children` gives the direct sub-nodes in source order with their arrangement: none, exactly
one, or a list of any length. `Node.childList` forgets the arrangement, so that a lone child and a
list of statements are treated alike. `Node.sizeOf_lt_of_mem_childList` is what lets a function
recurse over `childList`, and `Node.induction` is the matching induction principle.
-/

set_option autoImplicit false

namespace Treewalk

/-- Direct sub-nodes, by arrangement. -/
inductive Children where
  | empty
  | single (node : Node)
  | many (nodes : List Node)

namespace Children

def ofOption : Option Node → Children
  | none => .empty
  | some n => .single n

def toList : Children → List Node
  | .empty => []
  | .single n => [n]
  | .many ns => ns

end Children

namespace Node

/-- The direct sub-nodes of a node, in source order. -/
def children : Node → Children
  | .nil _ | .bool .. | .int .. | .float .. | .str .. | .symbol .. | .literal .. | .localVar ..
  | .args .. => .empty
  | .dstr _ nodes | .dsymbol _ nodes | .array _ nodes | .block _ nodes | .call _ _ nodes =>
    .many nodes
  | .localAssign _ _ node? | .jump _ _ node? | .scope _ _ _ node? => .ofOption node?
  | .multiAssign _ targets rest value => .many (targets ++ rest.toList ++ value.toList)
  | .newline _ node | .undef _ node | .defined _ node => .single node
  | .define _ _ params body => .many (.args params :: body.toList)
  | .aliasName _ newName oldName => .many [newName, oldName]
  | .whileLoop _ condition body => .many [condition, body]

def childList (n : Node) : List Node := n.children.toList

/-- A child is smaller than its parent. -/
theorem sizeOf_lt_of_mem_childList {c n : Node} (h : c ∈ n.childList) : sizeOf c < sizeOf n := by
  cases n with
  | nil | bool | int | float | str | symbol | literal | localVar | args =>
    simp [childList, children, Children.toList] at h
  | dstr t ns | dsymbol t ns | array t ns | block t ns | call t s ns =>
    have := List.sizeOf_lt_of_mem (show c ∈ ns from h)
    simp only [dstr.sizeOf_spec, dsymbol.sizeOf_spec, array.sizeOf_spec, block.sizeOf_spec,
      call.sizeOf_spec]
    omega
  | localAssign t s o | jump t k o | scope t s m o =>
    cases o with
    | none => simp [childList, children, Children.ofOption, Children.toList] at h
    | some m =>
      obtain rfl : c = m := by
        simpa [childList, children, Children.ofOption, Children.toList] using h
      simp only [localAssign.sizeOf_spec, jump.sizeOf_spec, scope.sizeOf_spec,
        Option.some.sizeOf_spec]
      omega
  | multiAssign t ts r v =>
    simp only [childList, children, Children.toList, List.mem_append, Option.mem_toList] at h
    rw [multiAssign.sizeOf_spec]
    rcases h with (h | h) | h
    · have := List.sizeOf_lt_of_mem h
      omega
    · cases h
      rw [Option.some.sizeOf_spec]
      omega
    · cases h
      rw [Option.some.sizeOf_spec]
      omega
  | newline t m | undef t m | defined t m =>
    obtain rfl : c = m := by simpa [childList, children, Children.toList] using h
    simp only [newline.sizeOf_spec, undef.sizeOf_spec, defined.sizeOf_spec]
    omega
  | define t s p b =>
    simp only [childList, children, Children.toList, List.mem_cons, Option.mem_toList] at h
    rw [define.sizeOf_spec]
    rcases h with rfl | h
    · have : 0 < sizeOf t := by
        cases t
        rw [Tag.mk.sizeOf_spec]
        omega
      rw [args.sizeOf_spec]
      omega
    · cases h
      rw [Option.some.sizeOf_spec]
      omega
  | aliasName t a b | whileLoop t a b =>
    simp only [childList, children, Children.toList, List.mem_cons, List.not_mem_nil,
      or_false] at h
    simp only [aliasName.sizeOf_spec, whileLoop.sizeOf_spec]
    rcases h with rfl | rfl <;> omega

/-- What holds of a node whenever it holds of its children holds of every node. -/
theorem induction {P : Node → Prop} (step : ∀ n : Node, (∀ c ∈ n.childList, P c) → P n) (n : Node) :
    P n :=
  step n fun c _ => induction step c
termination_by sizeOf n
decreasing_by exact sizeOf_lt_of_mem_childList ‹_›

end Node

end Treewalk
