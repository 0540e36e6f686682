import Treewalk.Syntax.Children

/-!
# Walking a tree

`Node.walk` lists the nodes of a tree depth-first, a parent before its children and the children in
source order, each with the path that leads to it. A test on each visit says whether its children
are entered; the visit itself is listed either way.
-/

set_option autoImplicit false

namespace Treewalk

/-- A node met on a walk. The path is kept from its near end, so that the visits of one walk share
their paths. -/
structure Visit where
  node : Node
  path : List Node

/-- The nodes above the visited one, from the root down to its parent. -/
def Visit.ancestors (v : Visit) : List Node := v.path.reverse

namespace Node

/-- The walk of a subtree that is reached by the given path. -/
def walkFrom (descend : Visit → Bool) (path : List Node) (n : Node) : List Visit :=
  let v : Visit := ⟨n, path⟩
  v :: if descend v then n.childList.attach.flatMap fun ⟨c, _⟩ => walkFrom descend (n :: path) c
    else []
termination_by sizeOf n
decreasing_by exact sizeOf_lt_of_mem_childList ‹_›

def walk (descend : Visit → Bool) (root : Node) : List Visit := walkFrom descend [] root

/-- Every occurrence of a node in a tree, in the order of a walk that skips nothing. -/
def visits (root : Node) : List Visit := root.walk fun _ => true

theorem walkFrom_eq (descend : Visit → Bool) (path : List Node) (n : Node) :
    n.walkFrom descend path = ⟨n, path⟩ ::
      if descend ⟨n, path⟩ then n.childList.flatMap (walkFrom descend (n :: path)) else [] := by
  rw [walkFrom]
  simp

end Node

end Treewalk
