import Treewalk.Syntax.Node

/-!
# Repositioning nodes

The one change that a node allows after it was built is to be moved to another location. The node
is found by its identity, wherever it occurs in a tree.
-/

set_option autoImplicit false

namespace Treewalk

namespace Node

mutual

/-- Changes the tag of every node of a tree. -/
def mapTags (f : Tag → Tag) : Node → Node
  | .nil t => .nil (f t)
  | .bool t value => .bool (f t) value
  | .int t value whole => .int (f t) value whole
  | .float t value => .float (f t) value
  | .str t text => .str (f t) text
  | .dstr t parts => .dstr (f t) (mapTagsList f parts)
  | .symbol t name => .symbol (f t) name
  | .dsymbol t parts => .dsymbol (f t) (mapTagsList f parts)
  | .literal t name => .literal (f t) name
  | .array t elements => .array (f t) (mapTagsList f elements)
  | .localVar t name => .localVar (f t) name
  | .localAssign t name value => .localAssign (f t) name (mapTagsOption f value)
  | .multiAssign t targets rest value =>
    .multiAssign (f t) (mapTagsList f targets) (mapTagsOption f rest) (mapTagsOption f value)
  | .block t statements => .block (f t) (mapTagsList f statements)
  | .newline t statement => .newline (f t) (mapTags f statement)
  | .whileLoop t condition body => .whileLoop (f t) (mapTags f condition) (mapTags f body)
  | .jump t keyword value => .jump (f t) keyword (mapTagsOption f value)
  | .defined t expression => .defined (f t) (mapTags f expression)
  | .args params => .args ⟨f params.tag, params.names⟩
  | .define t name params body =>
    .define (f t) name ⟨f params.tag, params.names⟩ (mapTagsOption f body)
  | .call t name operands => .call (f t) name (mapTagsList f operands)
  | .scope t sort name body => .scope (f t) sort name (mapTagsOption f body)
  | .undef t name => .undef (f t) (mapTags f name)
  | .aliasName t newName oldName => .aliasName (f t) (mapTags f newName) (mapTags f oldName)

def mapTagsList (f : Tag → Tag) : List Node → List Node
  | [] => []
  | n :: ns => mapTags f n :: mapTagsList f ns

def mapTagsOption (f : Tag → Tag) : Option Node → Option Node
  | none => none
  | some n => some (mapTags f n)

end

theorem mapTagsList_eq (f : Tag → Tag) (ns : List Node) :
    mapTagsList f ns = ns.map (mapTags f) := by
  induction ns with
  | nil => rfl
  | cons n ns ih => rw [mapTagsList, ih, List.map_cons]

theorem mapTagsOption_eq (f : Tag → Tag) (o : Option Node) :
    mapTagsOption f o = o.map (mapTags f) := by
  cases o <;> rfl

/-- Moves the node of the given identity, wherever it occurs in the tree. -/
def reposition (id : Nat) (location : Location) (n : Node) : Node :=
  n.mapTags fun t => if t.id = id then { t with location } else t

end Node

end Treewalk
