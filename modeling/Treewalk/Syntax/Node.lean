import Treewalk.Kind
import Treewalk.Location

/-!
# Syntax trees

A `Node` is a node of a syntax tree together with everything below it. Each carries a `Tag`: the
location its construct starts at, and an identity. Two nodes of the same shape at the same place
are still two nodes; a node that stands in several places of a tree, or in several trees, has one
identity, and `Node.reposition` moves all its occurrences at once.

Constructors that the evaluator treats alike are one constructor with a parameter: the two truth
values, the three jumps, and the two sorts of scope body. `Node.kind` tells all 28 kinds apart.

That an integer literal holds a whole number is part of the type.
-/

set_option autoImplicit false

namespace Treewalk

/-- What every node carries beside its contents. -/
structure Tag where
  id : Nat
  location : Location
  deriving DecidableEq

/-- The parameter list of a method, a node of its own. -/
structure Params where
  tag : Tag
  names : List String
  deriving DecidableEq

inductive Node where
  | nil (tag : Tag)
  | bool (tag : Tag) (value : Bool)
  | int (tag : Tag) (value : Double) (whole : value.isInteger = true)
  | float (tag : Tag) (value : Double)
  | str (tag : Tag) (text : String)
  /-- Interpolated text: the parts' texts, one after the other. -/
  | dstr (tag : Tag) (parts : List Node)
  | symbol (tag : Tag) (name : String)
  | dsymbol (tag : Tag) (parts : List Node)
  /-- A bare method name, as it stands after `undef` or `alias`. -/
  | literal (tag : Tag) (name : String)
  | array (tag : Tag) (elements : List Node)
  | localVar (tag : Tag) (name : String)
  /-- Without a value it is only a target of destructuring. -/
  | localAssign (tag : Tag) (name : String) (value : Option Node)
  | multiAssign (tag : Tag) (targets : List Node) (rest value : Option Node)
  | block (tag : Tag) (statements : List Node)
  /-- A line break around a statement. -/
  | newline (tag : Tag) (statement : Node)
  | whileLoop (tag : Tag) (condition body : Node)
  | jump (tag : Tag) (keyword : Keyword) (value : Option Node)
  | defined (tag : Tag) (expression : Node)
  | args (params : Params)
  | define (tag : Tag) (name : String) (params : Params) (body : Option Node)
  | call (tag : Tag) (name : String) (args : List Node)
  | scope (tag : Tag) (sort : ScopeSort) (name : String) (body : Option Node)
  | undef (tag : Tag) (name : Node)
  | aliasName (tag : Tag) (newName oldName : Node)

namespace Node

def tag : Node → Tag
  | .nil t | .bool t _ | .int t _ _ | .float t _ | .str t _ | .dstr t _ | .symbol t _
  | .dsymbol t _ | .literal t _ | .array t _ | .localVar t _ | .localAssign t _ _
  | .multiAssign t _ _ _ | .block t _ | .newline t _ | .whileLoop t _ _ | .jump t _ _
  | .defined t _ | .define t _ _ _ | .call t _ _ | .scope t _ _ _ | .undef t _
  | .aliasName t _ _ => t
  | .args params => params.tag

def id (n : Node) : Nat := n.tag.id

/-- Where a node's construct starts. -/
def location (n : Node) : Location := n.tag.location

def kind : Node → Kind
  | .nil _ => .nilLit
  | .bool _ value => if value then .trueLit else .falseLit
  | .int .. => .int
  | .float .. => .float
  | .str .. => .str
  | .dstr .. => .dstr
  | .symbol .. => .symbol
  | .dsymbol .. => .dsymbol
  | .literal .. => .literal
  | .array .. => .array
  | .localVar .. => .localVar
  | .localAssign .. => .localAssign
  | .multiAssign .. => .multiAssign
  | .block .. => .block
  | .newline .. => .newline
  | .whileLoop .. => .whileLoop
  | .jump _ keyword _ => keyword.kind
  | .defined .. => .defined
  | .args .. => .args
  | .define .. => .define
  | .call .. => .call
  | .scope _ sort _ _ => sort.kind
  | .undef .. => .undef
  | .aliasName .. => .aliasName

/-- The name of a node whose kind has one. -/
def name? : Node → Option String
  | .symbol _ name | .literal _ name | .localVar _ name | .localAssign _ name _
  | .define _ name _ _ | .call _ name _ | .scope _ _ name _ => some name
  | _ => none

/-- Is this node the body of a class or module? -/
def isScope : Node → Bool
  | .scope .. => true
  | _ => false

/-- The nil literal, whose evaluation yields nil and does nothing else. -/
def isNilLiteral : Node → Bool
  | .nil _ => true
  | _ => false

/-- The method name that a name operand spells out, if it is not computed when it runs. -/
def staticName? : Node → Option String
  | .literal _ name | .symbol _ name => some name
  | _ => none

end Node

end Treewalk
