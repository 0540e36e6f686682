import Treewalk.Error
import Treewalk.Syntax.Node

/-!
# Read-only sequences of nodes

A consumer of statements can be handed a single expression: `NodeSeq.single` holds exactly that
node, and `NodeSeq.ofStatements` holds a block's statements or any other node alone. Membership is
by identity. Indexes are numbers as a caller has them, and only whole ones in range are accepted;
negative zero counts as zero. What would change a sequence is refused.

A sub-range is a `Portion`, which says whether it is the shared empty sequence, the sequence it was
taken from, or a new one.
-/

set_option autoImplicit false

namespace Treewalk

structure NodeSeq where
  items : List Node

/-- What an operation that gives a sequence may give. -/
inductive Portion where
  | empty
  | whole
  | fresh (seq : NodeSeq)

/-- The operations that would change a sequence. -/
inductive Mutator where
  | add
  | insert
  | remove
  | removeAt
  | set
  | clear
  | addAll
  | retainAll
  | removeAll
  deriving DecidableEq, Repr

namespace Mutator

def all : List Mutator :=
  [.add, .insert, .remove, .removeAt, .set, .clear, .addAll, .retainAll, .removeAll]

def name : Mutator → String
  | .add => "add"
  | .insert => "insert"
  | .remove => "remove"
  | .removeAt => "removeAt"
  | .set => "set"
  | .clear => "clear"
  | .addAll => "addAll"
  | .retainAll => "retainAll"
  | .removeAll => "removeAll"

def ofName? (s : String) : Option Mutator := all.find? (·.name = s)

end Mutator

namespace NodeSeq

def empty : NodeSeq := ⟨[]⟩

def single (n : Node) : NodeSeq := ⟨[n]⟩

/-- A block's statements, or any other node as a single statement. -/
def ofStatements : Node → Portion
  | .block _ [] => .empty
  | .block _ statements => .fresh ⟨statements⟩
  | n => .fresh (single n)

def size (s : NodeSeq) : Nat := s.items.length

def isEmpty (s : NodeSeq) : Bool := s.items.isEmpty

/-- The node at an index, which must be a whole number from zero up to and below the size. -/
def get (s : NodeSeq) (index : Double) : Except Misuse Node :=
  match index.toNat?.bind (s.items[·]?) with
  | some n => .ok n
  | none => .error (.index index s.size)

/-- Is this the very node that is looked for? A candidate that is no node is never found. -/
def isCandidate (candidate : Option Node) (n : Node) : Bool := candidate.map Node.id = some n.id

def indexOf? (s : NodeSeq) (candidate : Option Node) : Option Nat :=
  s.items.findIdx? (isCandidate candidate)

def lastIndexOf? (s : NodeSeq) (candidate : Option Node) : Option Nat :=
  (s.items.reverse.findIdx? (isCandidate candidate)).map (s.size - 1 - ·)

def contains (s : NodeSeq) (candidate : Option Node) : Bool := (s.indexOf? candidate).isSome

/-- Are there candidates, no more than there are nodes, and all of them elements? -/
def containsAll (s : NodeSeq) (candidates : List (Option Node)) : Bool :=
  !candidates.isEmpty && decide (candidates.length ≤ s.size) && candidates.all s.contains

/-- The nodes from `first` up to and not including `past`. -/
def subList (s : NodeSeq) (first past : Double) : Except Misuse Portion :=
  match first.toNat?, past.toNat? with
  | some a, some b =>
    if a ≤ b ∧ b ≤ s.size then
      .ok (if a = b then .empty else if a = 0 ∧ b = s.size then .whole
        else .fresh ⟨(s.items.drop a).take (b - a)⟩)
    else .error (.range first past s.size)
  | _, _ => .error (.range first past s.size)

def refuse (m : Mutator) : Misuse := .unsupported m.name

end NodeSeq

/-- The sequence that a portion of `source` is. -/
def Portion.seq (source : NodeSeq) : Portion → NodeSeq
  | .empty => .empty
  | .whole => source
  | .fresh s => s

end Treewalk
