import Treewalk.Error
import Treewalk.Syntax.Node

/-!
# Building trees

Every node built gets an identity of its own, so building counts. It also checks what the types
do not say: that a location was given, and that an integer literal's number is a whole one. The
number is looked at before the location.
-/

set_option autoImplicit false

namespace Treewalk

/-- A computation that hands out identities, from the given one on, and can find a misuse. -/
abbrev Build (α : Type) : Type := StateT Nat (Except Misuse) α

namespace Build

/-- A tag for a new node, which must be given its location. -/
def tag (location : Option Location) : Build Tag :=
  match location with
  | none => throw .missingLocation
  | some l => do
    let id ← get
    set (id + 1)
    pure ⟨id, l⟩

def int (location : Option Location) (value : Double) : Build Node :=
  if whole : value.isInteger = true then do pure (.int (← tag location) value whole)
  else throw (.notInteger value)

def params (location : Option Location) (names : List String) : Build Params := do
  pure ⟨← tag location, names⟩

/-- A location, checked. -/
def location (file : String) (line : Double) : Build Location :=
  match Location.make file line with
  | .ok l => pure l
  | .error defect => throw (.location defect)

/-- The kind of a given name. A node of no known kind, wherever it turns up, is a misuse. -/
def kind (name : String) (location : Location) : Build Kind :=
  match Kind.ofName? name with
  | some k => pure k
  | none => throw (.unknownKind name location)

end Build

end Treewalk
