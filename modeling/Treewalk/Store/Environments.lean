import Treewalk.Store.Lineage
import Treewalk.Store.Table
import Treewalk.Value

/-!
# Environments

An environment binds names to values. It may have a parent, whose bindings it sees. A name
resolves to the nearest environment on the line of descent that binds it, its *owner*. Assigning
changes the binding of the owner, and binds the name in the environment itself if there is none.
-/

set_option autoImplicit false

namespace Treewalk

abbrev EnvId := Nat

/-- All environments, each with its own bindings. -/
abbrev Environments := Lineage (Table Value)

namespace Environments

def bindings (s : Environments) (e : EnvId) : Table Value := (s.value? e).getD .empty

/-- The nearest environment that binds a name. -/
def owner? (s : Environments) (e : EnvId) (name : String) : Option EnvId :=
  (s.chain e).find? fun i => (s.bindings i).contains name

def get? (s : Environments) (e : EnvId) (name : String) : Option Value :=
  (s.owner? e name).bind fun i => (s.bindings i).get? name

def has (s : Environments) (e : EnvId) (name : String) : Bool := (s.owner? e name).isSome

/-- Binds a name where it is bound already, else here. -/
def assign (s : Environments) (e : EnvId) (name : String) (v : Value) : Environments :=
  s.update ((s.owner? e name).getD e) (·.set name v)

/-- The names that an environment binds itself, in the order in which they came. -/
def localNames (s : Environments) (e : EnvId) : List String := (s.bindings e).keys

end Environments

end Treewalk
