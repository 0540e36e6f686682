import Treewalk.Error
import Treewalk.Store.Lineage
import Treewalk.Store.Table
import Treewalk.Syntax.Node

/-!
# Classes and modules

A scope is a class or a module: what `def`, `undef` and `alias` act on. It has a table of method
slots and may have a superclass, its parent in the lineage. A name resolves to the nearest slot on
the line of superclasses. A slot is a method, or it says that the name was undefined there, which
hides the name in that scope and in all above it.

A frozen scope refuses every change. The refusal comes before any other complaint.
-/

set_option autoImplicit false

namespace Treewalk

abbrev ScopeId := Nat

/-- A method: its name, its parameters, its body and the scope that it was defined in. -/
structure Method where
  name : String
  params : List String
  body : Option Node
  owner : ScopeId

inductive Slot where
  | defined (method : Method)
  | undefined

def Method.mapBody (f : Node → Node) (method : Method) : Method :=
  { method with body := method.body.map f }

def Slot.mapBody (f : Node → Node) : Slot → Slot
  | .defined method => .defined (method.mapBody f)
  | .undefined => .undefined

def Slot.method? : Slot → Option Method
  | .defined m => some m
  | .undefined => none

structure Scope where
  called : ScopeName
  methods : Table Slot
  frozen : Bool

/-- All classes and modules, each below its superclass. -/
abbrev Scopes := Lineage Scope

namespace Scopes

def create (s : Scopes) (called : ScopeName) (superclass : Option ScopeId) : Scopes :=
  s.add superclass ⟨called, .empty, false⟩

def called (s : Scopes) (m : ScopeId) : ScopeName :=
  ((s.value? m).map Scope.called).getD ⟨.module, ""⟩

def slot? (s : Scopes) (m : ScopeId) (name : String) : Option Slot :=
  (s.value? m).bind (·.methods.get? name)

/-- The method that a name resolves to: what the nearest slot holds. -/
def find? (s : Scopes) (m : ScopeId) (name : String) : Option Method :=
  ((s.chain m).findSome? fun i => s.slot? i name).bind Slot.method?

def isFrozen (s : Scopes) (m : ScopeId) : Bool := ((s.value? m).map Scope.frozen).getD false

/-- Was the name undefined in this very scope? -/
def isUndefined (s : Scopes) (m : ScopeId) (name : String) : Bool :=
  match s.slot? m name with
  | some .undefined => true
  | _ => false

/-- The names of the methods that a scope has itself, in the order in which they came. -/
def ownMethodNames (s : Scopes) (m : ScopeId) : List String :=
  match s.value? m with
  | some scope => scope.methods.entries.filterMap fun (name, slot) => slot.method?.map fun _ => name
  | none => []

def setSlot (s : Scopes) (m : ScopeId) (name : String) (slot : Slot) : Scopes :=
  s.update m fun scope => { scope with methods := scope.methods.set name slot }

def whenOpen (s : Scopes) (m : ScopeId) (change : Except Fault Scopes) : Except Fault Scopes :=
  if s.isFrozen m then .error (.frozen (s.called m)) else change

def define (s : Scopes) (m : ScopeId) (name : String) (params : List String)
    (body : Option Node) : Except Fault Scopes :=
  s.whenOpen m (.ok (s.setSlot m name (.defined ⟨name, params, body, m⟩)))

/-- Undefines a name, which must resolve to a method. -/
def undef (s : Scopes) (m : ScopeId) (name : String) : Except Fault Scopes :=
  s.whenOpen m <| match s.find? m name with
    | none => .error (.undefinedMethod name (s.called m))
    | some _ => .ok (s.setSlot m name .undefined)

/-- Gives the method that a name resolves to another name as well. -/
def addAlias (s : Scopes) (m : ScopeId) (newName oldName : String) : Except Fault Scopes :=
  s.whenOpen m <| match s.find? m oldName with
    | none => .error (.undefinedMethod oldName (s.called m))
    | some method => .ok (s.setSlot m newName (.defined { method with name := newName }))

/-- Freezes a scope, for good. -/
def freeze (s : Scopes) (m : ScopeId) : Scopes :=
  s.update m fun scope => { scope with frozen := true }

def mapBodies (f : Node → Node) (s : Scopes) : Scopes :=
  s.map fun scope => { scope with methods := scope.methods.map (Slot.mapBody f) }

/-- The names whose methods give an object its identity. Undefining one calls for a warning. -/
def identityNames : List String := ["__id__", "__send__", "object_id"]

end Scopes

end Treewalk
