import Treewalk.Options
import Treewalk.Store.Heap

/-!
# Contexts

A context is what one program's evaluation stands on: the current environment, the stack of open
scopes, the constants, how many calls are entered, and the warnings it received. Nodes hold none of
this, so one tree can be evaluated in several contexts.

The changes that evaluation undoes again (opening a scope, entering a call, standing in another
environment) are plain functions here; `Eval` brackets them.
-/

set_option autoImplicit false

namespace Treewalk

/-- What one program's evaluation stands on. -/
structure Context where
  options : Options
  environment : EnvId
  /-- The open scopes, the innermost first. -/
  scopes : List ScopeId
  constants : Table ScopeId
  depth : Nat
  /-- The texts received so far, the oldest first. -/
  warnings : List String

namespace Context

def initial (options : Options) (environment : EnvId) : Context :=
  ⟨options, environment, [], .empty, 0, []⟩

/-- The innermost class or module that is open; none at top level. -/
def currentScope? (c : Context) : Option ScopeId := c.scopes.head?

def openScope (c : Context) (scope : ScopeId) : Context := { c with scopes := scope :: c.scopes }

def closeScope (c : Context) : Context := { c with scopes := c.scopes.tail }

def isAtLimit (c : Context) : Bool := decide (c.options.maxCallDepth ≤ c.depth)

def enter (c : Context) : Context := { c with depth := c.depth + 1 }

def leave (c : Context) : Context := { c with depth := c.depth - 1 }

/-- The context with a warning received, unless warnings are off. -/
def warn (c : Context) (message : String) (location : Option Location) : Context :=
  if c.options.warnings then
    let place := match location with
      | none => ""
      | some l => s!"{l}: "
    { c with warnings := c.warnings ++ [place ++ "warning: " ++ message] }
  else c

end Context

/-- The text of a warning about a place. -/
def Location.warning (l : Location) (message : String) : String := s!"{l}: warning: {message}"

namespace Context

theorem warn_eq (c : Context) (message : String) (l : Location) :
    c.warn message (some l) =
      if c.options.warnings then { c with warnings := c.warnings ++ [l.warning message] }
      else c := by
  have htext : s!"{l}: " ++ "warning: " ++ message = l.warning message := by
    unfold Location.warning
    simp only [toString, String.append_assoc]
    rfl
  unfold warn
  rw [← htext]

end Context

/-- A new context, with a new environment that has no parent. -/
def Heap.newContext (h : Heap) (options : Options) : Context × Heap :=
  (.initial options h.environments.size,
    { h with environments := h.environments.add none .empty })

end Treewalk
