import Treewalk.Context
import Treewalk.Eval.Outcome

/-!
# Computations of the evaluator

An `Eval` computation runs on a machine (a context and the heap) and leaves an outcome and a
machine. What it did before it failed or jumped is kept.

A machine can keep a journal. Each time a node is evaluated or assigned to, the journal then gets
an entry when that starts and one when it ends, and each time a call is entered it gets an entry
as well, with the context and the heap of that moment. Without a journal nothing is recorded, and
nothing else differs.

Everything that evaluation undoes on its way out (open scopes, entered calls, the environment it
stands in) is undone by `Eval.within`, whatever the outcome. Jumps are received by `Eval.probe`
and nowhere else; errors are received nowhere.
-/

set_option autoImplicit false

namespace Treewalk

inductive Activity where
  | evaluating
  | assigning
  deriving DecidableEq, Repr

inductive Event where
  | started (activity : Activity) (node : Node) (context : Context) (heap : Heap)
  | ended (activity : Activity) (node : Node) (outcome : Outcome Value) (context : Context)
      (heap : Heap)
  | entered (context : Context) (heap : Heap)

def Event.context : Event → Context
  | .started _ _ context _ | .ended _ _ _ context _ | .entered context _ => context

structure Machine where
  context : Context
  heap : Heap
  /-- The entries so far, the oldest first, if a journal is kept. -/
  journal : Option (List Event)

/-- The machine with one more entry in its journal, if it keeps one. -/
def Machine.record (m : Machine) (entry : Context → Heap → Event) : Machine :=
  { m with journal := m.journal.map (· ++ [entry m.context m.heap]) }

/-- A computation that can jump, fail and run out of fuel. -/
def Eval (α : Type) : Type := Machine → Outcome α × Machine

namespace Eval

variable {α β : Type}

def yield (a : α) : Eval α := fun m => (.value a, m)

/-- Goes on with the value of a computation, if it has one. -/
def andThen (x : Eval α) (f : α → Eval β) : Eval β := fun m =>
  match x m with
  | (.value a, m') => f a m'
  | (.jump s, m') => (.jump s, m')
  | (.error e, m') => (.error e, m')
  | (.outOfFuel, m') => (.outOfFuel, m')

instance : Monad Eval where
  pure := yield
  bind := andThen

def outOfFuel : Eval α := fun m => (.outOfFuel, m)

def fail (e : Error) : Eval α := fun m => (.error e, m)

def misuse (cause : Misuse) : Eval α := fail (.misuse cause)

def fault (cause : Fault) (location : Option Location) : Eval α := fail (.fault cause location)

def jump (s : Signal) : Eval α := fun m => (.jump s, m)

def look (f : Machine → α) : Eval α := fun m => (.value (f m), m)

def changeContext (f : Context → Context) : Eval Unit := fun m =>
  (.value (), { m with context := f m.context })

def changeHeap (f : Heap → Heap) : Eval Unit := fun m => (.value (), { m with heap := f m.heap })

/-- Changes the scopes, or fails at a place with the fault that this is. -/
def changeScopes (location : Option Location) (f : Scopes → Except Fault Scopes) : Eval Unit :=
  fun m => match f m.heap.scopes with
    | .ok scopes => (.value (), { m with heap := { m.heap with scopes } })
    | .error cause => (.error (.fault cause location), m)

/-- Runs a body in a changed context, and changes the context back when the body ends, however it
ends. The way back is given the context from before. -/
def within (there : Context → Context) (back : Context → Context → Context) (body : Eval α) :
    Eval α := fun m =>
  let (o, m') := body { m with context := there m.context }
  (o, { m' with context := back m.context m'.context })

def probe (x : Eval α) : Eval (Probe α) := fun m =>
  match x m with
  | (.value a, m') => (.value (.value a), m')
  | (.jump s, m') => (.value (.jump s), m')
  | (.error e, m') => (.error e, m')
  | (.outOfFuel, m') => (.outOfFuel, m')

def observed (activity : Activity) (n : Node) (x : Eval Value) : Eval Value := fun m =>
  let (o, m') := x (m.record (.started activity n))
  (o, m'.record (.ended activity n o))

def entered : Eval Unit := fun m => (.value (), m.record .entered)

/-! ## What evaluation asks of its context -/

/-- The scope that `def`, `undef` and `alias` act on. -/
def currentScope? : Eval (Option ScopeId) := look (·.context.currentScope?)

def warn (message : String) (location : Option Location) : Eval Unit :=
  changeContext (·.warn message location)

def withScope (scope : ScopeId) (body : Eval α) : Eval α :=
  within (·.openScope scope) (fun _ c => c.closeScope) body

def withEnvironment (e : EnvId) (body : Eval α) : Eval α :=
  within (fun c => { c with environment := e })
    (fun before c => { c with environment := before.environment }) body

/-- Runs a body inside one more call, unless calls are nested too deep already. -/
def enterCall (location : Option Location) (body : Eval α) : Eval α := do
  -- At the limit nothing is entered, so there is nothing to leave either.
  if ← look (·.context.isAtLimit) then fault .tooDeep location
  else within Context.enter (fun _ c => c.leave) do
    entered
    body

def newEnvironment (bindings : Table Value) : Eval EnvId := do
  let e ← look (·.heap.environments.size)
  changeHeap fun h => { h with environments := h.environments.add none bindings }
  pure e

def readLocal (name : String) (location : Option Location) : Eval Value := do
  match ← look fun m => m.heap.environments.get? m.context.environment name with
  | some v => pure v
  | none => fault (.unboundLocal name) location

def assignLocal (name : String) (v : Value) : Eval Unit := do
  let e ← look (·.context.environment)
  changeHeap fun h => { h with environments := h.environments.assign e name v }

/-- The class or module of a name, made when it is opened for the first time. A name that stands
for the other sort of scope cannot be opened. -/
def openConstant (sort : ScopeSort) (name : String) (location : Option Location) :
    Eval ScopeId := do
  match ← look (·.context.constants.get? name) with
  | some scope =>
    if (← look (·.heap.scopes.called scope)).sort = sort then pure scope
    else fault (.wrongSort name sort) location
  | none =>
    -- The new scope is the next member of the lineage.
    let scope ← look (·.heap.scopes.size)
    changeHeap fun h => { h with scopes := h.scopes.create ⟨sort, name⟩ none }
    changeContext fun c => { c with constants := c.constants.set name scope }
    pure scope

/-- Undefines a method. Undefining a name that gives objects their identity is warned about, even
if it then turns out that there is no such method, but not in a frozen scope. -/
def undefMethod (scope : ScopeId) (name : String) (location : Option Location) : Eval Unit := do
  let frozen ← look (·.heap.scopes.isFrozen scope)
  if !frozen && Scopes.identityNames.contains name then
    warn s!"undefining '{name}' may cause serious problems" location
  changeScopes location (·.undef scope name)

end Eval

end Treewalk
