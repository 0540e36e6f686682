import Treewalk.Eval.Assign

/-!
# Evaluating one node

`Eval.step` evaluates a node, given how to evaluate other nodes: `ev` is that function, and the
recursion is closed over it in `Eval.Run`. A loop may go round `fuel` times.

Operands are evaluated from left to right. A call looks its method up before it evaluates its
arguments and keeps to that method, whatever they do; then come the number of arguments, then the
depth of calls, and only then is an environment made for the parameters.
-/

set_option autoImplicit false

namespace Treewalk

namespace Eval

def all (ev : Node → Eval Value) : List Node → Eval (List Value)
  | [] => pure []
  | n :: ns => do
    let v ← ev n
    let vs ← all ev ns
    pure (v :: vs)

/-- Evaluates nodes from left to right and yields the last value, or the given one if there are
no nodes. -/
def last (ev : Node → Eval Value) (v : Value) : List Node → Eval Value
  | [] => pure v
  | n :: ns => do
    let w ← ev n
    last ev w ns

def interpolate (ev : Node → Eval Value) (parts : List Node) : Eval String := do
  let vs ← all ev parts
  pure (String.join (vs.map Value.text))

/-- Goes round while the condition yields a true value. A `next` from the body ends the round, a
`break` the loop; its value is the loop's. -/
def loop (condition body : Eval Value) : Nat → Eval Value
  | 0 => outOfFuel
  | fuel + 1 => do
    let c ← condition
    if c.isTruthy then
      match ← probe body with
      | .value _ => loop condition body fuel
      | .jump s =>
        match s.keyword with
        | .brk => pure s.value
        | .next => loop condition body fuel
        | .ret => jump s
    else pure .nil

/-- The method name that a name operand denotes. One that is spelled out is not evaluated. -/
def resolveName (ev : Node → Eval Value) (n : Node) : Eval String :=
  match n.staticName? with
  | some name => pure name
  | none => do
    let v ← ev n
    match v.methodName? with
    | some name => pure name
    | none => fault (.notAName v) (some n.location)

/-- Would evaluation yield a value? What it does on the way is done. -/
def definition? (ev : Node → Eval Value) (n : Node) : Eval (Option String) := do
  match ← probe (ev n) with
  | .value _ => pure (some "expression")
  | .jump _ => pure none

/-- Runs a method's body. A `return` ends it and gives it its value. -/
def body (ev : Node → Eval Value) : Option Node → Eval Value
  | none => pure .nil
  | some n => do
    match ← probe (ev n) with
    | .value v => pure v
    | .jump s =>
      match s.keyword with
      | .ret => pure s.value
      | _ => jump s

/-- Runs a method with given arguments, in the scope it was defined in. -/
def invoke (ev : Node → Eval Value) (method : Method) (location : Location) (vs : List Value) :
    Eval Value :=
  if vs.length = method.params.length then
    enterCall (some location) <| withScope method.owner do
      let e ← newEnvironment (.ofPairs (method.params.zip vs))
      withEnvironment e (body ev method.body)
  else
    fault (.arity (.ofNat vs.length) (.ofNat method.params.length)) (some location)

/-- Calls the method of a name, as the current scope has it. -/
def call (ev : Node → Eval Value) (location : Location) (name : String) (operands : List Node) :
    Eval Value := do
  match ← currentScope? with
  | none => fault (.noMethod name none) (some location)
  | some scope =>
    match ← look (·.heap.scopes.find? scope name) with
    | none =>
      let receiver ← look (·.heap.scopes.called scope)
      fault (.noMethod name (some receiver)) (some location)
    | some method => do
      -- The method is settled here: what the operands do to the table comes too late for this call.
      let vs ← all ev operands
      invoke ev method location vs

/-- Runs the body of a class or module, with that scope open and local variables of its own. -/
def runScope (ev : Node → Eval Value) (scope : ScopeId) : Option Node → Eval Value
  | none => pure .nil
  | some n => withScope scope do
    let e ← newEnvironment .empty
    withEnvironment e (ev n)

/-- Fails with the given fault unless a scope is open, and goes on with that scope. -/
def inOpenScope (cause : Fault) (location : Location) (go : ScopeId → Eval Value) : Eval Value := do
  match ← currentScope? with
  | none => fault cause (some location)
  | some scope => go scope

/-- Evaluates one node, given how to evaluate others. -/
def step (fuel : Nat) (ev : Node → Eval Value) : Node → Eval Value
  | .nil _ => pure .nil
  | .bool _ value => pure (.bool value)
  | .int _ value _ => pure (.int value)
  | .float _ value => pure (.float value)
  | .str _ text => pure (.string text)
  | .dstr _ parts => do return .string (← interpolate ev parts)
  | .symbol _ name => pure (.symbol name)
  | .dsymbol _ parts => do return .symbol (← interpolate ev parts)
  | .literal .. => misuse (.notEvaluable .literal)
  | .array _ elements => do return .list (← all ev elements)
  | .localVar t name => readLocal name (some t.location)
  | .localAssign _ name none => misuse (.noValue name)
  | .localAssign _ name (some value) => do
    let v ← ev value
    assignLocal name v
    pure v
  | .multiAssign _ _ _ none => misuse .noDestructuredValue
  | .multiAssign _ targets rest (some value) => do
    let v ← ev value
    destructure targets rest v
    pure v
  | .block _ statements => last ev .nil statements
  | .newline _ statement => ev statement
  | .whileLoop _ condition body => loop (ev condition) (ev body) fuel
  | .jump t keyword none => jump ⟨keyword, .nil, some t.location⟩
  | .jump t keyword (some value) => do
    let v ← ev value
    jump ⟨keyword, v, some t.location⟩
  | .defined _ expression => do
    match ← definition? ev expression with
    | some description => pure (.string description)
    | none => pure .nil
  | .args .. => misuse (.notEvaluable .args)
  | .define t name params body => inOpenScope (.noScopeToDefine name) t.location fun scope => do
    changeScopes (some t.location) (·.define scope name params.names body)
    pure (.symbol name)
  | .call t name operands => call ev t.location name operands
  | .scope t sort name body => do
    let scope ← openConstant sort name (some t.location)
    runScope ev scope body
  | .undef t operand =>
    inOpenScope (.noScopeToUndef operand.staticName?) t.location fun scope => do
      -- The scope is the one that was open before the operand was evaluated.
      let name ← resolveName ev operand
      undefMethod scope name (some t.location)
      pure .nil
  | .aliasName t newOperand oldOperand => inOpenScope .noScopeToAlias t.location fun scope => do
    let newName ← resolveName ev newOperand
    let oldName ← resolveName ev oldOperand
    changeScopes (some t.location) (·.addAlias scope newName oldName)
    pure .nil

end Eval

end Treewalk
