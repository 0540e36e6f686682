import Mathlib.Data.List.Forall2
import Treewalk.Eval.Run

/-!
# Judgments on computations

A *judgment* says what two computations have in common, given how their values are related. The
laws of evaluation are judgments: that more fuel changes no result, that a pruned tree does what
the tree does. A law about one computation alone is a judgment that ignores its right side: that
the open scopes are what they were, that no misuse comes about.

`Compatible L J` is what has to be known of a judgment before anything can be said of a node. It
speaks of the primitives of `Eval` only; this module derives the combinators of one evaluation
step from it (`all`, `last`, `loop`, `call` and the rest), and `Proofs.Step` derives the step. It
comes in layers, for some judgments hold of a part of the language only: `Sequential` is enough for
nodes that pass on what their parts do, `Jumping` adds jumps and what receives them, and `Acting`
adds what happens in an open class or module. On top of that, and apart from each other, `Defining`
adds that classes and modules are opened, and `Undefining` that methods are undefined; `Scoping` is
both.

What two runs may differ in stands in a `Likeness`: which nodes are evaluated on the two sides,
which bodies are stored, which scopes answer each other. Values are always the same on both sides.
-/

set_option autoImplicit false

namespace Treewalk

/-- What two computations have in common, given how their values are related. -/
abbrev Judgment := (α : Type) → (α → α → Prop) → Eval α → Eval α → Prop

theorem received_of_eq {s s' : Signal} (h : s = s') :
    s.keyword = s'.keyword ∧ s.value = s'.value := by
  subst h
  exact ⟨rfl, rfl⟩

/-- The faults that evaluation places at a node. Those of a missing scope come about only where
there may be none. -/
def Fault.Arises (stray : Prop) : Fault → Prop
  | .noScopeToDefine _ | .noScopeToUndef _ | .noScopeToAlias => stray
  | .unexpectedJump _ | .stated .. => False
  | _ => True

/-- What counts as alike in two runs, and what may come about in them. -/
structure Likeness where
  /-- Nodes that are evaluated. -/
  node : Node → Node → Prop
  /-- Nodes that are kept as bodies of methods. -/
  body : Node → Node → Prop
  /-- Nodes that are assigned to. -/
  target : Node → Node → Prop
  tag : Tag → Tag → Prop
  scope : ScopeId → ScopeId → Prop
  signal : Signal → Signal → Prop
  misuse : Misuse → Prop
  loops : Prop
  /-- May there be no scope that is open? -/
  stray : Prop
  /-- Whatever receives a jump cannot tell the two apart. -/
  received : ∀ {s s' : Signal}, signal s s' → s.keyword = s'.keyword ∧ s.value = s'.value

/-- Scopes that are current on the two sides, or none where there may be none. -/
inductive Likeness.Current (L : Likeness) : Option ScopeId → Option ScopeId → Prop
  | none : L.stray → Current L none none
  | some {s s' : ScopeId} : L.scope s s' → Current L (some s) (some s')

theorem Likeness.Current.of_rel {L : Likeness} (hstray : L.stray) {o o' : Option ScopeId}
    (h : Option.Rel L.scope o o') : L.Current o o' := by
  cases h with
  | none => exact .none hstray
  | some hs => exact .some hs

/-- Two methods that are called in the same way, with bodies that are alike. -/
structure Likeness.Methods (L : Likeness) (a b : Method) : Prop where
  params : a.params = b.params
  owner : L.scope a.owner b.owner
  body : Option.Rel L.body a.body b.body

/-- Two name operands that spell out the same name, or two that are evaluated. -/
inductive Likeness.Operands (L : Likeness) : Node → Node → Prop
  | spelledOut {n n' : Node} {name : String} : n.staticName? = some name →
      n'.staticName? = some name → Operands L n n'
  | computed {n n' : Node} : n.staticName? = none → n'.staticName? = none → L.node n n' →
      L.tag n.tag n'.tag → Operands L n n'

theorem Likeness.Operands.staticName?_eq {L : Likeness} {n n' : Node} (h : L.Operands n n') :
    n.staticName? = n'.staticName? := by
  cases h with
  | spelledOut h h' => rw [h, h']
  | computed h h' _ _ => rw [h, h']

/-- Two probes with the same answer. -/
inductive Probe.Like {α : Type} (A : α → α → Prop) (S : Signal → Signal → Prop) :
    Probe α → Probe α → Prop
  | value {a b : α} : A a b → Like A S (.value a) (.value b)
  | jump {s t : Signal} : S s t → Like A S (.jump s) (.jump t)

namespace Eval

/-- Runs a body in a new environment. -/
def withNewEnvironment {α : Type} (bindings : Table Value) (body : Eval α) : Eval α := do
  let e ← newEnvironment bindings
  withEnvironment e body

end Eval

/-! ## How computations go on -/

/-- The machine inside one more call. -/
def Machine.inCall (m : Machine) : Machine :=
  { m with context := m.context.enter }.record .entered

/-- The method that a call of this name settles on. -/
def Machine.callee? (m : Machine) (name : String) : Option Method :=
  m.context.currentScope?.bind fun s => m.heap.scopes.find? s name

/-- The machine with a class or module made under a new name. -/
def Machine.create (m : Machine) (sort : ScopeSort) (name : String) : Machine :=
  { m with
    context := { m.context with
      constants := m.context.constants.set name m.heap.scopes.size }
    heap := { m.heap with scopes := m.heap.scopes.create ⟨sort, name⟩ none } }

namespace Eval

variable {α β : Type} {x : Eval α} {m : Machine}

theorem bind_of_value {a : α} (h : (x m).1 = .value a) (f : α → Eval β) :
    (x >>= f) m = f a (x m).2 := by
  show andThen x f m = _
  unfold andThen
  rcases hx : x m with ⟨o, m'⟩
  rw [hx] at h
  cases h
  rfl

theorem bind_of_jump {s : Signal} (h : (x m).1 = .jump s) (f : α → Eval β) :
    (x >>= f) m = (.jump s, (x m).2) := by
  show andThen x f m = _
  unfold andThen
  rcases hx : x m with ⟨o, m'⟩
  rw [hx] at h
  cases h
  rfl

theorem bind_of_error {e : Error} (h : (x m).1 = .error e) (f : α → Eval β) :
    (x >>= f) m = (.error e, (x m).2) := by
  show andThen x f m = _
  unfold andThen
  rcases hx : x m with ⟨o, m'⟩
  rw [hx] at h
  cases h
  rfl

theorem bind_of_outOfFuel (h : (x m).1 = .outOfFuel) (f : α → Eval β) :
    (x >>= f) m = (.outOfFuel, (x m).2) := by
  show andThen x f m = _
  unfold andThen
  rcases hx : x m with ⟨o, m'⟩
  rw [hx] at h
  cases h
  rfl

theorem probe_of_value {a : α} (h : (x m).1 = .value a) :
    probe x m = (.value (.value a), (x m).2) := by
  unfold probe
  rcases hx : x m with ⟨o, m'⟩
  rw [hx] at h
  cases h
  rfl

theorem probe_of_jump {s : Signal} (h : (x m).1 = .jump s) :
    probe x m = (.value (.jump s), (x m).2) := by
  unfold probe
  rcases hx : x m with ⟨o, m'⟩
  rw [hx] at h
  cases h
  rfl

theorem probe_of_error {e : Error} (h : (x m).1 = .error e) :
    probe x m = (.error e, (x m).2) := by
  unfold probe
  rcases hx : x m with ⟨o, m'⟩
  rw [hx] at h
  cases h
  rfl

theorem probe_of_outOfFuel (h : (x m).1 = .outOfFuel) : probe x m = (.outOfFuel, (x m).2) := by
  unfold probe
  rcases hx : x m with ⟨o, m'⟩
  rw [hx] at h
  cases h
  rfl

theorem receive_of_value {a : α} (h : (x m).1 = .value a) (f : Probe α → Eval β) :
    (probe x >>= f) m = f (.value a) (x m).2 := by
  have hp := probe_of_value h
  rw [bind_of_value (congrArg Prod.fst hp), hp]

theorem receive_of_jump {s : Signal} (h : (x m).1 = .jump s) (f : Probe α → Eval β) :
    (probe x >>= f) m = f (.jump s) (x m).2 := by
  have hp := probe_of_jump h
  rw [bind_of_value (congrArg Prod.fst hp), hp]

theorem receive_of_error {e : Error} (h : (x m).1 = .error e) (f : Probe α → Eval β) :
    (probe x >>= f) m = (.error e, (x m).2) := by
  have hp := probe_of_error h
  rw [bind_of_error (congrArg Prod.fst hp), hp]

theorem receive_of_outOfFuel (h : (x m).1 = .outOfFuel) (f : Probe α → Eval β) :
    (probe x >>= f) m = (.outOfFuel, (x m).2) := by
  have hp := probe_of_outOfFuel h
  rw [bind_of_outOfFuel (congrArg Prod.fst hp), hp]

theorem observed_eq (activity : Activity) (n : Node) (x : Eval Value) (m : Machine) :
    observed activity n x m = ((x (m.record (.started activity n))).1,
      (x (m.record (.started activity n))).2.record
        (.ended activity n (x (m.record (.started activity n))).1)) := rfl

/-- At the limit nothing is entered, so nothing is left either. -/
theorem enterCall_of_limit {l : Option Location} (h : m.context.isAtLimit = true) (x : Eval α) :
    enterCall l x m = (.error (.fault .tooDeep l), m) := by
  simp only [enterCall, bind, andThen, look, h]
  rfl

theorem enterCall_of_room {l : Option Location} (h : m.context.isAtLimit = false) (x : Eval α) :
    enterCall l x m =
      ((x m.inCall).1, { (x m.inCall).2 with context := (x m.inCall).2.context.leave }) := by
  simp only [enterCall, bind, andThen, look, h]
  rfl

/-- A call settles on a method first; then come the arguments, then the body. -/
theorem call_eq (ev : Node → Eval Value) (l : Location) (name : String) (args : List Node)
    (m : Machine) :
    call ev l name args m = match m.callee? name with
      | none => fault
          (.noMethod name (m.context.currentScope?.map m.heap.scopes.called)) (some l) m
      | some method => (all ev args >>= invoke ev method l) m := by
  have hlook : ∀ {α β : Type} (f : Machine → α) (g : α → Eval β),
      (look f >>= g) m = g (f m) m := fun _ _ => rfl
  unfold call currentScope? Machine.callee?
  rw [hlook]
  cases m.context.currentScope? with
  | none => rfl
  | some s =>
    dsimp only [Option.bind_some, Option.map_some]
    rw [hlook]
    cases m.heap.scopes.find? s name with
    | none => rfl
    | some method => rfl

theorem inOpenScope_of_none {cause : Fault} {l : Location} {go : ScopeId → Eval Value}
    (h : m.context.currentScope? = none) :
    inOpenScope cause l go m = (.error (.fault cause (some l)), m) := by
  simp only [inOpenScope, currentScope?, look, bind, andThen, h]
  rfl

theorem openConstant_of_some {sort : ScopeSort} {name : String} {l : Option Location} {s : ScopeId}
    (h : m.context.constants.get? name = some s) :
    openConstant sort name l m =
      if (m.heap.scopes.called s).sort = sort then (.value s, m)
      else (.error (.fault (.wrongSort name sort) l), m) := by
  simp only [openConstant, bind, andThen, look, h]
  split
  · rfl
  · rfl

theorem openConstant_of_none {sort : ScopeSort} {name : String} {l : Option Location}
    (h : m.context.constants.get? name = none) :
    openConstant sort name l m = (.value m.heap.scopes.size, m.create sort name) := by
  simp only [openConstant, bind, andThen, look, h]
  rfl

end Eval

/-! ## Judgments that carry over -/

/-- What a judgment has to satisfy to carry over to nodes that pass on what their parts do. -/
structure Sequential (L : Likeness) (J : Judgment) : Prop where
  yield : ∀ {α : Type} {A : α → α → Prop} {a b : α}, A a b → J α A (pure a) (pure b)
  andThen : ∀ {α β : Type} {A : α → α → Prop} {B : β → β → Prop} {x y : Eval α}
    {f g : α → Eval β}, J α A x y → (∀ a b, A a b → J β B (f a) (g b)) →
    J β B (x >>= f) (y >>= g)
  misuse : ∀ {α : Type} {A : α → α → Prop} {c : Misuse}, L.misuse c →
    J α A (Eval.misuse c) (Eval.misuse c)
  fault : ∀ {α : Type} {A : α → α → Prop} {t t' : Tag} (c : Fault), c.Arises L.stray →
    L.tag t t' → J α A (Eval.fault c (some t.location)) (Eval.fault c (some t'.location))
  assigning : ∀ {n n' : Node} {x y : Eval Value}, L.target n n' → J _ Eq x y →
    J _ Eq (Eval.observed .assigning n x) (Eval.observed .assigning n' y)
  readLocal : ∀ {t t' : Tag} (name : String), L.tag t t' →
    J _ Eq (Eval.readLocal name (some t.location)) (Eval.readLocal name (some t'.location))
  assignLocal : ∀ (name : String) (v : Value),
    J _ Eq (Eval.assignLocal name v) (Eval.assignLocal name v)

/-- What it has to satisfy to carry over to nodes that jump or receive jumps as well. -/
structure Jumping (L : Likeness) (J : Judgment) : Prop extends Sequential L J where
  jump : ∀ {α : Type} {A : α → α → Prop} {s s' : Signal}, L.signal s s' →
    J α A (Eval.jump s) (Eval.jump s')
  probe : ∀ {α : Type} {A : α → α → Prop} {x y : Eval α}, J α A x y →
    J _ (Probe.Like A L.signal) (Eval.probe x) (Eval.probe y)

/-- What it has to satisfy to carry over to nodes that act in a scope that is open, those that
undefine methods apart. -/
structure Acting (L : Likeness) (J : Judgment) : Prop extends Sequential L J where
  currentScope : J _ L.Current Eval.currentScope? Eval.currentScope?
  find : ∀ {s s' : ScopeId} (name : String), L.scope s s' →
    J _ (Option.Rel L.Methods) (Eval.look (·.heap.scopes.find? s name))
      (Eval.look (·.heap.scopes.find? s' name))
  called : ∀ {s s' : ScopeId}, L.scope s s' →
    J _ Eq (Eval.look (·.heap.scopes.called s)) (Eval.look (·.heap.scopes.called s'))
  define : ∀ {t t' : Tag} {s s' : ScopeId} {b b' : Option Node} (name : String)
    (params : List String), L.tag t t' → L.scope s s' → Option.Rel L.body b b' →
    J _ Eq (Eval.changeScopes (some t.location) (·.define s name params b))
      (Eval.changeScopes (some t'.location) (·.define s' name params b'))
  addAlias : ∀ {t t' : Tag} {s s' : ScopeId} (newName oldName : String), L.tag t t' →
    L.scope s s' →
    J _ Eq (Eval.changeScopes (some t.location) (·.addAlias s newName oldName))
      (Eval.changeScopes (some t'.location) (·.addAlias s' newName oldName))
  withScope : ∀ {α : Type} {A : α → α → Prop} {s s' : ScopeId} {x y : Eval α}, L.scope s s' →
    J α A x y → J α A (Eval.withScope s x) (Eval.withScope s' y)
  withNewEnvironment : ∀ {α : Type} {A : α → α → Prop} {x y : Eval α} (bindings : Table Value),
    J α A x y → J α A (Eval.withNewEnvironment bindings x) (Eval.withNewEnvironment bindings y)

/-- What it has to satisfy to carry over to nodes that open scopes as well. -/
structure Defining (L : Likeness) (J : Judgment) : Prop extends Acting L J where
  openConstant : ∀ {t t' : Tag} (sort : ScopeSort) (name : String), L.tag t t' →
    J _ L.scope (Eval.openConstant sort name (some t.location))
      (Eval.openConstant sort name (some t'.location))

/-- What it has to satisfy to carry over to nodes that undefine methods as well. -/
structure Undefining (L : Likeness) (J : Judgment) : Prop extends Acting L J where
  undef : ∀ {t t' : Tag} {s s' : ScopeId} (name : String), L.tag t t' → L.scope s s' →
    J _ Eq (Eval.undefMethod s name (some t.location))
      (Eval.undefMethod s' name (some t'.location))

/-- What it has to satisfy to carry over to all nodes that act on scopes or open them. -/
structure Scoping (L : Likeness) (J : Judgment) : Prop extends Defining L J, Undefining L J

/-- What the primitives of evaluation have to satisfy for a judgment to carry over to a step. -/
structure Compatible (L : Likeness) (J : Judgment) : Prop extends Jumping L J, Scoping L J

variable {L : Likeness} {J : Judgment} {ev ev' : Node → Eval Value}

namespace Sequential

/-- Two computations with the same value, each followed by another. -/
theorem andThenEq {α β : Type} (hJ : Sequential L J) {B : β → β → Prop} {x y : Eval α}
    {f g : α → Eval β} (hx : J α Eq x y) (hf : ∀ a, J β B (f a) (g a)) :
    J β B (x >>= f) (y >>= g) := by
  refine hJ.andThen hx fun a b hab => ?_
  subst hab
  exact hf a

/-! ## Sequences of nodes -/

theorem all (hJ : Sequential L J) (hev : ∀ n n', L.node n n' → J _ Eq (ev n) (ev' n'))
    {ns ns' : List Node} (h : List.Forall₂ L.node ns ns') :
    J _ Eq (Eval.all ev ns) (Eval.all ev' ns') := by
  induction h with
  | nil => exact hJ.yield rfl
  | cons hn _ ih =>
    refine hJ.andThenEq (hev _ _ hn) fun v => ?_
    exact hJ.andThenEq ih fun vs => hJ.yield rfl

theorem last (hJ : Sequential L J) (hev : ∀ n n', L.node n n' → J _ Eq (ev n) (ev' n'))
    {ns ns' : List Node} (h : List.Forall₂ L.node ns ns') (v : Value) :
    J _ Eq (Eval.last ev v ns) (Eval.last ev' v ns') := by
  induction h generalizing v with
  | nil => exact hJ.yield rfl
  | cons hn _ ih => exact hJ.andThenEq (hev _ _ hn) fun w => ih w

theorem interpolate (hJ : Sequential L J) (hev : ∀ n n', L.node n n' → J _ Eq (ev n) (ev' n'))
    {ns ns' : List Node} (h : List.Forall₂ L.node ns ns') :
    J _ Eq (Eval.interpolate ev ns) (Eval.interpolate ev' ns') :=
  hJ.andThenEq (hJ.all hev h) fun _ => hJ.yield rfl

/-! ## Name operands -/

theorem resolveName (hJ : Sequential L J) {n n' : Node} (h : L.Operands n n')
    (hev : ∀ n n', L.node n n' → J _ Eq (ev n) (ev' n')) :
    J _ Eq (Eval.resolveName ev n) (Eval.resolveName ev' n') := by
  unfold Eval.resolveName
  cases h with
  | spelledOut h h' =>
    rw [h, h']
    exact hJ.yield rfl
  | computed h h' hn ht =>
    rw [h, h']
    refine hJ.andThenEq (hev _ _ hn) fun v => ?_
    cases v.methodName? with
    | none => exact hJ.fault _ trivial ht
    | some name => exact hJ.yield rfl

end Sequential

/-! ## Receiving jumps -/

namespace Jumping

/-- What receives a jump goes on alike if it goes on alike after each keyword, a jump that it
raises again included. -/
theorem receive {α β : Type} (hJ : Jumping L J) {A : α → α → Prop} {B : β → β → Prop}
    {x y : Eval α} {f g : Probe α → Eval β} (h : J α A x y)
    (hvalue : ∀ a b, A a b → J β B (f (.value a)) (g (.value b)))
    (hjump : ∀ s s', L.signal s s' → J β B (f (.jump s)) (g (.jump s'))) :
    J β B (Eval.probe x >>= f) (Eval.probe y >>= g) := by
  refine hJ.andThen (hJ.probe h) fun p q hpq => ?_
  cases hpq with
  | value hab => exact hvalue _ _ hab
  | jump hs => exact hjump _ _ hs

/-- The right loop may go round `k` times more; what that is worth is up to the judgment. -/
theorem loop (hJ : Jumping L J) {c c' b b' : Eval Value} {k : Nat}
    (hout : J Value Eq Eval.outOfFuel (Eval.loop c' b' k)) (hc : J _ Eq c c') (hb : J _ Eq b b')
    (fuel : Nat) : J _ Eq (Eval.loop c b fuel) (Eval.loop c' b' (fuel + k)) := by
  induction fuel with
  | zero =>
    rw [Nat.zero_add]
    exact hout
  | succ fuel ih =>
    rw [Nat.succ_add, Eval.loop, Eval.loop]
    refine hJ.andThenEq hc fun v => ?_
    cases v.isTruthy with
    | false => exact hJ.yield rfl
    | true =>
      refine hJ.receive hb (fun _ _ _ => ih) fun s s' hs => ?_
      obtain ⟨hk, hv⟩ := L.received hs
      dsimp only
      rw [← hk, ← hv]
      -- A `next` goes round again like a body that ended; a `return` is raised again.
      cases s.keyword with
      | brk => exact hJ.yield rfl
      | next => exact ih
      | ret => exact hJ.jump hs

theorem definition (hJ : Jumping L J) {n n' : Node} (h : J _ Eq (ev n) (ev' n')) :
    J _ Eq (Eval.definition? ev n) (Eval.definition? ev' n') :=
  hJ.receive h (fun _ _ _ => hJ.yield rfl) fun _ _ _ => hJ.yield rfl

theorem body (hJ : Jumping L J) {b b' : Option Node} (hb : Option.Rel L.body b b')
    (hev : ∀ n n', L.body n n' → J _ Eq (ev n) (ev' n')) :
    J _ Eq (Eval.body ev b) (Eval.body ev' b') := by
  cases hb with
  | none => exact hJ.yield rfl
  | some h =>
    refine hJ.receive (hev _ _ h) (fun _ _ hv => hJ.yield hv) fun s s' hs => ?_
    obtain ⟨hk, hv⟩ := L.received hs
    dsimp only
    rw [← hk, ← hv]
    cases s.keyword with
    | ret => exact hJ.yield rfl
    | brk | next => exact hJ.jump hs

end Jumping

/-! ## Scopes and calls -/

namespace Acting

theorem inOpenScope (hJ : Acting L J) {t t' : Tag} (ht : L.tag t t') {cause : Fault}
    (hcause : L.stray → cause.Arises L.stray) {go go' : ScopeId → Eval Value}
    (h : ∀ s s', L.scope s s' → J _ Eq (go s) (go' s')) :
    J _ Eq (Eval.inOpenScope cause t.location go) (Eval.inOpenScope cause t'.location go') := by
  refine hJ.andThen hJ.currentScope fun s s' hs => ?_
  cases hs with
  | none h => exact hJ.fault cause (hcause h) ht
  | some hs => exact h _ _ hs

theorem runScope (hJ : Acting L J) {s s' : ScopeId} (hs : L.scope s s')
    {b b' : Option Node} (hb : Option.Rel L.node b b')
    (hev : ∀ n n', L.node n n' → J _ Eq (ev n) (ev' n')) :
    J _ Eq (Eval.runScope ev s b) (Eval.runScope ev' s' b') := by
  cases hb with
  | none => exact hJ.yield rfl
  | some h => exact hJ.withScope hs (hJ.withNewEnvironment .empty (hev _ _ h))

theorem call (hJ : Acting L J) {t t' : Tag} (ht : L.tag t t') (name : String)
    {ns ns' : List Node} (hns : List.Forall₂ L.node ns ns')
    (hev : ∀ n n', L.node n n' → J _ Eq (ev n) (ev' n'))
    (hinvoke : ∀ {a b : Method} (vs : List Value), L.Methods a b →
      J _ Eq (Eval.invoke ev a t.location vs) (Eval.invoke ev' b t'.location vs)) :
    J _ Eq (Eval.call ev t.location name ns) (Eval.call ev' t'.location name ns') := by
  refine hJ.andThen hJ.currentScope fun s s' hs => ?_
  cases hs with
  | none _ => exact hJ.fault _ trivial ht
  | some hs =>
    refine hJ.andThen (hJ.find name hs) fun m m' hm => ?_
    cases hm with
    | none => exact hJ.andThenEq (hJ.called hs) fun _ => hJ.fault _ trivial ht
    | some hm => exact hJ.andThenEq (hJ.all hev hns) fun vs => hinvoke vs hm

end Acting

/-- A call of a method that is settled. What holds inside the call is a judgment of its own, since
it may count how deep calls are nested. -/
theorem Sequential.invokeWith {J' : Judgment} (hJ : Sequential L J) (inner : Acting L J')
    {t t' : Tag} (ht : L.tag t t') {a b : Method} (hm : L.Methods a b)
    (enter : ∀ {x y : Eval Value}, J' _ Eq x y →
      J _ Eq (Eval.enterCall (some t.location) x) (Eval.enterCall (some t'.location) y))
    (hbody : ∀ {o o' : Option Node}, Option.Rel L.body o o' →
      J' _ Eq (Eval.body ev o) (Eval.body ev' o')) (vs : List Value) :
    J _ Eq (Eval.invoke ev a t.location vs) (Eval.invoke ev' b t'.location vs) := by
  unfold Eval.invoke
  rw [← hm.params]
  split
  · refine enter (inner.withScope hm.owner ?_)
    exact inner.withNewEnvironment (.ofPairs (a.params.zip vs)) (hbody hm.body)
  · exact hJ.fault _ trivial ht

theorem Compatible.invoke {J' : Judgment} (hJ : Compatible L J) (inner : Compatible L J')
    {t t' : Tag} (ht : L.tag t t') {a b : Method} (hm : L.Methods a b)
    (enter : ∀ {x y : Eval Value}, J' _ Eq x y →
      J _ Eq (Eval.enterCall (some t.location) x) (Eval.enterCall (some t'.location) y))
    (hev : ∀ n n', L.body n n' → J' _ Eq (ev n) (ev' n')) (vs : List Value) :
    J _ Eq (Eval.invoke ev a t.location vs) (Eval.invoke ev' b t'.location vs) :=
  hJ.invokeWith inner.toActing ht hm enter (fun hb => inner.body hb hev) vs

end Treewalk
