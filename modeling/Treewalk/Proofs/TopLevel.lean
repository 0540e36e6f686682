import Treewalk.Proofs.Balance

/-!
# Evaluation at top level

Where no scope is open, `def`, `undef` and `alias` fail before they look at anything, and so does
every call. Only a class or module opens a scope, and by the time it ends none is open again. So
what a contract asks of evaluation at top level comes down to what it asks of `undef`, of `alias`
and of whole classes and modules: `Contract.TopLevel.evaluate`.
-/

set_option autoImplicit false

namespace Treewalk

/-- The fault of a node that finds no scope to undefine or rename a method in. -/
def Node.scopeFault? : Node → Option Fault
  | .undef _ operand => some (.noScopeToUndef operand.staticName?)
  | .aliasName .. => some .noScopeToAlias
  | _ => none

/-- It is an error about types. -/
theorem Node.sort_of_scopeFault {n : Node} {cause : Fault} (h : n.scopeFault? = some cause) :
    cause.sort = .type := by
  cases n with
  | undef | aliasName =>
    cases h
    rfl
  | _ => exact absurd h (by simp [scopeFault?])

/-- It is what the node fails with, before it evaluates an operand. -/
theorem Eval.step_of_scopeFault {n : Node} {cause : Fault} (hn : n.scopeFault? = some cause)
    (fuel : Nat) (ev : Node → Eval Value) {m : Machine} (hm : m.context.currentScope? = none) :
    Eval.step fuel ev n m = (.error (.fault cause (some n.location)), m) := by
  cases n with
  | undef | aliasName =>
    cases hn
    exact inOpenScope_of_none hm
  | _ => exact absurd hn (by simp [Node.scopeFault?])

namespace Contract

variable {C : Contract} {R : Roles} {α : Type}

/-- The same contract, where no scope is open. -/
def atTop (C : Contract) : Contract :=
  { C with inv := fun m => C.inv m ∧ m.context.scopes = [] }

theorem Step.atTop {m m' : Machine} (h : C.Step m m') (hscopes : m'.context.scopes = []) :
    C.atTop.Step m m' :=
  ⟨⟨h.inv, hscopes⟩, h.change⟩

/-- What undoes whatever it opened ends at top level again. -/
theorem Meets.atTop {A : α → Prop} {x : Eval α} (hx : C.Meets A x) (hbalanced : x.Balanced) :
    C.atTop.Meets A x := by
  intro m hm
  obtain ⟨hs, ho⟩ := hx m hm.1
  exact ⟨hs.atTop ((hbalanced m).scopes.trans hm.2), ho⟩

theorem meets_fails {A : α → Prop} {x : Eval α} {e : Error} (he : C.error e)
    (hx : ∀ m : Machine, m.context.currentScope? = none → x m = (.error e, m)) :
    C.atTop.Meets A x := by
  intro m hm
  rw [hx m (congrArg List.head? hm.2)]
  exact ⟨.refl hm, he⟩

theorem Plain.atTop (hC : Plain C R) : Plain C.atTop R where
  fault c _ hc ht := hC.fault c hc ht
  startAssigning hn hm := (hC.startAssigning hn hm.1).atTop hm.2
  endAssigning o hn hm := (hC.endAssigning o hn hm.1).atTop hm.2
  assignLocal name v hm := (hC.assignLocal name v hm.1).atTop hm.2
  constant hm hs := hC.constant hm.1 hs
  create sort hm hnew :=
    ⟨(hC.create sort hm.1 hnew).1, (hC.create sort hm.1 hnew).2.atTop hm.2⟩

/-- What a contract has to say of the nodes with a role at top level. -/
structure TopLevel (C : Contract) (R : Roles) : Prop extends Plain C R where
  tag : ∀ t, R.tag t
  target : ∀ n, R.target n
  misuse : ∀ c, C.error (.misuse c)
  signal : ∀ s, C.signal s
  starves : C.starves
  loops : R.loops
  define : ∀ name l, C.error (.fault (.noScopeToDefine name) l)
  parts : ∀ {c n : Node}, R.node n → n.handlesScopes = false → c ∈ n.parts → R.node c
  start : ∀ {m : Machine} {n : Node}, R.node n → n.scopeFault? = none → C.inv m →
    C.Step m (m.record (.started .evaluating n))
  ended : ∀ {m : Machine} {n : Node} (o : Outcome Value), R.node n → n.scopeFault? = none →
    C.inv m → C.Step m (m.record (.ended .evaluating n o))
  acts : ∀ (fuel : Nat) {n : Node} {cause : Fault}, R.node n → n.scopeFault? = some cause →
    C.atTop.Meets (fun _ => True) (evaluate (fuel + 1) n)
  opens : ∀ (fuel : Nat) {t : Tag} {sort : ScopeSort} {name : String} {b : Option Node},
    R.node (.scope t sort name b) →
    C.Meets (fun _ => True) (evaluate (fuel + 1) (.scope t sort name b))

namespace TopLevel

theorem meets_observed (hC : TopLevel C R) {n : Node} (hn : R.node n) (hact : n.scopeFault? = none)
    {x : Eval Value} (hx : C.atTop.Meets (fun _ => True) x) :
    C.atTop.Meets (fun _ => True) (Eval.observed .evaluating n x) :=
  Contract.observed hx (fun _ hm => (hC.start hn hact hm.1).atTop hm.2)
    fun _ o hm => (hC.ended o hn hact hm.1).atTop hm.2

/-- Nodes that have nothing to do with scopes. -/
theorem meets_step (hC : TopLevel C R) {fuel : Nat}
    (hev : ∀ c, R.node c → C.atTop.Meets (fun _ => True) (evaluate fuel c)) {n : Node}
    (hn : R.node n) (hscopes : n.handlesScopes = false) :
    C.atTop.Meets (fun _ => True) (Eval.step fuel (evaluate fuel) n) := by
  have hJ := hC.toPlain.atTop.jumping
  have hassigns : ∀ c c', (C.atTop.likeness R).target c c' → (C.atTop.likeness R).Assigns c c' := by
    rintro c _ ⟨rfl, -⟩
    exact .refl c (fun t => ⟨rfl, hC.tag t⟩) hC.misuse fun c _ => ⟨rfl, hC.target c⟩
  have hparts : ∀ c c', (C.atTop.likeness R).node c c' →
      C.atTop.judgment _ Eq (evaluate fuel c) (evaluate fuel c') := by
    rintro c _ ⟨rfl, hc⟩
    exact (hev c hc).imp fun v _ => ⟨v, rfl⟩
  have hsteps : (C.atTop.likeness R).Steps n n := by
    refine .refl n (fun t => ⟨rfl, hC.tag t⟩) hC.misuse (fun _ _ _ _ _ => ⟨rfl, hC.signal _⟩)
      (fun _ => hC.loops) (fun c hc => ⟨rfl, hC.parts hn hscopes hc⟩) (fun b hb => ?_)
      fun c _ => ⟨rfl, hC.target c⟩
    cases n with
    | define => exact absurd hscopes Bool.noConfusion
    | _ => exact absurd hb (by simp [Node.stored?])
  have hstep : C.atTop.judgment _ Eq (Eval.step fuel (evaluate fuel) n)
      (Eval.step fuel (evaluate fuel) n) :=
    hJ.step hassigns hparts
      (fun _ _ _ _ _ hc hb => hJ.loop (k := 0) (Contract.outOfFuel hC.starves) hc hb fuel) hscopes
      hsteps
  exact hstep.imp fun _ _ => trivial

/-- Induction on the fuel. Whatever has to do with scopes fails, or is a class or module. -/
theorem evaluate (hC : TopLevel C R) (fuel : Nat) {n : Node} (hn : R.node n) :
    C.atTop.Meets (fun _ => True) (Treewalk.evaluate fuel n) := by
  induction fuel generalizing n with
  | zero => exact Contract.outOfFuel hC.starves
  | succ fuel ih =>
    cases hscopes : n.handlesScopes with
    | false =>
      refine hC.meets_observed hn ?_ (hC.meets_step (fun c hc => ih hc) hn hscopes)
      cases n with
      | undef | aliasName => exact absurd hscopes Bool.noConfusion
      | _ => rfl
    | true =>
      cases n with
      | define t name p b =>
        refine hC.meets_observed hn rfl ?_
        exact meets_fails (hC.define name _) fun m hm => Eval.inOpenScope_of_none hm
      | call t name args =>
        refine hC.meets_observed hn rfl ?_
        refine meets_fails (hC.fault (.noMethod name none) trivial (hC.tag t)) fun m hm => ?_
        show Eval.call _ _ _ _ m = _
        rw [Eval.call_eq, Machine.callee?, hm]
        rfl
      | scope => exact (hC.opens fuel hn).atTop (Eval.Nested.evaluate _ _).balanced
      | undef | aliasName => exact hC.acts fuel hn rfl
      | _ => exact absurd hscopes Bool.noConfusion

end TopLevel

end Contract

end Treewalk
