import Treewalk.Proofs.Journal
import Treewalk.Proofs.Scopes
import Treewalk.Proofs.Step

/-!
# Contracts

A contract says what computations keep of the machine, how they may have changed it and how they
may end. `Contract.Meets A x` is a law about one computation, whatever the machine it starts on;
`Contract.judgment` presents it as a judgment that ignores its right side, so that
`Congruence.evaluate` applies.

The lemmas here are the rules for the combinators of `Eval`. What is left to a particular contract
is what the updates of the machine do to it.
-/

set_option autoImplicit false

namespace Treewalk

/-- A warning changes nothing but the texts received. -/
theorem Context.exists_warn_eq (c : Context) (message : String) (l : Option Location) :
    ∃ warnings, c.warn message l = { c with warnings } := by
  unfold Context.warn
  split
  · exact ⟨_, rfl⟩
  · exact ⟨c.warnings, rfl⟩

/-- What computations keep, what they may change and how they may end. -/
structure Contract where
  inv : Machine → Prop
  change : Machine → Machine → Prop
  error : Error → Prop
  signal : Signal → Prop
  starves : Prop
  refl : ∀ m, change m m
  trans : ∀ {m₁ m₂ m₃ : Machine}, change m₁ m₂ → change m₂ m₃ → change m₁ m₃

/-- What may take part in an evaluation: the nodes that are evaluated, kept as bodies and assigned
to, the tags that failures are placed at, the scopes that are opened. -/
structure Roles where
  node : Node → Prop
  body : Node → Prop
  target : Node → Prop
  tag : Tag → Prop
  scope : ScopeId → Prop
  loops : Prop
  /-- May there be no scope that is open? -/
  stray : Prop

/-- Everything may take part. -/
def Roles.any : Roles := ⟨fun _ => True, fun _ => True, fun _ => True, fun _ => True,
  fun _ => True, True, True⟩

/-- Everything may take part but scopes, which are of a set. -/
def Roles.inScopes (S : ScopeId → Prop) : Roles := { Roles.any with scope := S }

namespace Contract

variable {C : Contract} {α β : Type}

/-- Is this a way to end? -/
def Allows (C : Contract) (A : α → Prop) : Outcome α → Prop
  | .value a => A a
  | .jump s => C.signal s
  | .error e => C.error e
  | .outOfFuel => C.starves

theorem isFinal_of_allows {A : α → Prop} {o : Outcome α} (hstarves : ¬ C.starves)
    (h : C.Allows A o) : o.isFinal = true := by
  cases o with
  | outOfFuel => exact absurd h hstarves
  | value | jump | error => rfl

/-- One way from one machine to another. -/
structure Step (C : Contract) (m m' : Machine) : Prop where
  inv : C.inv m'
  change : C.change m m'

/-- The computation keeps the contract on every machine. -/
def Meets (C : Contract) (A : α → Prop) (x : Eval α) : Prop :=
  ∀ m, C.inv m → C.Step m (x m).2 ∧ C.Allows A (x m).1

/-- One tree beside itself, where only what has its role may take part. -/
def likeness (C : Contract) (R : Roles) : Likeness where
  node n n' := n = n' ∧ R.node n
  body n n' := n = n' ∧ R.body n
  target n n' := n = n' ∧ R.target n
  tag t t' := t = t' ∧ R.tag t
  scope s s' := s = s' ∧ R.scope s
  signal s s' := s = s' ∧ C.signal s
  misuse c := C.error (.misuse c)
  loops := R.loops
  stray := R.stray
  received h := received_of_eq h.1

/-- A contract as a judgment on its left side. -/
def judgment (C : Contract) : Judgment := fun _ A x _ => C.Meets (fun a => ∃ b, A a b) x

theorem Step.refl {m : Machine} (h : C.inv m) : C.Step m m := ⟨h, C.refl m⟩

theorem Step.trans {m₁ m₂ m₃ : Machine} (h : C.Step m₁ m₂) (h' : C.Step m₂ m₃) : C.Step m₁ m₃ :=
  ⟨h'.inv, C.trans h.change h'.change⟩

/-! ## Computations that leave the machine alone -/

theorem yield {A : α → Prop} {a : α} (h : A a) : C.Meets A (pure a : Eval α) :=
  fun _ hm => ⟨.refl hm, h⟩

theorem fault {A : α → Prop} {c : Fault} {l : Option Location} (h : C.error (.fault c l)) :
    C.Meets A (Eval.fault c l : Eval α) :=
  fun _ hm => ⟨.refl hm, h⟩

theorem misuse {A : α → Prop} {c : Misuse} (h : C.error (.misuse c)) :
    C.Meets A (Eval.misuse c : Eval α) :=
  fun _ hm => ⟨.refl hm, h⟩

theorem jump {A : α → Prop} {s : Signal} (h : C.signal s) : C.Meets A (Eval.jump s : Eval α) :=
  fun _ hm => ⟨.refl hm, h⟩

theorem outOfFuel {A : α → Prop} (h : C.starves) : C.Meets A (Eval.outOfFuel : Eval α) :=
  fun _ hm => ⟨.refl hm, h⟩

theorem look {A : α → Prop} {f : Machine → α} (h : ∀ m, C.inv m → A (f m)) :
    C.Meets A (Eval.look f) :=
  fun m hm => ⟨.refl hm, h m hm⟩

/-! ## Combinators -/

theorem Meets.imp {A B : α → Prop} {x : Eval α} (hx : C.Meets A x) (h : ∀ a, A a → B a) :
    C.Meets B x := by
  intro m hm
  obtain ⟨hs, ho⟩ := hx m hm
  refine ⟨hs, ?_⟩
  cases hxm : (x m).1 with
  | value a => exact h a (by rw [hxm] at ho; exact ho)
  | jump | error | outOfFuel => rw [hxm] at ho; exact ho

theorem andThen {A : α → Prop} {B : β → Prop} {x : Eval α} {f : α → Eval β} (hx : C.Meets A x)
    (hf : ∀ a, A a → C.Meets B (f a)) : C.Meets B (x >>= f) := by
  intro m hm
  obtain ⟨hs, ho⟩ := hx m hm
  show C.Step m (Eval.andThen x f m).2 ∧ C.Allows B (Eval.andThen x f m).1
  unfold Eval.andThen
  rcases hxm : x m with ⟨o, m'⟩
  rw [hxm] at hs ho
  cases o with
  | value a =>
    obtain ⟨hs', ho'⟩ := hf a ho m' hs.inv
    exact ⟨hs.trans hs', ho'⟩
  | jump s => exact ⟨hs, ho⟩
  | error e => exact ⟨hs, ho⟩
  | outOfFuel => exact ⟨hs, ho⟩

theorem probe {A : α → α → Prop} {S : Signal → Signal → Prop} {x : Eval α}
    (hx : C.Meets (fun a => ∃ b, A a b) x) (hS : ∀ s, C.signal s → S s s) :
    C.Meets (fun p => ∃ q, Probe.Like A S p q) (Eval.probe x) := by
  intro m hm
  obtain ⟨hs, ho⟩ := hx m hm
  unfold Eval.probe
  rcases hxm : x m with ⟨o, m'⟩
  rw [hxm] at hs ho
  cases o with
  | value a =>
    obtain ⟨b, hab⟩ := ho
    exact ⟨hs, _, .value hab⟩
  | jump s => exact ⟨hs, _, .jump (hS s ho)⟩
  | error e => exact ⟨hs, ho⟩
  | outOfFuel => exact ⟨hs, ho⟩

theorem changeContext {f : Context → Context}
    (h : ∀ m, C.inv m → C.Step m { m with context := f m.context }) :
    C.Meets (fun _ => True) (Eval.changeContext f) :=
  fun m hm => ⟨h m hm, trivial⟩

theorem changeScopes {l : Option Location} {f : Scopes → Except Fault Scopes}
    (herror : ∀ scopes c, f scopes = .error c → C.error (.fault c l))
    (h : ∀ m scopes, C.inv m → f m.heap.scopes = .ok scopes →
      C.Step m { m with heap := { m.heap with scopes } }) :
    C.Meets (fun _ => True) (Eval.changeScopes l f) := by
  intro m hm
  unfold Eval.changeScopes
  cases hf : f m.heap.scopes with
  | ok scopes => exact ⟨h m scopes hm hf, trivial⟩
  | error c => exact ⟨.refl hm, herror _ c hf⟩

/-- A bracket is passed if it can be entered and left again from wherever its body ends. -/
theorem within {A : α → Prop} {there : Context → Context} {back : Context → Context → Context}
    {x : Eval α} (hx : C.Meets A x)
    (henter : ∀ m, C.inv m → C.inv { m with context := there m.context })
    (hleave : ∀ m m', C.inv m → C.Step { m with context := there m.context } m' →
      C.Step m { m' with context := back m.context m'.context }) :
    C.Meets A (Eval.within there back x) := by
  intro m hm
  obtain ⟨hs, ho⟩ := hx _ (henter m hm)
  exact ⟨hleave m _ hm hs, ho⟩

theorem observed {A : Value → Prop} {activity : Activity} {n : Node} {x : Eval Value}
    (hx : C.Meets A x) (hstart : ∀ m, C.inv m → C.Step m (m.record (.started activity n)))
    (hend : ∀ m o, C.inv m → C.Step m (m.record (.ended activity n o))) :
    C.Meets A (Eval.observed activity n x) := by
  intro m hm
  -- Three steps: the entry at the start, the computation, the entry at the end.
  have hs₀ := hstart m hm
  obtain ⟨hs, ho⟩ := hx _ hs₀.inv
  exact ⟨(hs₀.trans hs).trans (hend _ _ hs.inv), ho⟩

/-! ## The primitives of evaluation -/

/-- What the updates that go with local variables have to do to a contract. -/
structure Calm (C : Contract) (R : Roles) : Prop where
  fault : ∀ c {t : Tag}, c.Arises R.stray → R.tag t → C.error (.fault c (some t.location))
  startAssigning : ∀ {m : Machine} {n : Node}, R.target n → C.inv m →
    C.Step m (m.record (.started .assigning n))
  endAssigning : ∀ {m : Machine} {n : Node} (o : Outcome Value), R.target n → C.inv m →
    C.Step m (m.record (.ended .assigning n o))
  assignLocal : ∀ {m : Machine} (name : String) (v : Value), C.inv m →
    C.Step m { m with heap := { m.heap with
      environments := m.heap.environments.assign m.context.environment name v } }

/-- What the updates that evaluation makes where no scope is open have to do to a contract. A class
or module is opened there as well; what is done in it is another matter. -/
structure Plain (C : Contract) (R : Roles) : Prop extends Calm C R where
  constant : ∀ {m : Machine} {name : String} {s : ScopeId}, C.inv m →
    m.context.constants.get? name = some s → R.scope s
  create : ∀ {m : Machine} {name : String} (sort : ScopeSort), C.inv m →
    m.context.constants.get? name = none →
    R.scope m.heap.scopes.size ∧
    C.Step m { m with
      context := { m.context with
        constants := m.context.constants.set name m.heap.scopes.size }
      heap := { m.heap with scopes := m.heap.scopes.create ⟨sort, name⟩ none } }

/-- What the updates that evaluation makes in a class or module that is open have to do to a
contract, where no method is undefined and none other is opened. Calls and the observation of
evaluated nodes are not among them. -/
structure Active (C : Contract) (R : Roles) : Prop extends Calm C R where
  stray : ∀ {m : Machine}, C.inv m → m.context.currentScope? = none → R.stray
  currentScope : ∀ {m : Machine} {s : ScopeId}, C.inv m → m.context.currentScope? = some s →
    R.scope s
  method : ∀ {m : Machine} {s : ScopeId} {name : String} {method : Method}, C.inv m → R.scope s →
    m.heap.scopes.find? s name = some method →
    R.scope method.owner ∧ ∀ b ∈ method.body, R.body b
  define : ∀ {m : Machine} {s : ScopeId} {name : String} {params : List String}
    {b : Option Node} {scopes : Scopes}, C.inv m → R.scope s → (∀ n ∈ b, R.body n) →
    m.heap.scopes.define s name params b = .ok scopes →
    C.Step m { m with heap := { m.heap with scopes } }
  addAlias : ∀ {m : Machine} {s : ScopeId} {newName oldName : String} {scopes : Scopes}, C.inv m →
    R.scope s → m.heap.scopes.addAlias s newName oldName = .ok scopes →
    C.Step m { m with heap := { m.heap with scopes } }
  openScope : ∀ {m : Machine} {s : ScopeId}, C.inv m → R.scope s →
    C.inv { m with context := m.context.openScope s }
  closeScope : ∀ {m m' : Machine} {s : ScopeId}, C.inv m → R.scope s →
    C.Step { m with context := m.context.openScope s } m' →
    C.Step m { m' with context := m'.context.closeScope }
  enterEnvironment : ∀ {m : Machine} (bindings : Table Value), C.inv m →
    C.inv { m with
      context := { m.context with environment := m.heap.environments.size }
      heap := { m.heap with environments := m.heap.environments.add none bindings } }
  leaveEnvironment : ∀ {m m' : Machine} (bindings : Table Value), C.inv m →
    C.Step { m with
      context := { m.context with environment := m.heap.environments.size }
      heap := { m.heap with environments := m.heap.environments.add none bindings } } m' →
    C.Step m { m' with context := { m'.context with environment := m.context.environment } }

/-- The same where methods are undefined, too. -/
structure Undoing (C : Contract) (R : Roles) : Prop extends Active C R where
  undef : ∀ {m : Machine} {s : ScopeId} {name : String} {scopes : Scopes}, C.inv m → R.scope s →
    m.heap.scopes.undef s name = .ok scopes →
    C.Step m { m with heap := { m.heap with scopes } }
  warn : ∀ {m : Machine} {s : ScopeId} (name : String) (l : Option Location), C.inv m →
    R.scope s → C.Step m { m with
      context := m.context.warn s!"undefining '{name}' may cause serious problems" l }

/-- What the updates that evaluation makes, where no method is undefined, have to do to a
contract. -/
structure Steady (C : Contract) (R : Roles) : Prop extends Plain C R, Active C R

/-- What all updates have to do to a contract for evaluation to keep it, calls and the observation
of evaluated nodes apart. -/
structure Stable (C : Contract) (R : Roles) : Prop extends Steady C R, Undoing C R

/-! ## From the primitives to the judgment -/

variable {R : Roles}

namespace Calm

theorem meets_readLocal (hC : Calm C R) {t : Tag} (ht : R.tag t) (name : String) :
    C.Meets (fun _ => True) (Eval.readLocal name (some t.location)) := by
  refine andThen (A := fun _ => True) (look fun _ _ => trivial) fun v? _ => ?_
  cases v? with
  | none => exact Contract.fault (hC.fault _ trivial ht)
  | some v => exact yield trivial

/-- Nodes that have nothing to do with scopes need no more. -/
theorem jumping (hC : Calm C R) : Jumping (C.likeness R) C.judgment where
  yield h := Contract.yield ⟨_, h⟩
  andThen hx hf := Contract.andThen hx fun a ⟨b, hab⟩ => hf a b hab
  misuse h := Contract.misuse h
  fault c hc ht := Contract.fault (hC.fault c hc ht.2)
  jump h := Contract.jump h.2
  probe h := Contract.probe h fun _ hs => ⟨rfl, hs⟩
  assigning h hx := Contract.observed hx (fun _ hm => hC.startAssigning h.2 hm)
    fun _ o hm => hC.endAssigning o h.2 hm
  readLocal name h := (hC.meets_readLocal h.2 name).imp fun v _ => ⟨v, rfl⟩
  assignLocal name v _ hm := ⟨hC.assignLocal name v hm, (), rfl⟩

theorem meets_changeScopes (hC : Calm C R) {t : Tag} (ht : R.tag t)
    {f : Scopes → Except Fault Scopes}
    (hf : ∀ scopes c, f scopes = .error c → c.Arises R.stray)
    (h : ∀ (m : Machine) (scopes : Scopes), C.inv m → f m.heap.scopes = .ok scopes →
      C.Step m { m with heap := { m.heap with scopes } }) :
    C.Meets (fun _ => True) (Eval.changeScopes (some t.location) f) :=
  changeScopes (fun scopes c hc => hC.fault c (hf scopes c hc) ht) h

end Calm

theorem Plain.meets_openConstant (hC : Plain C R) {t : Tag} (ht : R.tag t) (sort : ScopeSort)
    (name : String) : C.Meets R.scope (Eval.openConstant sort name (some t.location)) := by
  intro m hm
  cases hk : m.context.constants.get? name with
  | some s =>
    rw [Eval.openConstant_of_some hk]
    split
    · exact ⟨.refl hm, hC.constant hm hk⟩
    · exact ⟨.refl hm, hC.fault _ trivial ht⟩
  | none =>
    -- Between the scope and its constant nothing has to hold.
    obtain ⟨hs, hstep⟩ := hC.create sort hm hk
    rw [Eval.openConstant_of_none hk]
    exact ⟨hstep, hs⟩

theorem body_of_rel {b b' : Option Node} (h : Option.Rel (C.likeness R).body b b') :
    b = b' ∧ ∀ n ∈ b, R.body n := by
  cases h with
  | none => exact ⟨rfl, fun n hn => absurd hn (by simp)⟩
  | some h =>
    obtain ⟨rfl, hb⟩ := h
    exact ⟨rfl, fun n hn => by cases hn; exact hb⟩

namespace Active

theorem meets_define (hC : Active C R) {t : Tag} (ht : R.tag t) {s : ScopeId} (hs : R.scope s)
    (name : String) (params : List String) {b : Option Node} (hb : ∀ n ∈ b, R.body n) :
    C.Meets (fun _ => True) (Eval.changeScopes (some t.location) (·.define s name params b)) := by
  refine hC.meets_changeScopes ht (fun scopes c hc => ?_)
    fun m scopes hm hf => hC.define hm hs hb hf
  rw [Scopes.error_of_define hc]
  trivial

theorem meets_addAlias (hC : Active C R) {t : Tag} (ht : R.tag t) {s : ScopeId} (hs : R.scope s)
    (newName oldName : String) :
    C.Meets (fun _ => True)
      (Eval.changeScopes (some t.location) (·.addAlias s newName oldName)) := by
  refine hC.meets_changeScopes ht (fun scopes c hc => ?_) fun m scopes hm hf => hC.addAlias hm hs hf
  rcases Scopes.error_of_addAlias hc with rfl | rfl
  · trivial
  · trivial

theorem meets_withScope (hC : Active C R) {A : α → Prop} {s : ScopeId} (hs : R.scope s)
    {x : Eval α} (hx : C.Meets A x) : C.Meets A (Eval.withScope s x) :=
  within hx (fun _ hm => hC.openScope hm hs) fun _ _ hm h => hC.closeScope hm hs h

theorem meets_withNewEnvironment (hC : Active C R) {A : α → Prop} (bindings : Table Value)
    {x : Eval α} (hx : C.Meets A x) : C.Meets A (Eval.withNewEnvironment bindings x) := by
  intro m hm
  obtain ⟨hs, ho⟩ := hx _ (hC.enterEnvironment bindings hm)
  exact ⟨hC.leaveEnvironment bindings hm hs, ho⟩

/-- The left side of a judgment on methods: what a lookup finds has its roles. -/
theorem meets_find (hC : Active C R) {s : ScopeId} (hs : R.scope s) (name : String) :
    C.Meets (fun found => Option.Rel (C.likeness R).Methods found found)
      (Eval.look (·.heap.scopes.find? s name)) := by
  refine look fun m hm => ?_
  cases hf : m.heap.scopes.find? s name with
  | none => exact .none
  | some method =>
    obtain ⟨howner, hbody⟩ := hC.method hm hs hf
    exact .some ⟨rfl, ⟨rfl, howner⟩, Likeness.optionRel_same fun b hb => ⟨rfl, hbody b hb⟩⟩

/-- An active contract carries over to all nodes but those that undefine methods or open scopes. -/
theorem acting (hC : Active C R) : Acting (C.likeness R) C.judgment where
  toSequential := hC.jumping.toSequential
  currentScope := Contract.look fun m hm => by
    cases hs : m.context.currentScope? with
    | none => exact ⟨none, .none (hC.stray hm hs)⟩
    | some s => exact ⟨some s, .some ⟨rfl, hC.currentScope hm hs⟩⟩
  find name h := (hC.meets_find h.2 name).imp fun found hf => ⟨found, hf⟩
  called _ := Contract.look fun _ _ => ⟨_, rfl⟩
  define name params ht hs hb :=
    (hC.meets_define ht.2 hs.2 name params (body_of_rel hb).2).imp fun _ _ => ⟨(), rfl⟩
  addAlias newName oldName ht hs :=
    (hC.meets_addAlias ht.2 hs.2 newName oldName).imp fun _ _ => ⟨(), rfl⟩
  withScope hs hx := hC.meets_withScope hs.2 hx
  withNewEnvironment bindings hx := hC.meets_withNewEnvironment bindings hx

end Active

namespace Undoing

theorem meets_undefMethod (hC : Undoing C R) {t : Tag} (ht : R.tag t) {s : ScopeId}
    (hs : R.scope s) (name : String) :
    C.Meets (fun _ => True) (Eval.undefMethod s name (some t.location)) := by
  have hundef : C.Meets (fun _ => True)
      (Eval.changeScopes (some t.location) (·.undef s name)) := by
    refine hC.meets_changeScopes ht (fun scopes c hc => ?_) fun m scopes hm hf => hC.undef hm hs hf
    rcases Scopes.error_of_undef hc with rfl | rfl
    · trivial
    · trivial
  refine andThen (A := fun _ => True) (look fun _ _ => trivial) fun frozen _ => ?_
  dsimp only
  split
  · exact andThen (changeContext fun m hm => hC.warn name _ hm hs) fun _ _ => hundef
  · exact hundef

theorem undefining (hC : Undoing C R) : Undefining (C.likeness R) C.judgment :=
  { hC.acting with
    undef := fun name ht hs => (hC.meets_undefMethod ht.2 hs.2 name).imp fun _ _ => ⟨(), rfl⟩ }

end Undoing

theorem Steady.defining (hC : Steady C R) : Defining (C.likeness R) C.judgment :=
  { hC.acting with
    openConstant := fun sort name ht =>
      (hC.meets_openConstant ht.2 sort name).imp fun s hs => ⟨s, rfl, hs⟩ }

/-- A stable contract is a compatible judgment. -/
theorem Stable.compatible (hC : Stable C R) : Compatible (C.likeness R) C.judgment :=
  { hC.jumping, hC.toSteady.defining, hC.undefining with }

/-! ## Whole evaluations -/

/-- A call is entered only where the limit leaves room for it. -/
theorem meets_enterCall {A : α → Prop} {x : Eval α} {C' : Contract} {l : Option Location}
    (hx : C'.Meets A x) (htooDeep : C.error (.fault .tooDeep l))
    (henter : ∀ m, C.inv m → m.context.isAtLimit = false → C'.inv m.inCall)
    (hleave : ∀ m m' o, C.inv m → C'.Step m.inCall m' → C'.Allows A o →
      C.Step m { m' with context := m'.context.leave } ∧ C.Allows A o) :
    C.Meets A (Eval.enterCall l x) := by
  intro m hm
  cases hlimit : m.context.isAtLimit with
  | true =>
    rw [Eval.enterCall_of_limit hlimit]
    exact ⟨.refl hm, htooDeep⟩
  | false =>
    rw [Eval.enterCall_of_room hlimit]
    obtain ⟨hs, ho⟩ := hx _ (henter m hm hlimit)
    exact hleave m _ _ hm hs ho

theorem steps_inScopes (S : ScopeId → Prop) (herror : ∀ c, C.error (.misuse c))
    (hsignal : ∀ s, C.signal s) (n : Node) : (C.likeness (.inScopes S)).Steps n n :=
  .refl n (fun _ => ⟨rfl, trivial⟩) herror (fun _ _ _ _ _ => ⟨rfl, hsignal _⟩) (fun _ => trivial)
    (fun _ _ => ⟨rfl, trivial⟩) (fun _ _ => ⟨rfl, trivial⟩) fun _ _ => ⟨rfl, trivial⟩

theorem assigns_inScopes (S : ScopeId → Prop) (herror : ∀ c, C.error (.misuse c)) (n : Node) :
    (C.likeness (.inScopes S)).Assigns n n :=
  .refl n (fun _ => ⟨rfl, trivial⟩) herror fun _ _ => ⟨rfl, trivial⟩

theorem steps_any (herror : ∀ c, C.error (.misuse c)) (hsignal : ∀ s, C.signal s) (n : Node) :
    (C.likeness .any).Steps n n :=
  steps_inScopes (fun _ => True) herror hsignal n

theorem assigns_any (herror : ∀ c, C.error (.misuse c)) (n : Node) :
    (C.likeness .any).Assigns n n :=
  assigns_inScopes (fun _ => True) herror n

/-- One step of a node whose parts keep the contract, where everything may take part. A node that
acts on a scope or opens one is left to the contract. -/
theorem Active.meets_step (hC : Active C .any) (hmisuse : ∀ c, C.error (.misuse c))
    (hsignal : ∀ s, C.signal s) (hstarves : C.starves) {fuel : Nat}
    (hev : ∀ c, C.Meets (fun _ => True) (evaluate fuel c))
    (henter : ∀ {A : Value → Prop} {x : Eval Value} (l : Option Location), C.Meets A x →
      C.Meets A (Eval.enterCall l x))
    {n : Node}
    (hacts : (∀ c c', (C.likeness .any).node c c' →
        C.judgment _ Eq (evaluate fuel c) (evaluate fuel c')) →
      (∀ {t t' : Tag} {a b : Method} (vs : List Value), (C.likeness .any).tag t t' →
        (C.likeness .any).Methods a b → C.judgment _ Eq (Eval.invoke (evaluate fuel) a t.location vs)
          (Eval.invoke (evaluate fuel) b t'.location vs)) →
      n.handlesScopes = true → (C.likeness .any).Steps n n →
      C.judgment _ Eq (Eval.step fuel (evaluate fuel) n) (Eval.step fuel (evaluate fuel) n)) :
    C.Meets (fun _ => True) (Eval.step fuel (evaluate fuel) n) := by
  have hjumping := hC.jumping
  have hsteps := steps_any hmisuse hsignal n
  have hparts : ∀ c c', (C.likeness .any).node c c' →
      C.judgment _ Eq (evaluate fuel c) (evaluate fuel c') :=
    fun c _ _ => (hev c).imp fun v _ => ⟨v, rfl⟩
  have hstep : C.judgment _ Eq (Eval.step fuel (evaluate fuel) n)
      (Eval.step fuel (evaluate fuel) n) := by
    cases hscopes : n.handlesScopes with
    | false =>
      refine hjumping.step ?_ hparts ?_ hscopes hsteps
      · rintro c _ ⟨rfl, -⟩
        exact assigns_any hmisuse c
      · intro _ c c' b b' hc hb
        exact hjumping.loop (k := 0) (Contract.outOfFuel hstarves) hc hb fuel
    | true =>
      refine hacts hparts ?_ hscopes hsteps
      intro t t' a b vs ht hm
      refine hjumping.toSequential.invokeWith hC.acting ht hm (henter _) ?_ vs
      exact fun hb => hjumping.body hb hparts
  exact hstep.imp fun _ _ => trivial

/-- A stable contract that calls keep as well, and whose nodes have parts with the right roles. -/
structure Closed (C : Contract) (R : Roles) : Prop extends Stable C R where
  steps : ∀ n, R.node n → (C.likeness R).Steps n n
  assigns : ∀ n, R.target n → (C.likeness R).Assigns n n
  runnable : ∀ n, R.body n → R.node n
  starves : C.starves
  startEvaluating : ∀ {m : Machine} {n : Node}, R.node n → C.inv m →
    C.Step m (m.record (.started .evaluating n))
  endEvaluating : ∀ {m : Machine} {n : Node} (o : Outcome Value), R.node n → C.inv m →
    C.Step m (m.record (.ended .evaluating n o))
  enterCall : ∀ {m : Machine}, C.inv m → m.context.isAtLimit = false → C.inv m.inCall
  leaveCall : ∀ {m m' : Machine}, C.inv m → C.Step m.inCall m' →
    C.Step m { m' with context := m'.context.leave }

namespace Closed

theorem congruence (hC : Closed C R) : Congruence (C.likeness R) C.judgment where
  toCompatible := hC.compatible
  steps := by
    rintro n _ ⟨rfl, hn⟩
    exact hC.steps n hn
  assigns := by
    rintro n _ ⟨rfl, hn⟩
    exact hC.assigns n hn
  runnable := by
    rintro n _ ⟨rfl, hn⟩
    exact ⟨rfl, hC.runnable n hn⟩
  outOfFuel := Contract.outOfFuel hC.starves
  evaluating h hx := Contract.observed hx (fun _ hm => hC.startEvaluating h.2 hm)
    fun _ o hm => hC.endEvaluating o h.2 hm
  enterCall ht hx := meets_enterCall hx (hC.fault _ trivial ht.2)
    (fun _ hm hl => hC.enterCall hm hl) fun _ _ _ hm hs ho => ⟨hC.leaveCall hm hs, ho⟩

theorem evaluate (hC : Closed C R) (fuel : Nat) {n : Node} (hn : R.node n) :
    C.Meets (fun _ => True) (evaluate fuel n) :=
  Meets.imp (hC.congruence.evaluate fuel ⟨rfl, hn⟩) fun _ _ => trivial

end Closed

end Contract

end Treewalk
