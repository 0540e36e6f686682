import Treewalk.Proofs.Step

/-!
# Simulations

A law that compares two runs says how their machines are related from start to end. A simulation
is such a relation, with one on jumps and one on errors, and `Simulation.judgment` says that two
computations which start on related machines end alike on related machines.

A simulation may be *lax*: then it promises nothing about a left side that ran out of fuel. That
is how runs with different fuel compare.
-/

set_option autoImplicit false

namespace Treewalk

/-- Two ends of the same sort, with what they carry related. -/
inductive Outcome.Rel {α : Type} (A : α → α → Prop) (S : Signal → Signal → Prop)
    (E : Error → Error → Prop) : Outcome α → Outcome α → Prop
  | value {a b : α} : A a b → Rel A S E (.value a) (.value b)
  | jump {s t : Signal} : S s t → Rel A S E (.jump s) (.jump t)
  | error {e f : Error} : E e f → Rel A S E (.error e) (.error f)
  | outOfFuel : Rel A S E .outOfFuel .outOfFuel

theorem Outcome.Rel.eq {α : Type} {o o' : Outcome α} (h : o.Rel Eq Eq Eq o') : o = o' := by
  cases h with
  | value h => rw [h]
  | jump h => rw [h]
  | error h => rw [h]
  | outOfFuel => rfl

/-- Nodes that are alike under what is done with them. -/
def Likeness.handled (L : Likeness) : Activity → Node → Node → Prop
  | .evaluating => L.node
  | .assigning => L.target

structure Simulation where
  state : Machine → Machine → Prop
  signal : Signal → Signal → Prop
  error : Error → Error → Prop
  lax : Prop

namespace Simulation

variable {K : Simulation} {α β : Type}

/-- Two runs that ended alike, or of which the left one has not ended and need not have. -/
def Agree (K : Simulation) (A : α → α → Prop) (p q : Outcome α × Machine) : Prop :=
  (K.lax ∧ p.1 = .outOfFuel) ∨ (K.state p.2 q.2 ∧ p.1.Rel A K.signal K.error q.1)

def judgment (K : Simulation) : Judgment := fun _ A x y =>
  ∀ m m', K.state m m' → K.Agree A (x m) (y m')

/-- Two attempts to change the scopes that succeed on related machines, or fail alike. -/
inductive Changed (K : Simulation) (m m' : Machine) :
    Except Fault Scopes → Except Fault Scopes → Prop
  | ok {scopes scopes' : Scopes} :
      K.state { m with heap := { m.heap with scopes } }
        { m' with heap := { m'.heap with scopes := scopes' } } →
      Changed K m m' (.ok scopes) (.ok scopes')
  | error (c : Fault) : Changed K m m' (.error c) (.error c)

/-! ## Computations that leave the machine alone -/

theorem yield {A : α → α → Prop} {a b : α} (h : A a b) :
    K.judgment α A (pure a) (pure b) :=
  fun _ _ hm => .inr ⟨hm, .value h⟩

theorem fail {A : α → α → Prop} {e e' : Error} (h : K.error e e') :
    K.judgment α A (Eval.fail e) (Eval.fail e') :=
  fun _ _ hm => .inr ⟨hm, .error h⟩

theorem jump {A : α → α → Prop} {s s' : Signal} (h : K.signal s s') :
    K.judgment α A (Eval.jump s) (Eval.jump s') :=
  fun _ _ hm => .inr ⟨hm, .jump h⟩

theorem outOfFuel {A : α → α → Prop} : K.judgment α A Eval.outOfFuel Eval.outOfFuel :=
  fun _ _ hm => .inr ⟨hm, .outOfFuel⟩

theorem starved {A : α → α → Prop} {y : Eval α} (h : K.lax) :
    K.judgment α A Eval.outOfFuel y :=
  fun _ _ _ => .inl ⟨h, rfl⟩

theorem look {A : α → α → Prop} {f g : Machine → α} (h : ∀ m m', K.state m m' → A (f m) (g m')) :
    K.judgment α A (Eval.look f) (Eval.look g) :=
  fun m m' hm => .inr ⟨hm, .value (h m m' hm)⟩

/-! ## Combinators -/

/-- Either there is an end that nothing goes on from, or both sides go on with related values. -/
theorem Agree.goesOn {A : α → α → Prop} {x y : Eval α} {m m' : Machine}
    (h : K.Agree A (x m) (y m')) :
    (∃ a b, A a b ∧ K.state (x m).2 (y m').2 ∧ (x m).1 = .value a ∧ (y m').1 = .value b) ∨
      ∀ (β : Type) (B : β → β → Prop) (f g : α → Eval β),
        K.Agree B ((x >>= f) m) ((y >>= g) m') := by
  rcases h with ⟨hl, ho⟩ | ⟨hs, ho⟩
  · refine .inr fun β B f g => .inl ⟨hl, ?_⟩
    rw [Eval.bind_of_outOfFuel ho]
  · rcases hx : (x m).1 with a | s | e | _ <;> rcases hy : (y m').1 with b | s' | e' | _ <;>
      rw [hx, hy] at ho <;> cases ho
    · next hab => exact .inl ⟨a, b, hab, hs, rfl, rfl⟩
    · next hj =>
      refine .inr fun β B f g => .inr ?_
      rw [Eval.bind_of_jump hx, Eval.bind_of_jump hy]
      exact ⟨hs, .jump hj⟩
    · next he =>
      refine .inr fun β B f g => .inr ?_
      rw [Eval.bind_of_error hx, Eval.bind_of_error hy]
      exact ⟨hs, .error he⟩
    · refine .inr fun β B f g => .inr ?_
      rw [Eval.bind_of_outOfFuel hx, Eval.bind_of_outOfFuel hy]
      exact ⟨hs, .outOfFuel⟩

theorem andThen {A : α → α → Prop} {B : β → β → Prop} {x y : Eval α} {f g : α → Eval β}
    (hx : K.judgment α A x y) (hf : ∀ a b, A a b → K.judgment β B (f a) (g b)) :
    K.judgment β B (x >>= f) (y >>= g) := by
  intro m m' hm
  rcases (hx m m' hm).goesOn with ⟨a, b, hab, hs, ha, hb⟩ | h
  · rw [Eval.bind_of_value ha, Eval.bind_of_value hb]
    exact hf a b hab _ _ hs
  · exact h β B f g

theorem Agree.probe {A : α → α → Prop} {x y : Eval α} {m m' : Machine}
    (h : K.Agree A (x m) (y m')) :
    K.Agree (Probe.Like A K.signal) (Eval.probe x m) (Eval.probe y m') := by
  unfold Eval.probe
  rcases hxm : x m with ⟨o, m₁⟩
  rcases hym : y m' with ⟨o', m₁'⟩
  rw [hxm, hym] at h
  rcases h with ⟨hl, ho⟩ | ⟨hs, ho⟩
  · cases ho
    exact .inl ⟨hl, rfl⟩
  · cases ho with
    | value hab => exact .inr ⟨hs, .value (.value hab)⟩
    | jump hj => exact .inr ⟨hs, .value (.jump hj)⟩
    | error he => exact .inr ⟨hs, .error he⟩
    | outOfFuel => exact .inr ⟨hs, .outOfFuel⟩

theorem probe {A : α → α → Prop} {x y : Eval α} (hx : K.judgment α A x y) :
    K.judgment _ (Probe.Like A K.signal) (Eval.probe x) (Eval.probe y) :=
  fun m m' hm => (hx m m' hm).probe

theorem changeContext {f g : Context → Context}
    (h : ∀ m m', K.state m m' →
      K.state { m with context := f m.context } { m' with context := g m'.context }) :
    K.judgment Unit Eq (Eval.changeContext f) (Eval.changeContext g) :=
  fun m m' hm => .inr ⟨h m m' hm, .value rfl⟩

theorem changeScopes {l l' : Option Location} {f g : Scopes → Except Fault Scopes}
    (herror : ∀ c, K.error (.fault c l) (.fault c l'))
    (h : ∀ m m', K.state m m' → K.Changed m m' (f m.heap.scopes) (g m'.heap.scopes)) :
    K.judgment Unit Eq (Eval.changeScopes l f) (Eval.changeScopes l' g) := by
  intro m m' hm
  have hchanged := h m m' hm
  unfold Eval.changeScopes
  cases hf : f m.heap.scopes with
  | ok scopes =>
    rw [hf] at hchanged
    cases hg : g m'.heap.scopes with
    | ok scopes' =>
      rw [hg] at hchanged
      cases hchanged with
      | ok hs => exact .inr ⟨hs, .value rfl⟩
    | error c =>
      rw [hg] at hchanged
      cases hchanged
  | error c =>
    rw [hf] at hchanged
    cases hg : g m'.heap.scopes with
    | ok scopes' =>
      rw [hg] at hchanged
      cases hchanged
    | error c' =>
      rw [hg] at hchanged
      cases hchanged
      exact .inr ⟨hm, .error (herror c)⟩

theorem within {A : α → α → Prop} {there there' : Context → Context}
    {back back' : Context → Context → Context} {x y : Eval α} (hx : K.judgment α A x y)
    (henter : ∀ m m', K.state m m' →
      K.state { m with context := there m.context } { m' with context := there' m'.context })
    (hleave : ∀ m m' n n', K.state m m' → K.state n n' →
      K.state { n with context := back m.context n.context }
        { n' with context := back' m'.context n'.context }) :
    K.judgment α A (Eval.within there back x) (Eval.within there' back' y) := by
  intro m m' hm
  rcases hx _ _ (henter m m' hm) with h | ⟨hs, ho⟩
  · exact .inl h
  · exact .inr ⟨hleave m m' _ _ hm hs, ho⟩

theorem observed {activity : Activity} {n n' : Node} {x y : Eval Value}
    (hx : K.judgment _ Eq x y)
    (hstart : ∀ m m', K.state m m' →
      K.state (m.record (.started activity n)) (m'.record (.started activity n')))
    (hend : ∀ m m' o o', K.state m m' → o.Rel Eq K.signal K.error o' →
      K.state (m.record (.ended activity n o)) (m'.record (.ended activity n' o'))) :
    K.judgment _ Eq (Eval.observed activity n x) (Eval.observed activity n' y) := by
  intro m m' hm
  rcases hx _ _ (hstart m m' hm) with h | ⟨hs, ho⟩
  · exact .inl h
  · exact .inr ⟨hend _ _ _ _ hs ho, ho⟩

/-! ## The primitives of evaluation -/

/-- What it takes to open classes and modules alike. -/
structure Opening (K : Simulation) (L : Likeness) : Prop where
  fault : ∀ (c : Fault) {t t' : Tag}, L.tag t t' →
    K.error (.fault c (some t.location)) (.fault c (some t'.location))
  constant : ∀ {m m' : Machine} (name : String), K.state m m' →
    Option.Rel L.scope (m.context.constants.get? name) (m'.context.constants.get? name)
  called : ∀ {m m' : Machine} {s s' : ScopeId}, K.state m m' → L.scope s s' →
    m.heap.scopes.called s = m'.heap.scopes.called s'
  create : ∀ {m m' : Machine} (sort : ScopeSort) (name : String), K.state m m' →
    L.scope m.heap.scopes.size m'.heap.scopes.size ∧
    K.state
      { m with
        context := { m.context with
          constants := m.context.constants.set name m.heap.scopes.size }
        heap := { m.heap with scopes := m.heap.scopes.create ⟨sort, name⟩ none } }
      { m' with
        context := { m'.context with
          constants := m'.context.constants.set name m'.heap.scopes.size }
        heap := { m'.heap with scopes := m'.heap.scopes.create ⟨sort, name⟩ none } }

/-- What it takes to enter calls alike. -/
structure Calling (K : Simulation) (L : Likeness) : Prop where
  fault : ∀ (c : Fault) {t t' : Tag}, L.tag t t' →
    K.error (.fault c (some t.location)) (.fault c (some t'.location))
  limit : ∀ {m m' : Machine}, K.state m m' → m.context.isAtLimit = m'.context.isAtLimit
  entered : ∀ {m m' : Machine}, K.state m m' → K.state (m.record .entered) (m'.record .entered)
  enter : ∀ {m m' : Machine}, K.state m m' →
    K.state { m with context := m.context.enter } { m' with context := m'.context.enter }
  leave : ∀ {m m' : Machine}, K.state m m' →
    K.state { m with context := m.context.leave } { m' with context := m'.context.leave }

/-- What related machines have to have in common, and what the updates that evaluation makes have
to do to them, those of calls apart. -/
structure Local (K : Simulation) (L : Likeness) : Prop extends Opening K L where
  signal : L.signal = K.signal
  stray : L.stray
  misuse : ∀ {c : Misuse}, L.misuse c → K.error (.misuse c) (.misuse c)
  readLocal : ∀ {m m' : Machine} (name : String), K.state m m' →
    m.heap.environments.get? m.context.environment name =
      m'.heap.environments.get? m'.context.environment name
  currentScope : ∀ {m m' : Machine}, K.state m m' →
    Option.Rel L.scope m.context.currentScope? m'.context.currentScope?
  find : ∀ {m m' : Machine} {s s' : ScopeId} (name : String), K.state m m' → L.scope s s' →
    Option.Rel L.Methods (m.heap.scopes.find? s name) (m'.heap.scopes.find? s' name)
  frozen : ∀ {m m' : Machine} {s s' : ScopeId}, K.state m m' → L.scope s s' →
    m.heap.scopes.isFrozen s = m'.heap.scopes.isFrozen s'
  started : ∀ {m m' : Machine} {activity : Activity} {n n' : Node}, L.handled activity n n' →
    K.state m m' → K.state (m.record (.started activity n)) (m'.record (.started activity n'))
  ended : ∀ {m m' : Machine} {activity : Activity} {n n' : Node} {o o' : Outcome Value},
    L.handled activity n n' → o.Rel Eq K.signal K.error o' → K.state m m' →
    K.state (m.record (.ended activity n o)) (m'.record (.ended activity n' o'))
  assignLocal : ∀ {m m' : Machine} (name : String) (v : Value), K.state m m' →
    K.state
      { m with heap := { m.heap with
        environments := m.heap.environments.assign m.context.environment name v } }
      { m' with heap := { m'.heap with
        environments := m'.heap.environments.assign m'.context.environment name v } }
  define : ∀ {m m' : Machine} {s s' : ScopeId} {b b' : Option Node} (name : String)
    (params : List String), K.state m m' → L.scope s s' → Option.Rel L.body b b' →
    K.Changed m m' (m.heap.scopes.define s name params b)
      (m'.heap.scopes.define s' name params b')
  undef : ∀ {m m' : Machine} {s s' : ScopeId} (name : String), K.state m m' → L.scope s s' →
    K.Changed m m' (m.heap.scopes.undef s name) (m'.heap.scopes.undef s' name)
  addAlias : ∀ {m m' : Machine} {s s' : ScopeId} (newName oldName : String), K.state m m' →
    L.scope s s' →
    K.Changed m m' (m.heap.scopes.addAlias s newName oldName)
      (m'.heap.scopes.addAlias s' newName oldName)
  warn : ∀ {m m' : Machine} {t t' : Tag} (message : String), L.tag t t' → K.state m m' →
    K.state { m with context := m.context.warn message (some t.location) }
      { m' with context := m'.context.warn message (some t'.location) }
  openScope : ∀ {m m' : Machine} {s s' : ScopeId}, L.scope s s' → K.state m m' →
    K.state { m with context := m.context.openScope s }
      { m' with context := m'.context.openScope s' }
  closeScope : ∀ {m m' : Machine}, K.state m m' →
    K.state { m with context := m.context.closeScope } { m' with context := m'.context.closeScope }
  enterEnvironment : ∀ {m m' : Machine} (bindings : Table Value), K.state m m' →
    K.state
      { m with
        context := { m.context with environment := m.heap.environments.size }
        heap := { m.heap with environments := m.heap.environments.add none bindings } }
      { m' with
        context := { m'.context with environment := m'.heap.environments.size }
        heap := { m'.heap with environments := m'.heap.environments.add none bindings } }
  leaveEnvironment : ∀ {m m' n n' : Machine}, K.state m m' → K.state n n' →
    K.state { n with context := { n.context with environment := m.context.environment } }
      { n' with context := { n'.context with environment := m'.context.environment } }

/-- What they have to have in common where calls are counted alike. -/
structure Stable (K : Simulation) (L : Likeness) : Prop extends Local K L, Calling K L

variable {L : Likeness}

theorem Opening.like_openConstant (hK : Opening K L) {t t' : Tag} (ht : L.tag t t')
    (sort : ScopeSort) (name : String) :
    K.judgment _ L.scope (Eval.openConstant sort name (some t.location))
      (Eval.openConstant sort name (some t'.location)) := by
  refine andThen (A := Option.Rel L.scope) (look fun _ _ hm => hK.constant name hm)
    fun s s' hs => ?_
  cases hs with
  | some hs =>
    refine andThen (A := Eq) (look fun _ _ hm => hK.called hm hs) fun called _ h => ?_
    cases h
    split
    · exact yield hs
    · exact fail (hK.fault _ ht)
  | none =>
    -- The new scope and its constant appear in one go, for in between nothing is related.
    intro m m' hm
    obtain ⟨hs, hstate⟩ := hK.create sort name hm
    exact .inr ⟨hstate, .value hs⟩

theorem Calling.like_enterCall (hK : Calling K L) {A : α → α → Prop} {t t' : Tag} (ht : L.tag t t')
    {x y : Eval α} (hx : K.judgment α A x y) :
    K.judgment α A (Eval.enterCall (some t.location) x)
      (Eval.enterCall (some t'.location) y) := by
  have hbody : K.judgment α A (Eval.entered >>= fun _ => x) (Eval.entered >>= fun _ => y) :=
    andThen (A := Eq) (fun m m' hm => .inr ⟨hK.entered hm, .value rfl⟩) fun _ _ _ => hx
  refine andThen (A := Eq) (look fun _ _ hm => hK.limit hm) fun b b' hb => ?_
  subst hb
  cases b with
  | true => exact fail (hK.fault _ ht)
  | false =>
    rw [if_neg Bool.false_ne_true, if_neg Bool.false_ne_true]
    exact within hbody (fun _ _ hm => hK.enter hm) fun _ _ n n' _ hn => hK.leave hn

namespace Local

theorem like_readLocal (hK : Local K L) {t t' : Tag} (ht : L.tag t t') (name : String) :
    K.judgment _ Eq (Eval.readLocal name (some t.location))
      (Eval.readLocal name (some t'.location)) := by
  refine andThen (A := Eq) (look fun _ _ hm => hK.readLocal name hm) fun v v' hv => ?_
  cases hv
  cases v with
  | none => exact fail (hK.fault _ ht)
  | some v => exact yield rfl

theorem like_undefMethod (hK : Local K L) {t t' : Tag} (ht : L.tag t t') {s s' : ScopeId}
    (hs : L.scope s s') (name : String) :
    K.judgment _ Eq (Eval.undefMethod s name (some t.location))
      (Eval.undefMethod s' name (some t'.location)) := by
  have hundef : K.judgment _ Eq (Eval.changeScopes (some t.location) (·.undef s name))
      (Eval.changeScopes (some t'.location) (·.undef s' name)) :=
    changeScopes (fun c => hK.fault c ht) fun _ _ hm => hK.undef name hm hs
  refine andThen (A := Eq) (look fun _ _ hm => hK.frozen hm hs) fun frozen _ h => ?_
  cases h
  dsimp only
  split
  · exact andThen (A := Eq) (changeContext fun _ _ hm => hK.warn _ ht hm) fun _ _ _ => hundef
  · exact hundef

theorem like_observed (hK : Local K L) {activity : Activity} {n n' : Node} {x y : Eval Value}
    (hn : L.handled activity n n') (hx : K.judgment _ Eq x y) :
    K.judgment _ Eq (Eval.observed activity n x) (Eval.observed activity n' y) :=
  observed hx (fun _ _ hm => hK.started hn hm) fun _ _ _ _ hm ho => hK.ended hn ho hm

/-- Such a simulation is a compatible judgment. -/
theorem compatible (hK : Local K L) : Compatible L K.judgment where
  yield h := Simulation.yield h
  andThen hx hf := Simulation.andThen hx hf
  misuse h := Simulation.fail (hK.misuse h)
  fault c _ ht := Simulation.fail (hK.fault c ht)
  jump h := Simulation.jump (hK.signal ▸ h)
  probe h := hK.signal ▸ Simulation.probe h
  assigning hn hx := hK.like_observed hn hx
  readLocal name ht := hK.like_readLocal ht name
  assignLocal name v m m' hm := .inr ⟨hK.assignLocal name v hm, .value rfl⟩
  currentScope := Simulation.look fun _ _ hm => .of_rel hK.stray (hK.currentScope hm)
  find name hs := Simulation.look fun _ _ hm => hK.find name hm hs
  called hs := Simulation.look fun _ _ hm => hK.called hm hs
  define name params ht hs hb :=
    Simulation.changeScopes (fun c => hK.fault c ht) fun _ _ hm => hK.define name params hm hs hb
  undef name ht hs := hK.like_undefMethod ht hs name
  addAlias newName oldName ht hs :=
    Simulation.changeScopes (fun c => hK.fault c ht)
      fun _ _ hm => hK.addAlias newName oldName hm hs
  openConstant sort name ht := hK.like_openConstant ht sort name
  withScope hs hx :=
    Simulation.within hx (fun _ _ hm => hK.openScope hs hm) fun _ _ _ _ _ hn => hK.closeScope hn
  withNewEnvironment bindings hx m m' hm := by
    rcases hx _ _ (hK.enterEnvironment bindings hm) with h | ⟨hs, ho⟩
    · exact .inl h
    · have hleft := hK.leaveEnvironment hm hs
      exact .inr ⟨hleft, ho⟩

end Local

namespace Stable

/-- One step of two evaluations. The right one may have more fuel, if the simulation is lax. -/
theorem step (hK : Stable K L) {fuel k : Nat} (hlax : K.lax ∨ k = 0)
    (hassigns : ∀ n n', L.target n n' → L.Assigns n n')
    (hrunnable : ∀ n n', L.body n n' → L.node n n')
    (hev : ∀ n n', L.node n n' → K.judgment _ Eq (evaluate fuel n) (evaluate (fuel + k) n'))
    {n n' : Node} (h : L.Steps n n') :
    K.judgment _ Eq (Eval.step fuel (evaluate fuel) n)
      (Eval.step (fuel + k) (evaluate (fuel + k)) n') := by
  have hJ := hK.compatible
  refine hJ.step hassigns hev ?_ ?_ h
  · intro _ c c' b b' hc hb
    refine hJ.loop ?_ hc hb fuel
    rcases hlax with hlax | rfl
    · exact starved hlax
    · exact outOfFuel
  · intro t t' a b vs ht hm
    exact hJ.invoke hJ ht hm (hK.like_enterCall ht) (fun n n' hn => hev n n' (hrunnable n n' hn)) vs

theorem congruence (hK : Stable K L) (hsteps : ∀ n n', L.node n n' → L.Steps n n')
    (hassigns : ∀ n n', L.target n n' → L.Assigns n n')
    (hrunnable : ∀ n n', L.body n n' → L.node n n') : Congruence L K.judgment where
  toCompatible := hK.compatible
  steps := hsteps
  assigns := hassigns
  runnable := hrunnable
  outOfFuel := Simulation.outOfFuel
  evaluating hn hx := hK.like_observed hn hx
  enterCall ht hx := hK.like_enterCall ht hx

end Stable

end Simulation

end Treewalk
