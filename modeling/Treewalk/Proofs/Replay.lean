import Treewalk.Proofs.Balance
import Treewalk.Proofs.Locals

/-!
# Definitions can be run again

A program that only defines (classes, modules and methods, with literals, blocks and line breaks
around them) always ends, and evaluated once more it ends in the same way and changes nothing:
`definitional_idempotent`. Its first run need not succeed for that.

The second run starts with all that the first run made in the end, so it makes no class or module
and adds no name to a table, and what is frozen for it was frozen for the first run. It does set
slots, and until it is through, some of them hold what they held at the same point of the first
run and not what they held in the end. No slot ever holds anything else: `Machine.Retraces`.

All this is about machines on which only scopes that are there are open and have names, which is
what evaluation keeps: `Machine.Grounded.evaluate`.
-/

set_option autoImplicit false

namespace Treewalk

/-! ## Programs that only define -/

/-- The kinds of node that define, those with a value of their own, and those that put other nodes
in order. -/
def Kind.definitional : List Kind :=
  [.nilLit, .trueLit, .falseLit, .int, .float, .str, .symbol, .block, .newline, .define, .klass,
   .module]

/-- The tree only defines. The bodies of its methods may do anything. -/
inductive Node.Definitional : Node → Prop
  | ofParts {n : Node} : n.kind ∈ Kind.definitional → (∀ c ∈ n.parts, c.Definitional) →
      n.Definitional

/-! ## Scopes that are there -/

/-- The machine with a slot of a scope set. -/
def Machine.setSlot (m : Machine) (s : ScopeId) (name : String) (slot : Slot) : Machine :=
  { m with heap := { m.heap with scopes := m.heap.scopes.setSlot s name slot } }

/-- Constants stand for scopes that are there. -/
def Machine.GroundsConstants (m : Machine) : Prop :=
  ∀ name s, m.context.constants.get? name = some s → s < m.heap.scopes.size

/-- Only scopes that are there are open, and constants stand for no others. -/
structure Machine.Grounded (m : Machine) : Prop where
  opened : ∀ s ∈ m.context.scopes, s < m.heap.scopes.size
  constants : m.GroundsConstants

namespace Machine

variable {m : Machine} {s : ScopeId} {sort : ScopeSort} {name : String} {slot : Slot}

theorem GroundsConstants.create (h : m.GroundsConstants) :
    (m.create sort name).GroundsConstants := by
  intro n i hi
  rw [Machine.create, Scopes.size_create]
  rw [Machine.create, Table.get?_set] at hi
  split at hi
  · cases hi
    exact Nat.lt_succ_self _
  · exact Nat.lt_succ_of_lt (h n i hi)

theorem Grounded.create (h : m.Grounded) : (m.create sort name).Grounded where
  opened i hi := by
    rw [Machine.create, Scopes.size_create]
    exact Nat.lt_succ_of_lt (h.opened i hi)
  constants := h.constants.create

theorem Grounded.setSlot (h : m.Grounded) : (m.setSlot s name slot).Grounded where
  opened i hi := by
    rw [Machine.setSlot, Scopes.size_setSlot]
    exact h.opened i hi
  constants n i hi := by
    rw [Machine.setSlot, Scopes.size_setSlot]
    exact h.constants n i hi

/-- In a new context nothing is open and there are no constants. -/
theorem grounded_newContext (h : Heap) (options : Options) (journal : Option (List Event)) :
    Grounded ⟨(h.newContext options).1, (h.newContext options).2, journal⟩ where
  opened _ hs := absurd hs List.not_mem_nil
  constants _ _ hs := absurd hs nofun

end Machine

/-- Constants stand for scopes that are there, and no scope goes away. What is open does not come
into it, for that is what it was when evaluation ends. -/
def grounding : Contract where
  inv := Machine.GroundsConstants
  change m m' := m.heap.scopes.size ≤ m'.heap.scopes.size
  error _ := True
  signal _ := True
  starves := True
  refl _ := Nat.le_refl _
  trans := Nat.le_trans

theorem grounding_scopes {m : Machine} (hm : m.GroundsConstants) {scopes : Scopes}
    (h : scopes.size = m.heap.scopes.size) :
    grounding.Step m { m with heap := { m.heap with scopes } } :=
  ⟨fun name s hs => h ▸ hm name s hs, Nat.le_of_eq h.symm⟩

theorem grounding_closed : grounding.Closed .any where
  fault _ _ _ _ := trivial
  stray _ _ := trivial
  currentScope _ _ := trivial
  constant _ _ := trivial
  method _ _ _ := ⟨trivial, fun _ _ => trivial⟩
  startAssigning _ hm := ⟨hm, Nat.le_refl _⟩
  endAssigning _ _ hm := ⟨hm, Nat.le_refl _⟩
  assignLocal _ _ hm := ⟨hm, Nat.le_refl _⟩
  define hm _ _ h := grounding_scopes hm (by rw [Scopes.eq_of_define h, Scopes.size_setSlot])
  undef hm _ h := grounding_scopes hm (by rw [Scopes.eq_of_undef h, Scopes.size_setSlot])
  addAlias hm _ h := by
    obtain ⟨method, -, rfl⟩ := Scopes.eq_of_addAlias h
    exact grounding_scopes hm Scopes.size_setSlot
  warn {m s} name l hm _ := by
    obtain ⟨warnings, hw⟩ := Context.exists_warn_eq m.context _ l
    rw [hw]
    exact ⟨hm, Nat.le_refl _⟩
  create {m name} sort hm _ := by
    have hcreated : (m.create sort name).GroundsConstants := Machine.GroundsConstants.create hm
    refine ⟨trivial, hcreated, ?_⟩
    show m.heap.scopes.size ≤ (m.heap.scopes.create ⟨sort, name⟩ none).size
    rw [Scopes.size_create]
    exact Nat.le_succ _
  openScope hm _ := hm
  closeScope _ _ h := ⟨h.inv, h.change⟩
  enterEnvironment _ hm := hm
  leaveEnvironment _ _ h := ⟨h.inv, h.change⟩
  steps n _ := Contract.steps_any (fun _ => trivial) (fun _ => trivial) n
  assigns n _ := Contract.assigns_any (fun _ => trivial) n
  runnable _ _ := trivial
  starves := trivial
  startEvaluating _ hm := ⟨hm, Nat.le_refl _⟩
  endEvaluating _ _ hm := ⟨hm, Nat.le_refl _⟩
  enterCall hm _ := hm
  leaveCall _ h := ⟨h.inv, h.change⟩

/-- Whatever is evaluated, nothing that is not there is open or has a name afterwards. -/
theorem Machine.Grounded.evaluate {m : Machine} (h : m.Grounded) (fuel : Nat) (n : Node) :
    (evaluate fuel n m).2.Grounded := by
  obtain ⟨⟨hconstants, hsize⟩, -⟩ := grounding_closed.evaluate fuel (n := n) trivial m h.constants
  have hframe := (Eval.Nested.evaluate fuel n).balanced m
  refine ⟨fun s hs => Nat.lt_of_lt_of_le (h.opened s ?_) hsize, hconstants⟩
  rw [← hframe.scopes]
  exact hs

/-! ## Where a second run stands -/

/-- Everything on the first machine is on the second as well, under the same names, and is frozen
there if it is frozen here. -/
structure Machine.Precedes (m f : Machine) : Prop where
  constants : ∀ name s, m.context.constants.get? name = some s →
    f.context.constants.get? name = some s
  size : m.heap.scopes.size ≤ f.heap.scopes.size
  called : ∀ s < m.heap.scopes.size, f.heap.scopes.called s = m.heap.scopes.called s
  frozen : ∀ s, f.heap.scopes.isFrozen s = m.heap.scopes.isFrozen s
  names : ∀ s, m.heap.scopes.tableNames s ⊆ f.heap.scopes.tableNames s

/-- Where the first run stood on `m` before it ended on `f`, the second run stands on `y`. -/
structure Machine.Retraces (f m y : Machine) : Prop where
  opened : y.context.scopes = m.context.scopes
  constants : y.context.constants = f.context.constants
  shape : f.heap.scopes.SameShape y.heap.scopes
  slot : ∀ s name, y.heap.scopes.slot? s name = m.heap.scopes.slot? s name ∨
    y.heap.scopes.slot? s name = f.heap.scopes.slot? s name

/-- The context is the same, and so is every environment that was there. -/
structure Machine.Keeps (m m' : Machine) : Prop where
  context : m'.context = m.context
  environments : m.heap.environments.Extends m'.heap.environments

namespace Machine

variable {m m' m'' f y : Machine} {s : ScopeId}

theorem Precedes.refl (m : Machine) : m.Precedes m :=
  ⟨fun _ _ h => h, Nat.le_refl _, fun _ _ => rfl, fun _ => rfl, fun _ _ h => h⟩

theorem Precedes.trans (h : m.Precedes m') (h' : m'.Precedes m'') : m.Precedes m'' where
  constants name s hs := h'.constants name s (h.constants name s hs)
  size := Nat.le_trans h.size h'.size
  called s hs := (h'.called s (Nat.lt_of_lt_of_le hs h.size)).trans (h.called s hs)
  frozen s := (h'.frozen s).trans (h.frozen s)
  names s _ hn := h'.names s (h.names s hn)

theorem Keeps.refl (m : Machine) : m.Keeps m := ⟨rfl, .refl _⟩

theorem Keeps.trans (h : m.Keeps m') (h' : m'.Keeps m'') : m.Keeps m'' :=
  ⟨h'.context.trans h.context, h.environments.trans h'.environments⟩

theorem Retraces.currentScope? (h : f.Retraces m y) :
    y.context.currentScope? = m.context.currentScope? :=
  congrArg List.head? h.opened

theorem Retraces.isFrozen (h : f.Retraces m y) (hf : m.Precedes f) (s : ScopeId) :
    y.heap.scopes.isFrozen s = m.heap.scopes.isFrozen s :=
  (h.shape.frozen s).trans (hf.frozen s)

theorem Retraces.called (h : f.Retraces m y) (hf : m.Precedes f) (hs : s < m.heap.scopes.size) :
    y.heap.scopes.called s = m.heap.scopes.called s :=
  (h.shape.called s).trans (hf.called s hs)

theorem Retraces.constant (h : f.Retraces m y) (hf : m.Precedes f) {name : String}
    (hs : m.context.constants.get? name = some s) : y.context.constants.get? name = some s := by
  rw [h.constants]
  exact hf.constants name s hs

/-- A second run starts where the first ended. -/
theorem Retraces.start (h : f.context.scopes = m.context.scopes) : f.Retraces m f :=
  ⟨h, rfl, .refl _, fun _ _ => .inr rfl⟩

/-- When both runs are through, there is no difference in the scopes. -/
theorem Retraces.scopes_eq (h : f.Retraces f y) : y.heap.scopes = f.heap.scopes :=
  h.shape.eq_of_slots fun s name => or_self_iff.mp (h.slot s name)

end Machine

/-! ### One more slot, one more scope -/

namespace Machine

variable {m f y : Machine} {s : ScopeId} {sort : ScopeSort} {name : String} {slot : Slot}

theorem Precedes.setSlot (hs : s < m.heap.scopes.size) :
    m.Precedes (m.setSlot s name slot) where
  constants _ _ h := h
  size := Nat.le_of_eq Scopes.size_setSlot.symm
  called _ _ := Scopes.called_setSlot
  frozen _ := Scopes.isFrozen_setSlot
  names i n hn := by
    rw [Machine.setSlot, Scopes.tableNames_setSlot hs]
    split
    · exact List.mem_append_left _ hn
    · exact hn

/-- Both runs set the slot. In the end it is there, so the second adds no name. -/
theorem Retraces.setSlot (h : f.Retraces m y) (hs : s < m.heap.scopes.size)
    (hf : (m.setSlot s name slot).Precedes f) :
    f.Retraces (m.setSlot s name slot) (y.setSlot s name slot) where
  opened := h.opened
  constants := h.constants
  shape := by
    have hthere : name ∈ (m.setSlot s name slot).heap.scopes.tableNames s := by
      rw [Machine.setSlot, Scopes.tableNames_setSlot hs]
      split
      · exact List.mem_append_right _ List.mem_cons_self
      · next hn => exact not_not.mp fun hnew => hn ⟨rfl, hnew⟩
    refine h.shape.setSlot ?_ (hf.names s hthere)
    exact Nat.lt_of_lt_of_le hs ((Precedes.setSlot hs).trans hf).size
  slot i n := by
    have hsy : s < y.heap.scopes.size := by
      rw [h.shape.size]
      exact Nat.lt_of_lt_of_le hs ((Precedes.setSlot hs).trans hf).size
    rw [Machine.setSlot, Machine.setSlot, Scopes.slot?_setSlot hs, Scopes.slot?_setSlot hsy]
    split
    · exact .inl rfl
    · exact h.slot i n

theorem Precedes.create (hnone : m.context.constants.get? name = none) :
    m.Precedes (m.create sort name) where
  constants n i hi := by
    rw [Machine.create, Table.get?_set, if_neg]
    · exact hi
    · rintro rfl
      rw [hnone] at hi
      exact absurd hi nofun
  size := by
    rw [Machine.create, Scopes.size_create]
    exact Nat.le_succ _
  called i hi := by
    rw [Machine.create, Scopes.called_create, if_neg (Nat.ne_of_lt hi)]
  frozen _ := Scopes.isFrozen_create
  names i n hn := by
    rw [Machine.create, Scopes.tableNames_create]
    exact hn

/-- What the first run makes is there for the second. -/
theorem Retraces.create (h : f.Retraces m y) : f.Retraces (m.create sort name) y where
  opened := h.opened
  constants := h.constants
  shape := h.shape
  slot i n := by
    rw [Machine.create, Scopes.slot?_create]
    exact h.slot i n

end Machine

/-! ## Computations that can be run again -/

/-- The computation ends and only adds to what there is. Once it is through, with whatever came
after it, it can be run again: it ends in the same way, and adds to nothing but the
environments. -/
structure Eval.Repeatable {α : Type} (x : Eval α) (m : Machine) : Prop where
  ends : (x m).1.isFinal = true
  opened : (x m).2.context.scopes = m.context.scopes
  grounded : (x m).2.Grounded
  precedes : m.Precedes (x m).2
  again : ∀ {f y : Machine}, (x m).2.Precedes f → f.Retraces m y →
    (x y).1 = (x m).1 ∧ f.Retraces (x m).2 (x y).2 ∧ y.Keeps (x y).2

namespace Eval

variable {m : Machine} {s : ScopeId} {sort : ScopeSort} {name : String} {l : Option Location}

theorem changeScopes_define (params : List String) (body : Option Node) :
    changeScopes l (·.define s name params body) m =
      if m.heap.scopes.isFrozen s then (.error (.fault (.frozen (m.heap.scopes.called s)) l), m)
      else (.value (), m.setSlot s name (.defined ⟨name, params, body, s⟩)) := by
  simp only [changeScopes, Scopes.define, Scopes.whenOpen]
  cases m.heap.scopes.isFrozen s with
  | true => rfl
  | false => rfl

/-- The scope that a constant is opened as is there. -/
theorem openConstant_lt (hm : m.Grounded) (h : (openConstant sort name l m).1 = .value s) :
    s < (openConstant sort name l m).2.heap.scopes.size := by
  cases hname : m.context.constants.get? name with
  | some i =>
    have hi := hm.constants name i hname
    rw [openConstant_of_some hname] at h ⊢
    by_cases hsort : (m.heap.scopes.called i).sort = sort
    · rw [if_pos hsort] at h ⊢
      cases h
      exact hi
    · rw [if_neg hsort] at h
      exact absurd h nofun
  | none =>
    rw [openConstant_of_none hname] at h ⊢
    cases h
    rw [Machine.create, Scopes.size_create]
    exact Nat.lt_succ_self _

end Eval

namespace Eval.Repeatable

variable {α β : Type} {m : Machine} {x : Eval α} {g : α → Eval β} {l : Option Location}

/-- How the first run ends and on which machine is known. -/
theorem of_run {o : Outcome α} {m' : Machine} (h : x m = (o, m')) (hfinal : o.isFinal = true)
    (hopened : m'.context.scopes = m.context.scopes) (hgrounded : m'.Grounded)
    (hprecedes : m.Precedes m')
    (hagain : ∀ {f y : Machine}, m'.Precedes f → f.Retraces m y →
      (x y).1 = o ∧ f.Retraces m' (x y).2 ∧ y.Keeps (x y).2) : x.Repeatable m := by
  constructor <;> rw [h]
  · exact hfinal
  · exact hopened
  · exact hgrounded
  · exact hprecedes
  · exact hagain

/-- What does nothing and ends in one way, wherever a second run may stand. -/
theorem of_still (hm : m.Grounded) {o : Outcome α} (hfinal : o.isFinal = true)
    (h : ∀ {f y : Machine}, m.Precedes f → f.Retraces m y → x y = (o, y)) : x.Repeatable m := by
  refine of_run (h (.refl m) (.start rfl)) hfinal rfl hm (.refl m) fun {f y} hf hy => ?_
  rw [h hf hy]
  exact ⟨rfl, hy, .refl y⟩

theorem yield (hm : m.Grounded) (a : α) : (Eval.yield a).Repeatable m :=
  of_still (o := .value a) hm rfl fun _ _ => rfl

theorem fault (hm : m.Grounded) (cause : Fault) : (Eval.fault cause l : Eval α).Repeatable m :=
  of_still (o := .error (.fault cause l)) hm rfl fun _ _ => rfl

/-- What stops with the first computation does what that does. -/
theorem of_stops (hx : x.Repeatable m) {z : Eval β} {o : Outcome β} (hfinal : o.isFinal = true)
    (hz : ∀ k, (x k).1 = (x m).1 → z k = (o, (x k).2)) : z.Repeatable m := by
  refine of_run (hz m rfl) hfinal hx.opened hx.grounded hx.precedes fun {f y} hf hy => ?_
  obtain ⟨ho, hy', hkeeps⟩ := hx.again hf hy
  rw [hz y ho]
  exact ⟨rfl, hy', hkeeps⟩

theorem andThen (hx : x.Repeatable m)
    (hg : ∀ a, (x m).1 = .value a → (g a).Repeatable (x m).2) : (x >>= g).Repeatable m := by
  cases h : (x m).1 with
  | value a =>
    have ha := hg a h
    refine of_run (bind_of_value h g) ha.ends (ha.opened.trans hx.opened) ha.grounded
      (hx.precedes.trans ha.precedes) fun {f y} hf hy => ?_
    obtain ⟨ho, hy₁, hkeeps₁⟩ := hx.again (ha.precedes.trans hf) hy
    obtain ⟨ho₂, hy₂, hkeeps₂⟩ := ha.again hf hy₁
    rw [bind_of_value (ho.trans h) g]
    exact ⟨ho₂, hy₂, hkeeps₁.trans hkeeps₂⟩
  | jump s => exact hx.of_stops rfl fun k hk => bind_of_jump (hk.trans h) g
  | error e => exact hx.of_stops rfl fun k hk => bind_of_error (hk.trans h) g
  | outOfFuel =>
    have hends := hx.ends
    rw [h] at hends
    exact absurd hends Bool.noConfusion

theorem observed {x : Eval Value} {activity : Activity} {n : Node}
    (hx : x.Repeatable (m.record (.started activity n))) :
    (Eval.observed activity n x).Repeatable m where
  ends := hx.ends
  opened := hx.opened
  grounded := { hx.grounded with }
  precedes := { hx.precedes with }
  again := by
    intro f y hf hy
    obtain ⟨ho, hy', hkeeps⟩ := hx.again (y := y.record (.started activity n))
      { hf with } { hy with }
    exact ⟨ho, { hy' with }, { hkeeps with }⟩

theorem withScope {s : ScopeId}
    (hx : x.Repeatable { m with context := m.context.openScope s }) :
    (Eval.withScope s x).Repeatable m where
  ends := hx.ends
  opened := congrArg List.tail hx.opened
  grounded := {
    hx.grounded with
    opened := fun i hi => hx.grounded.opened i (List.mem_of_mem_tail hi) }
  precedes := { hx.precedes with }
  again := by
    intro f y hf hy
    obtain ⟨ho, hy', hkeeps⟩ := hx.again (y := { y with context := y.context.openScope s })
      { hf with } { hy with opened := congrArg (s :: ·) hy.opened }
    exact ⟨ho, { hy' with opened := congrArg List.tail hy'.opened },
      { hkeeps with context := congrArg Context.closeScope hkeeps.context }⟩

theorem withNewEnvironment {bindings : Table Value}
    (hx : x.Repeatable { m with
      context := { m.context with environment := m.heap.environments.size }
      heap := { m.heap with environments := m.heap.environments.add none bindings } }) :
    (Eval.withNewEnvironment bindings x).Repeatable m where
  ends := hx.ends
  opened := hx.opened
  grounded := { hx.grounded with }
  precedes := { hx.precedes with }
  again := by
    intro f y hf hy
    obtain ⟨ho, hy', hkeeps⟩ := hx.again
      (y := { y with
        context := { y.context with environment := y.heap.environments.size }
        heap := { y.heap with environments := y.heap.environments.add none bindings } })
      { hf with } { hy with }
    exact ⟨ho, { hy' with }, congrArg ({ · with environment := y.context.environment })
      hkeeps.context, .trans (.add ..) hkeeps.environments⟩

theorem inOpenScope {cause : Fault} {place : Location} {go : ScopeId → Eval Value}
    (hm : m.Grounded) (hgo : ∀ s < m.heap.scopes.size, (go s).Repeatable m) :
    (Eval.inOpenScope cause place go).Repeatable m := by
  have hlook : Eval.currentScope?.Repeatable m := by
    refine of_still (o := .value m.context.currentScope?) hm rfl fun {f y} _ hy => ?_
    rw [← hy.currentScope?]
    rfl
  refine hlook.andThen fun s? hs => ?_
  cases s? with
  | none => exact fault hm cause
  | some s =>
    refine hgo s (hm.opened s ?_)
    exact List.mem_of_mem_head? (Outcome.value.inj hs)

/-! ### Changes of scopes -/

theorem define {s : ScopeId} (hm : m.Grounded) (hs : s < m.heap.scopes.size) (name : String)
    (params : List String) (body : Option Node) :
    (Eval.changeScopes l (·.define s name params body)).Repeatable m := by
  cases hfrozen : m.heap.scopes.isFrozen s with
  | true =>
    refine of_still (o := .error (.fault (.frozen (m.heap.scopes.called s)) l)) hm rfl ?_
    intro f y hf hy
    rw [changeScopes_define, hy.isFrozen hf, hfrozen, hy.called hf hs]
    rfl
  | false =>
    have hmade : Eval.changeScopes l (·.define s name params body) m =
        (.value (), m.setSlot s name (.defined ⟨name, params, body, s⟩)) := by
      rw [changeScopes_define, hfrozen]
      rfl
    refine of_run hmade rfl rfl hm.setSlot (.setSlot hs) fun {f y} hf hy => ?_
    rw [changeScopes_define, hy.isFrozen (.trans (.setSlot hs) hf), hfrozen]
    exact ⟨rfl, hy.setSlot hs hf, rfl, .refl _⟩

/-- Where the first run makes a class or module, the second finds it. -/
theorem openConstant (hm : m.Grounded) (sort : ScopeSort) (name : String) :
    (Eval.openConstant sort name l).Repeatable m := by
  cases hname : m.context.constants.get? name with
  | some s =>
    have hs : s < m.heap.scopes.size := hm.constants name s hname
    by_cases hsort : (m.heap.scopes.called s).sort = sort
    · refine of_still (o := .value s) hm rfl ?_
      intro f y hf hy
      rw [openConstant_of_some (hy.constant hf hname), hy.called hf hs, if_pos hsort]
    · refine of_still (o := .error (.fault (.wrongSort name sort) l)) hm rfl ?_
      intro f y hf hy
      rw [openConstant_of_some (hy.constant hf hname), hy.called hf hs, if_neg hsort]
  | none =>
    refine of_run (openConstant_of_none hname) rfl rfl hm.create (.create hname) ?_
    intro f y hf hy
    have hy' : f.Retraces (m.create sort name) y := hy.create
    have hfound : y.context.constants.get? name = some m.heap.scopes.size := by
      refine hy'.constant hf ?_
      rw [Machine.create, Table.get?_set, if_pos rfl]
    have hthere : m.heap.scopes.size < (m.create sort name).heap.scopes.size := by
      rw [Machine.create, Scopes.size_create]
      exact Nat.lt_succ_self _
    have hcalled : y.heap.scopes.called m.heap.scopes.size = ⟨sort, name⟩ := by
      rw [hy'.called hf hthere, Machine.create, Scopes.called_create, if_pos rfl]
    rw [openConstant_of_some hfound, hcalled, if_pos rfl]
    exact ⟨rfl, hy', .refl y⟩

/-! ### Nodes -/

variable {ev : Node → Eval Value}

theorem runScope {s : ScopeId} {b : Option Node} (hm : m.Grounded) (hs : s < m.heap.scopes.size)
    (hb : ∀ n ∈ b, ∀ k : Machine, k.Grounded → (ev n).Repeatable k) :
    (Eval.runScope ev s b).Repeatable m := by
  cases b with
  | none => exact yield hm _
  | some n =>
    refine withScope (withNewEnvironment (hb n rfl _ ⟨fun i hi => ?_, hm.constants⟩))
    rcases List.mem_cons.mp hi with rfl | hi
    · exact hs
    · exact hm.opened i hi

theorem last {ns : List Node} (hm : m.Grounded) (v : Value)
    (hns : ∀ n ∈ ns, ∀ k : Machine, k.Grounded → (ev n).Repeatable k) :
    (Eval.last ev v ns).Repeatable m := by
  induction ns generalizing v m with
  | nil => exact yield hm v
  | cons n ns ih =>
    have hn := hns n List.mem_cons_self m hm
    exact hn.andThen fun w _ => ih hn.grounded w fun c hc => hns c (List.mem_cons_of_mem _ hc)

/-- One step of a node that defines. Its parts are in order, and a body is only stored. -/
theorem step {fuel : Nat} {n : Node} (hkind : n.kind ∈ Kind.definitional)
    (hparts : ∀ c ∈ n.parts, ∀ k : Machine, k.Grounded → (ev c).Repeatable k) (hm : m.Grounded) :
    (Eval.step fuel ev n).Repeatable m := by
  cases n with
  | nil | bool | int | float | str | symbol => exact yield hm _
  | block t ns => exact last hm .nil hparts
  | newline t n => exact hparts n (List.mem_singleton_self n) m hm
  | define t name params body =>
    refine inOpenScope hm fun s hs => ?_
    have hdefine := define (l := some t.location) hm hs name params.names body
    exact hdefine.andThen fun _ _ => yield hdefine.grounded _
  | scope t sort name body =>
    have hopen := openConstant (l := some t.location) hm sort name
    refine hopen.andThen fun s hs => runScope hopen.grounded (openConstant_lt hm hs) ?_
    intro c hc
    exact hparts c (by cases hc; exact List.mem_singleton_self _)
  | jump t keyword own =>
    cases keyword <;> exact absurd hkind (by simp [Kind.definitional, Node.kind, Keyword.kind])
  | _ => exact absurd hkind (by simp [Kind.definitional, Node.kind])

end Eval.Repeatable

/-- Induction on the tree. A part is smaller, so fuel as large as the tree is enough. -/
theorem Node.Definitional.repeatable {n : Node} (h : n.Definitional) {fuel : Nat}
    (hfuel : sizeOf n < fuel) {m : Machine} (hm : m.Grounded) :
    (evaluate fuel n).Repeatable m := by
  induction h generalizing fuel m with
  | @ofParts n hkind _ ih =>
    cases fuel with
    | zero => exact absurd hfuel (Nat.not_lt_zero _)
    | succ fuel =>
      refine .observed (.step hkind (fun c hc k hk => ih c hc ?_ hk) { hm with })
      have hlt := Node.sizeOf_lt_of_mem_childList (Node.mem_childList_of_mem_parts hc)
      omega

/-- **Definitions can be run again.** A program that only defines ends, and evaluated once more it
ends in the same way and leaves the context, all classes and modules, and every environment that
was there as they are. -/
theorem definitional_idempotent {n : Node} (h : n.Definitional) {m : Machine} (hm : m.Grounded) :
    ∃ o m₁ m₂, n.EndsWith m o m₁ ∧ n.EndsWith m₁ o m₂ ∧ m₂.context = m₁.context ∧
      m₂.heap.scopes = m₁.heap.scopes ∧
      m₁.heap.environments.Extends m₂.heap.environments := by
  have hfirst := h.repeatable (Nat.lt_succ_self _) hm
  obtain ⟨hsame, hretraced, hkept⟩ := hfirst.again (.refl _) (.start hfirst.opened)
  have hends := Node.endsWith_of_isFinal hfirst.ends
  have hagain : (evaluate (sizeOf n + 1) n (evaluate (sizeOf n + 1) n m).2).1.isFinal = true := by
    rw [hsame]
    exact hfirst.ends
  have hends' := Node.endsWith_of_isFinal hagain
  rw [hsame] at hends'
  exact ⟨_, _, _, hends, hends', hkept.context, hretraced.scopes_eq, hkept.environments⟩

/-- Defines a method, defines it anew, and opens the class as a module, which fails. -/
def reopenedAsModule : Node :=
  let body : Node := .block .sample
    [.define .sample "f" ⟨.sample, []⟩ none, .define .sample "f" ⟨.sample, ["x"]⟩ none]
  .block .sample [.scope .sample .klass "A" (some body), .scope .sample .module "A" none]

/-- The second run sets the method back to what it was at first, and then again to what it is in
the end. -/
theorem reopenedAsModule_idempotent :
    let m := Machine.initial .default
    reopenedAsModule.Definitional ∧ m.Grounded ∧
      ∃ o m₁ m₂, reopenedAsModule.EndsWith m o m₁ ∧ reopenedAsModule.EndsWith m₁ o m₂ ∧
        o.isValue = false ∧ m₁.heap.scopes.tableNames 0 = ["f"] ∧
        m₂.heap.scopes = m₁.heap.scopes ∧ m₂.context = m₁.context := by
  intro m
  have hdefine : ∀ names : List String,
      (Node.define .sample "f" ⟨.sample, names⟩ none).Definitional :=
    fun names => .ofParts (by simp [Node.kind, Kind.definitional])
      fun _ hc => absurd hc List.not_mem_nil
  have hdef : reopenedAsModule.Definitional := by
    refine .ofParts (by decide) (List.forall_mem_cons.mpr ⟨?_, List.forall_mem_singleton.mpr ?_⟩)
    · refine .ofParts (by decide) (List.forall_mem_singleton.mpr (.ofParts (by decide) ?_))
      exact List.forall_mem_cons.mpr ⟨hdefine [], List.forall_mem_singleton.mpr (hdefine ["x"])⟩
    · exact .ofParts (by decide) fun _ hc => absurd hc List.not_mem_nil
  have hm : m.Grounded := Machine.grounded_newContext .empty .default (some [])
  obtain ⟨o, m₁, m₂, hends, hends', hcontext, hscopes, -⟩ := definitional_idempotent hdef hm
  have hfinal : (evaluate 9 reopenedAsModule m).1.isFinal = true := by decide +kernel
  have hrun := Node.endsWith_of_isFinal hfinal
  obtain ⟨ho, hm₁⟩ := hends.unique hrun
  refine ⟨hdef, hm, o, m₁, m₂, hends, hends', ?_, ?_, hscopes, hcontext⟩
  · rw [ho]
    decide +kernel
  · rw [hm₁]
    decide +kernel

end Treewalk
