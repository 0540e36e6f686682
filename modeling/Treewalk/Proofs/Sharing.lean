import Treewalk.Proofs.Simulation

/-!
# Two runs of one tree

Most laws about two runs are about one tree and two machines that have the open scopes, the
constants and the tables of methods in common, and differ in something else. Then names stand for
the same on both sides, so every update of what the machines share is the same update, and a
simulation owes no more than that its relation survives it: `Sharing`. Before it covers all of
evaluation it has to say what becomes of local variables and of warnings as well: `Mirroring`.
-/

set_option autoImplicit false

namespace Treewalk

/-- Everything is like itself. -/
def Likeness.same : Likeness where
  node := Eq
  body := Eq
  target := Eq
  tag := Eq
  scope := Eq
  signal := Eq
  misuse _ := True
  loops := True
  stray := True
  received := received_of_eq

namespace Likeness

theorem same_methods (method : Method) : same.Methods method method :=
  ⟨rfl, rfl, optionRel_refl (fun _ => rfl) _⟩

theorem same_assigns : ∀ n n' : Node, n = n' → same.Assigns n n' := by
  rintro n _ rfl
  exact .refl n (fun _ => rfl) (fun _ => trivial) fun _ _ => rfl

theorem same_steps : ∀ n n' : Node, n = n' → same.Steps n n' := by
  rintro n _ rfl
  exact .refl n (fun _ => rfl) (fun _ => trivial) (fun _ _ _ _ _ => rfl) (fun _ => trivial)
    (fun _ _ => rfl) (fun _ _ => rfl) fun _ _ => rfl

/-- What does the same activity on both sides does it with the same node. -/
theorem eq_of_handled {activity : Activity} {n n' : Node} (h : same.handled activity n n') :
    n = n' := by
  cases activity with
  | evaluating | assigning => exact h

theorem eq_of_body {b b' : Option Node} (h : Option.Rel same.body b b') : b = b' := by
  cases h with
  | none => rfl
  | some h => exact congrArg some h

end Likeness

/-! ## What names stand for -/

/-- The machine with other open scopes, other constants and other tables of methods. -/
def Machine.withNames (m : Machine) (opened : List ScopeId) (constants : Table ScopeId)
    (tables : Scopes) : Machine :=
  { m with
    context := { m.context with scopes := opened, constants }
    heap := { m.heap with scopes := tables } }

/-- Names of methods and constants stand for the same on both machines. -/
structure Machine.SharesNames (m m' : Machine) : Prop where
  opened : m.context.scopes = m'.context.scopes
  constants : m.context.constants = m'.context.constants
  tables : m.heap.scopes = m'.heap.scopes

namespace Simulation

/-- Two runs of one tree that end alike, with machines in a certain relation. -/
abbrev twoRuns (state : Machine → Machine → Prop) (lax : Prop) : Simulation := ⟨state, Eq, Eq, lax⟩

/-- Related machines share what names stand for, and it makes no difference what that is, nor what
is written into the journals. -/
structure Sharing (state : Machine → Machine → Prop) : Prop where
  shares : ∀ {m m' : Machine}, state m m' → m.SharesNames m'
  named : ∀ {m m' : Machine} (opened : List ScopeId) (constants : Table ScopeId) (tables : Scopes),
    state m m' → state (m.withNames opened constants tables) (m'.withNames opened constants tables)
  recorded : ∀ {m m' : Machine} (entry : Context → Heap → Event), state m m' →
    state (m.record entry) (m'.record entry)

variable {state : Machine → Machine → Prop} {lax : Prop} {m m' : Machine}

namespace Sharing

/-- Both machines are updated alike. -/
theorem updated (h : Sharing state) (f : List ScopeId → List ScopeId)
    (g : Table ScopeId → Scopes → Table ScopeId) (k : Scopes → Scopes) (hm : state m m') :
    state
      (m.withNames (f m.context.scopes) (g m.context.constants m.heap.scopes) (k m.heap.scopes))
      (m'.withNames (f m'.context.scopes) (g m'.context.constants m'.heap.scopes)
        (k m'.heap.scopes)) := by
  have hnames := h.shares hm
  rw [hnames.opened, hnames.constants, hnames.tables]
  exact h.named _ _ _ hm

theorem changed (h : Sharing state) (hm : state m m') (f : Scopes → Except Fault Scopes) :
    (twoRuns state lax).Changed m m' (f m.heap.scopes) (f m'.heap.scopes) := by
  rw [(h.shares hm).tables]
  cases f m'.heap.scopes with
  | ok tables => exact .ok (h.updated id (fun constants _ => constants) (fun _ => tables) hm)
  | error c => exact .error c

theorem openScope (h : Sharing state) (s : ScopeId) (hm : state m m') :
    state { m with context := m.context.openScope s }
      { m' with context := m'.context.openScope s } :=
  h.updated (s :: ·) (fun constants _ => constants) id hm

theorem closeScope (h : Sharing state) (hm : state m m') :
    state { m with context := m.context.closeScope }
      { m' with context := m'.context.closeScope } :=
  h.updated List.tail (fun constants _ => constants) id hm

theorem currentScope? (h : Sharing state) (hm : state m m') :
    m.context.currentScope? = m'.context.currentScope? :=
  congrArg List.head? (h.shares hm).opened

theorem opening (h : Sharing state) : (twoRuns state lax).Opening .same where
  fault c t t' ht := by rw [show t = t' from ht]
  constant name hm := by
    rw [(h.shares hm).constants]
    exact Likeness.optionRel_refl (fun _ => rfl) _
  called hm hs := by rw [(h.shares hm).tables, show _ = _ from hs]
  create sort name hm :=
    ⟨congrArg Lineage.size (h.shares hm).tables,
      h.updated id (fun constants tables => constants.set name tables.size)
        (·.create ⟨sort, name⟩ none) hm⟩

/-- Calls have to be counted alike, besides. -/
theorem calling (h : Sharing state)
    (hlimit : ∀ {m m' : Machine}, state m m' → m.context.isAtLimit = m'.context.isAtLimit)
    (henter : ∀ {m m' : Machine}, state m m' →
      state { m with context := m.context.enter } { m' with context := m'.context.enter })
    (hleave : ∀ {m m' : Machine}, state m m' →
      state { m with context := m.context.leave } { m' with context := m'.context.leave }) :
    (twoRuns state lax).Calling .same where
  fault c t t' ht := by rw [show t = t' from ht]
  limit := hlimit
  entered hm := h.recorded .entered hm
  enter := henter
  leave := hleave

theorem withScope {α : Type} {A : α → α → Prop} {x y : Eval α} (h : Sharing state) (s : ScopeId)
    (hx : (twoRuns state lax).judgment α A x y) :
    (twoRuns state lax).judgment α A (Eval.withScope s x) (Eval.withScope s y) :=
  within hx (fun _ _ hm => h.openScope s hm) fun _ _ _ _ _ hn => h.closeScope hn

theorem observed {activity : Activity} {n : Node} {x y : Eval Value} (h : Sharing state)
    (hx : (twoRuns state lax).judgment _ Eq x y) :
    (twoRuns state lax).judgment _ Eq (Eval.observed activity n x)
      (Eval.observed activity n y) := by
  refine Simulation.observed hx (fun _ _ hm => h.recorded _ hm) fun m m' o o' hm ho => ?_
  obtain rfl : o = o' := ho.eq
  exact h.recorded _ hm

end Sharing

/-- Besides, local variables and warnings are the same on both sides as far as they can be seen, and
what is done to them leads to related machines. -/
structure Mirroring (state : Machine → Machine → Prop) : Prop extends Sharing state where
  readLocal : ∀ {m m' : Machine} (name : String), state m m' →
    m.heap.environments.get? m.context.environment name =
      m'.heap.environments.get? m'.context.environment name
  assignLocal : ∀ {m m' : Machine} (name : String) (v : Value), state m m' →
    state
      { m with heap := { m.heap with
        environments := m.heap.environments.assign m.context.environment name v } }
      { m' with heap := { m'.heap with
        environments := m'.heap.environments.assign m'.context.environment name v } }
  warn : ∀ {m m' : Machine} (message : String) (l : Location), state m m' →
    state { m with context := m.context.warn message (some l) }
      { m' with context := m'.context.warn message (some l) }
  enterEnvironment : ∀ {m m' : Machine} (bindings : Table Value), state m m' →
    state
      { m with
        context := { m.context with environment := m.heap.environments.size }
        heap := { m.heap with environments := m.heap.environments.add none bindings } }
      { m' with
        context := { m'.context with environment := m'.heap.environments.size }
        heap := { m'.heap with environments := m'.heap.environments.add none bindings } }
  leaveEnvironment : ∀ {m m' n n' : Machine}, state m m' → state n n' →
    state { n with context := { n.context with environment := m.context.environment } }
      { n' with context := { n'.context with environment := m'.context.environment } }

namespace Mirroring

theorem toLocal (h : Mirroring state) : (twoRuns state lax).Local .same where
  toOpening := h.opening
  signal := rfl
  stray := trivial
  misuse _ := rfl
  readLocal := h.readLocal
  currentScope hm := by
    rw [h.currentScope? hm]
    exact Likeness.optionRel_refl (fun _ => rfl) _
  find name hm hs := by
    rw [(h.shares hm).tables, show _ = _ from hs]
    exact Likeness.optionRel_refl Likeness.same_methods _
  frozen hm hs := by rw [(h.shares hm).tables, show _ = _ from hs]
  started {m m' activity n n'} hn hm := by
    obtain rfl : n = n' := Likeness.eq_of_handled hn
    exact h.recorded _ hm
  ended {m m' activity n n' o o'} hn ho hm := by
    obtain rfl : n = n' := Likeness.eq_of_handled hn
    obtain rfl : o = o' := ho.eq
    exact h.recorded _ hm
  assignLocal := h.assignLocal
  define {m m' s s' b b'} name params hm hs hb := by
    obtain rfl : s = s' := hs
    obtain rfl : b = b' := Likeness.eq_of_body hb
    exact h.changed hm (·.define s name params b)
  undef {m m' s s'} name hm hs := by
    obtain rfl : s = s' := hs
    exact h.changed hm (·.undef s name)
  addAlias {m m' s s'} newName oldName hm hs := by
    obtain rfl : s = s' := hs
    exact h.changed hm (·.addAlias s newName oldName)
  warn {m m' t t'} message ht hm := by
    obtain rfl : t = t' := ht
    exact h.warn message t.location hm
  openScope {m m' s s'} hs hm := by
    obtain rfl : s = s' := hs
    exact h.openScope s hm
  closeScope hm := h.closeScope hm
  enterEnvironment := h.enterEnvironment
  leaveEnvironment := h.leaveEnvironment

/-- Where calls are counted alike as well, nothing is left to say. -/
theorem stable (h : Mirroring state) (hcalling : (twoRuns state lax).Calling .same) :
    (twoRuns state lax).Stable .same :=
  { h.toLocal, hcalling with }

end Mirroring

theorem Stable.congruence_same {K : Simulation} (hK : K.Stable .same) :
    Congruence .same K.judgment :=
  hK.congruence Likeness.same_steps Likeness.same_assigns fun _ _ h => h

end Simulation

end Treewalk
