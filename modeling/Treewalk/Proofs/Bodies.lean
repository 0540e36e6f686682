import Treewalk.Proofs.Reach
import Treewalk.Proofs.Simulation

/-!
# Changing the bodies of methods

What is done to method tables does not depend on bodies: every operation on scopes commutes with
`Scopes.mapBodies`. So a run can be compared with one on a machine whose stored bodies were all
changed by one function, as far as they are within reach: `Renoding`. The nodes in the journal may
be changed along with them: `renode`. What is left to a law of that kind is what evaluation makes of
a changed node.
-/

set_option autoImplicit false

namespace Treewalk

namespace Scopes

variable (f : Node → Node) (s : Scopes) (m : ScopeId) (name : String)

/-- Slots are read through the change: a body comes out changed, a hidden name stays hidden. -/
theorem slot?_mapBodies : (s.mapBodies f).slot? m name = (s.slot? m name).map (Slot.mapBody f) := by
  unfold slot? mapBodies
  rw [Lineage.value?_map]
  cases s.value? m with
  | none => rfl
  | some scope => exact Table.get?_map _ scope.methods name

theorem method?_mapBody (slot : Slot) :
    (slot.mapBody f).method? = slot.method?.map (·.mapBody f) := by
  cases slot <;> rfl

/-- Lookup does not look into bodies, so it finds the same method with its body changed. -/
theorem find?_mapBodies : (s.mapBodies f).find? m name = (s.find? m name).map (·.mapBody f) := by
  have hslots : (fun i => (s.mapBodies f).slot? i name) =
      Option.map (Slot.mapBody f) ∘ fun i => s.slot? i name :=
    funext fun i => slot?_mapBodies f s i name
  have hchain : (s.mapBodies f).chain m = s.chain m := Lineage.chain_map ..
  unfold find?
  rw [hslots, hchain, ← List.map_findSome?]
  -- A slot that hides the name is found like a method, and is one on neither side.
  cases (s.chain m).findSome? fun i => s.slot? i name with
  | none => rfl
  | some slot => exact method?_mapBody f slot

theorem called_mapBodies : (s.mapBodies f).called m = s.called m := by
  unfold called mapBodies
  rw [Lineage.value?_map, Option.map_map]
  rfl

theorem isFrozen_mapBodies : (s.mapBodies f).isFrozen m = s.isFrozen m := by
  unfold isFrozen mapBodies
  rw [Lineage.value?_map, Option.map_map]
  rfl

theorem size_mapBodies : (s.mapBodies f).size = s.size := Lineage.size_map ..

/-- A changed slot may be put in afterwards, or the slot put in first and changed with the rest. -/
theorem setSlot_mapBodies (slot : Slot) :
    (s.mapBodies f).setSlot m name (slot.mapBody f) = (s.setSlot m name slot).mapBodies f := by
  refine (Lineage.map_update s _ (fun scope => ?_) m).symm
  exact congrArg (Scope.mk scope.called · scope.frozen) (Table.map_set _ scope.methods name slot)

theorem mapBodies_mapBodies (g : Node → Node) :
    (s.mapBodies f).mapBodies g = s.mapBodies (g ∘ f) := by
  have hslot : ∀ slot : Slot, (slot.mapBody f).mapBody g = slot.mapBody fun n => g (f n) := by
    intro slot
    cases slot with
    | defined method => simp [Slot.mapBody, Method.mapBody, Function.comp_def]
    | undefined => rfl
  unfold mapBodies
  simp only [Lineage.map_map, Function.comp_def, Table.map_map, hslot]

/-- A new scope is empty, so there is nothing in it to change. -/
theorem create_mapBodies (called : ScopeName) (superclass : Option ScopeId) :
    (s.mapBodies f).create called superclass = (s.create called superclass).mapBodies f :=
  (Lineage.map_add s _ superclass ⟨called, .empty, false⟩).symm

/-! ## Changes that may fail -/

/-- Whether a scope is open does not depend on bodies, and the fault names the scope alone. -/
theorem whenOpen_mapBodies {change change' : Except Fault Scopes}
    (h : change' = change.map (mapBodies f)) :
    (s.mapBodies f).whenOpen m change' = (s.whenOpen m change).map (mapBodies f) := by
  unfold whenOpen
  rw [isFrozen_mapBodies, called_mapBodies]
  split
  · rfl
  · exact h

/-- The one operation that takes a body: it must be given the changed one. -/
theorem define_mapBodies (params : List String) (body : Option Node) :
    (s.mapBodies f).define m name params (body.map f) =
      (s.define m name params body).map (mapBodies f) := by
  refine whenOpen_mapBodies f s m ?_
  exact congrArg Except.ok (setSlot_mapBodies f s m name (.defined ⟨name, params, body, m⟩))

theorem undef_mapBodies :
    (s.mapBodies f).undef m name = (s.undef m name).map (mapBodies f) := by
  refine whenOpen_mapBodies f s m ?_
  rw [find?_mapBodies, called_mapBodies]
  cases s.find? m name with
  | none => rfl
  | some method => exact congrArg Except.ok (setSlot_mapBodies f s m name .undefined)

/-- An alias shares the body of the method it copies, and so shares the changed one. -/
theorem addAlias_mapBodies (newName oldName : String) :
    (s.mapBodies f).addAlias m newName oldName =
      (s.addAlias m newName oldName).map (mapBodies f) := by
  refine whenOpen_mapBodies f s m ?_
  rw [find?_mapBodies, called_mapBodies]
  cases s.find? m oldName with
  | none => rfl
  | some method =>
    exact congrArg Except.ok
      (setSlot_mapBodies f s m newName (.defined { method with name := newName }))

end Scopes

/-! ## Machines with changed nodes -/

/-- Environments hold no bodies, so the method tables alone change. -/
def Heap.mapBodies (f : Node → Node) (h : Heap) : Heap := { h with scopes := h.scopes.mapBodies f }

/-- An entry with its node changed, and the bodies of the heap it was made with. -/
def Event.mapNodes (f : Node → Node) : Event → Event
  | .started activity n c h => .started activity (f n) c (h.mapBodies f)
  | .ended activity n o c h => .ended activity (f n) o c (h.mapBodies f)
  | .entered c h => .entered c (h.mapBodies f)

/-- The machine with every stored body changed, and every node in its journal. -/
def Machine.mapNodes (f : Node → Node) (m : Machine) : Machine :=
  { m with heap := m.heap.mapBodies f, journal := m.journal.map (·.map (·.mapNodes f)) }

/-- An entry recorded on the changed machine is the changed entry, for entries that read context and
heap alike. -/
theorem Machine.record_mapNodes {f : Node → Node} {m : Machine}
    {entry entry' : Context → Heap → Event}
    (h : ∀ c hp, entry' c (hp.mapBodies f) = (entry c hp).mapNodes f) :
    (m.mapNodes f).record entry' = (m.record entry).mapNodes f := by
  obtain ⟨c, hp, j⟩ := m
  cases j with
  | none => rfl
  | some es =>
    unfold record mapNodes
    simp only [Option.map_some, List.map_append, List.map_cons, List.map_nil, h]

/-! ## Simulations between such machines -/

/-- A call without a body has none on the changed machine either. -/
theorem optionRel_renoded (f : Node → Node) (o : Option Node) :
    Option.Rel (fun n n' => f n = n') o (o.map f) := by
  cases o with
  | none => exact .none
  | some n => exact .some rfl

/-- The right machine has the context of the left one but for warnings, and its heap with every
body changed. The scopes and bodies within reach may be known to be of some kind. What else is done
to both alike leads to related machines. -/
structure Renoding (f : Node → Node) (S : ScopeId → Prop) (P : Node → Prop) (K : Simulation)
    (L : Likeness) : Prop where
  scope : ∀ {s s' : ScopeId}, L.scope s s' ↔ s = s' ∧ S s
  body : ∀ {b b' : Node}, L.body b b' ↔ P b ∧ f b = b'
  signal : L.signal = K.signal
  stray : L.stray
  misuse : ∀ {c : Misuse}, L.misuse c → K.error (.misuse c) (.misuse c)
  fault : ∀ (c : Fault) {t t' : Tag}, L.tag t t' →
    K.error (.fault c (some t.location)) (.fault c (some t'.location))
  within : ∀ {m m' : Machine}, K.state m m' → m.Within S P
  context : ∀ {m m' : Machine}, K.state m m' →
    m'.context = { m.context with warnings := m'.context.warnings }
  heap : ∀ {m m' : Machine}, K.state m m' → m'.heap = m.heap.mapBodies f
  updated : ∀ {m m' : Machine}, K.state m m' → ∀ (c : Context) (h : Heap),
    c.warnings = m.context.warnings → Within S P c.scopes c.constants h.scopes →
    K.state { m with context := c, heap := h }
      { m' with context := { c with warnings := m'.context.warnings }, heap := h.mapBodies f }
  warn : ∀ {m m' : Machine} {t t' : Tag} (message : String), L.tag t t' → K.state m m' →
    K.state { m with context := m.context.warn message (some t.location) }
      { m' with context := m'.context.warn message (some t'.location) }
  started : ∀ {m m' : Machine} {activity : Activity} {n n' : Node}, L.handled activity n n' →
    K.state m m' → K.state (m.record (.started activity n)) (m'.record (.started activity n'))
  ended : ∀ {m m' : Machine} {activity : Activity} {n n' : Node} {o o' : Outcome Value},
    L.handled activity n n' → o.Rel Eq K.signal K.error o' → K.state m m' →
    K.state (m.record (.ended activity n o)) (m'.record (.ended activity n' o'))
  entered : ∀ {m m' : Machine}, K.state m m' → K.state (m.record .entered) (m'.record .entered)

namespace Renoding

variable {f : Node → Node} {S : ScopeId → Prop} {P : Node → Prop} {K : Simulation} {L : Likeness}
  {m m' : Machine}

/-- Bodies that a definition gives on both sides are of the known kind, and one is the other
changed. -/
theorem bodies (h : Renoding f S P K L) {b b' : Option Node} (hb : Option.Rel L.body b b') :
    (∀ n ∈ b, P n) ∧ b.map f = b' := by
  cases hb with
  | none => exact ⟨fun n hn => absurd hn (by simp), rfl⟩
  | some hn =>
    obtain ⟨hP, rfl⟩ := h.body.mp hn
    exact ⟨fun n he => by cases he; exact hP, rfl⟩

theorem optionRel_body (h : Renoding f S P K L) {b : Option Node} (hb : ∀ n ∈ b, P n) :
    Option.Rel L.body b (b.map f) := by
  cases b with
  | none => exact .none
  | some n => exact .some (h.body.mpr ⟨hb n rfl, rfl⟩)

/-- Changes that commute with the change of bodies end alike: both fail with the same fault, or both
lead to related machines. -/
theorem changed (h : Renoding f S P K L) (hm : K.state m m')
    {change change' : Except Fault Scopes} (hchange : change' = change.map (Scopes.mapBodies f))
    (hwithin : ∀ scopes, change = .ok scopes →
      Within S P m.context.scopes m.context.constants scopes) :
    K.Changed m m' change change' := by
  subst hchange
  cases change with
  | ok scopes =>
    have hstate := h.updated hm m.context { m.heap with scopes } rfl (hwithin scopes rfl)
    rw [← h.context hm] at hstate
    refine .ok ?_
    rw [h.heap hm]
    exact hstate
  | error c => exact .error c

/-- All that a rule reads from a machine is the same on the changed one but for bodies, and all that
it does keeps the two related. This is a law of evaluation but for what it makes of a node. -/
theorem stable (h : Renoding f S P K L) : K.Stable L where
  signal := h.signal
  stray := h.stray
  misuse := h.misuse
  fault := h.fault
  readLocal name hm := by
    rw [h.context hm, h.heap hm]
    rfl
  currentScope hm := by
    rw [h.context hm]
    exact Likeness.optionRel_same fun s hs =>
      h.scope.mpr ⟨rfl, (h.within hm).opened s (List.mem_of_mem_head? hs)⟩
  constant name hm := by
    rw [h.context hm]
    exact Likeness.optionRel_same fun s hs =>
      h.scope.mpr ⟨rfl, (h.within hm).constant name s hs⟩
  find {m m' s s'} name hm hs := by
    obtain ⟨rfl, hin⟩ := h.scope.mp hs
    rw [h.heap hm, Heap.mapBodies, Scopes.find?_mapBodies]
    cases hfound : m.heap.scopes.find? s name with
    | none => exact .none
    | some method =>
      obtain ⟨howner, hbody⟩ := (h.within hm).found hin hfound
      exact .some ⟨rfl, h.scope.mpr ⟨rfl, howner⟩, h.optionRel_body hbody⟩
  called hm hs := by
    obtain ⟨rfl, -⟩ := h.scope.mp hs
    rw [h.heap hm]
    exact (Scopes.called_mapBodies ..).symm
  frozen hm hs := by
    obtain ⟨rfl, -⟩ := h.scope.mp hs
    rw [h.heap hm]
    exact (Scopes.isFrozen_mapBodies ..).symm
  limit hm := by
    rw [h.context hm]
    rfl
  started := h.started
  ended := h.ended
  entered := h.entered
  assignLocal name v hm := by
    rw [h.context hm, h.heap hm]
    exact h.updated hm _ _ rfl (h.within hm)
  define name params hm hs hb := by
    obtain ⟨rfl, hin⟩ := h.scope.mp hs
    obtain ⟨hbody, rfl⟩ := h.bodies hb
    refine h.changed hm ?_ fun scopes hdef => (h.within hm).define hin hbody hdef
    rw [h.heap hm]
    exact Scopes.define_mapBodies ..
  undef name hm hs := by
    obtain ⟨rfl, -⟩ := h.scope.mp hs
    refine h.changed hm ?_ fun scopes hundef => (h.within hm).undef hundef
    rw [h.heap hm]
    exact Scopes.undef_mapBodies ..
  addAlias newName oldName hm hs := by
    obtain ⟨rfl, hin⟩ := h.scope.mp hs
    refine h.changed hm ?_ fun scopes halias => (h.within hm).addAlias hin halias
    rw [h.heap hm]
    exact Scopes.addAlias_mapBodies ..
  warn := h.warn
  create {m m'} sort name hm := by
    have hsize : m'.heap.scopes.size = m.heap.scopes.size := by
      rw [h.heap hm]
      exact Scopes.size_mapBodies ..
    refine ⟨h.scope.mpr ⟨hsize.symm, (h.within hm).unborn _ (Nat.le_refl _)⟩, ?_⟩
    rw [hsize, h.context hm, h.heap hm, Heap.mapBodies, Scopes.create_mapBodies]
    exact h.updated hm _ { m.heap with scopes := m.heap.scopes.create ⟨sort, name⟩ none } rfl
      ((h.within hm).create ⟨sort, name⟩ name)
  openScope hs hm := by
    obtain ⟨rfl, hin⟩ := h.scope.mp hs
    rw [h.context hm, h.heap hm]
    exact h.updated hm _ _ rfl ((h.within hm).openScope hin)
  closeScope hm := by
    rw [h.context hm, h.heap hm]
    exact h.updated hm _ _ rfl (h.within hm).closeScope
  enter hm := by
    rw [h.context hm, h.heap hm]
    exact h.updated hm _ _ rfl (h.within hm)
  leave hm := by
    rw [h.context hm, h.heap hm]
    exact h.updated hm _ _ rfl (h.within hm)
  enterEnvironment {m m'} bindings hm := by
    rw [h.context hm, h.heap hm]
    exact h.updated hm _ { m.heap with environments := m.heap.environments.add none bindings } rfl
      (h.within hm)
  leaveEnvironment {m m' n n'} hm hn := by
    rw [h.context hm, h.context hn, h.heap hn]
    exact h.updated hn _ _ rfl (h.within hn)

end Renoding

/-- The right run is on the changed machine. -/
def renode (f : Node → Node) : Simulation := ⟨fun m m' => m.mapNodes f = m', Eq, Eq, False⟩

/-- Nodes are like their changed ones. -/
def Likeness.renoded (f : Node → Node) : Likeness where
  node n n' := f n = n'
  body n n' := f n = n'
  target n n' := f n = n'
  tag := Eq
  scope := Eq
  signal := Eq
  misuse _ := True
  loops := True
  stray := True
  received := received_of_eq

section

variable {f : Node → Node}

/-- No update of the machine looks into a body. -/
theorem renoding_renode :
    Renoding f (fun _ => True) (fun _ => True) (renode f) (.renoded f) where
  scope := (and_iff_left trivial).symm
  body := (and_iff_right trivial).symm
  signal := rfl
  stray := trivial
  misuse _ := rfl
  fault c t t' ht := by
    obtain rfl : t = t' := ht
    rfl
  within _ := .any ..
  context hm := by
    cases hm
    rfl
  heap hm := by
    cases hm
    rfl
  updated hm c h hwarnings _ := by
    cases hm
    dsimp only [Machine.mapNodes]
    rw [← hwarnings]
    rfl
  warn message ht hm := by
    cases hm
    cases ht
    rfl
  started {m m' activity n n'} hn hm := by
    cases hm
    obtain rfl : f n = n' := by cases activity <;> exact hn
    exact (Machine.record_mapNodes fun _ _ => rfl).symm
  ended {m m' activity n n' o o'} hn ho hm := by
    cases hm
    obtain rfl : f n = n' := by cases activity <;> exact hn
    cases ho.eq
    exact (Machine.record_mapNodes fun _ _ => rfl).symm
  entered hm := by
    cases hm
    exact (Machine.record_mapNodes fun _ _ => rfl).symm

theorem renode_stable : (renode f).Stable (.renoded f) := renoding_renode.stable

end

end Treewalk
