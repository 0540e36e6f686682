import Treewalk.Proofs.Contract
import Treewalk.Proofs.Scopes

/-!
# The scopes within reach of a program

A program gets at the scopes that are open, at its constants, at superclasses, and at the scopes
that methods were defined in: `Machine.Reachable`. What is assumed of stored method bodies is
assumed of those within reach.

Reach is no invariant by itself, for it shrinks as well as it grows: a call still runs in the scope
its method was defined in when the last slot that leads there was overwritten by one of its
operands. So a run is judged by a fixed set of scopes that is closed under reaching on and holds
every scope yet to be made: `Within`. It is the invariant of every `Storing.contract`.
-/

set_option autoImplicit false

namespace Treewalk

/-- The scopes that a program can get at. -/
inductive Machine.Reachable (m : Machine) : ScopeId → Prop
  | opened {s : ScopeId} : s ∈ m.context.scopes → Reachable m s
  | constant {name : String} {s : ScopeId} :
      m.context.constants.get? name = some s → Reachable m s
  | superclass {s p : ScopeId} : Reachable m s → m.heap.scopes.parent? s = some p → Reachable m p
  | owner {s : ScopeId} {name : String} {method : Method} : Reachable m s →
      m.heap.scopes.slot? s name = some (.defined method) → Reachable m method.owner

/-- A body of one of the methods that a scope has itself. -/
def Scopes.Stores (scopes : Scopes) (s : ScopeId) (b : Node) : Prop :=
  ∃ name method, scopes.slot? s name = some (.defined method) ∧ method.body = some b

/-- Every method body within reach satisfies the predicate. -/
def Machine.StoresOnly (m : Machine) (P : Node → Prop) : Prop :=
  ∀ s b, m.Reachable s → m.heap.scopes.Stores s b → P b

/-- A set of scopes that nothing leads out of, with bodies that satisfy a predicate. -/
structure Within (S : ScopeId → Prop) (P : Node → Prop) (opened : List ScopeId)
    (constants : Table ScopeId) (scopes : Scopes) : Prop where
  unborn : ∀ s, scopes.size ≤ s → S s
  opened : ∀ s ∈ opened, S s
  constant : ∀ name s, constants.get? name = some s → S s
  superclass : ∀ s p, S s → scopes.parent? s = some p → S p
  method : ∀ s name method, S s → scopes.slot? s name = some (.defined method) →
    S method.owner ∧ ∀ b ∈ method.body, P b

abbrev Machine.Within (m : Machine) (S : ScopeId → Prop) (P : Node → Prop) : Prop :=
  Treewalk.Within S P m.context.scopes m.context.constants m.heap.scopes

/-- All scopes, and bodies of whatever kind. -/
theorem Within.any (opened : List ScopeId) (constants : Table ScopeId) (scopes : Scopes) :
    Within (fun _ => True) (fun _ => True) opened constants scopes :=
  ⟨fun _ _ => trivial, fun _ _ => trivial, fun _ _ _ => trivial, fun _ _ _ _ => trivial,
    fun _ _ _ _ _ => ⟨trivial, fun _ _ => trivial⟩⟩

theorem Machine.StoresOnly.within {m : Machine} {P : Node → Prop} (h : m.StoresOnly P) :
    m.Within (fun s => m.Reachable s ∨ m.heap.scopes.size ≤ s) P where
  unborn s hs := .inr hs
  opened s hs := .inl (.opened hs)
  constant name s hs := .inl (.constant hs)
  superclass s p hs hp := by
    rcases hs with hs | hs
    · exact .inl (.superclass hs hp)
    -- A scope that was not made yet leads nowhere.
    · rw [Lineage.parent?_eq_none _ hs] at hp
      exact absurd hp (by simp)
  method s name method hs hm := by
    rcases hs with hs | hs
    · exact ⟨.inl (.owner hs hm), fun b hb => h s b hs ⟨name, method, hm, hb⟩⟩
    · rw [Scopes.slot?_eq_none hs] at hm
      exact absurd hm (by simp)

/-- A machine with one class, which is open and has one method, with the given body. -/
def Machine.oneMethod (options : Options) (body : Node) : Machine :=
  let scopes := Scopes.setSlot (Scopes.create .empty ⟨.klass, "A"⟩ none) 0 "f"
    (.defined ⟨"f", [], some body, 0⟩)
  ⟨(Context.initial options 0).openScope 0, ⟨Lineage.empty.add none .empty, scopes⟩, some []⟩

theorem Machine.storesOnly_oneMethod {options : Options} {body : Node} {P : Node → Prop}
    (h : P body) : (oneMethod options body).StoresOnly P := by
  rintro s b - ⟨name, method, hslot, hbody⟩
  rcases Scopes.slot?_setSlot_cases hslot with ⟨-, -, he⟩ | hold
  · cases he
    cases hbody
    exact h
  · rw [Scopes.slot?_create, Scopes.slot?_eq_none (Nat.zero_le _)] at hold
    exact absurd hold (by simp)

namespace Within

variable {S : ScopeId → Prop} {P : Node → Prop} {opened : List ScopeId}
  {constants : Table ScopeId} {scopes : Scopes}

theorem reachable {m : Machine} (h : m.Within S P) {s : ScopeId} (hs : m.Reachable s) : S s := by
  induction hs with
  | opened hs => exact h.opened _ hs
  | constant hs => exact h.constant _ _ hs
  | superclass _ hp ih => exact h.superclass _ _ ih hp
  | owner _ hm ih => exact (h.method _ _ _ ih hm).1

theorem stores (h : Within S P opened constants scopes) {s : ScopeId} {b : Node} (hs : S s)
    (hb : scopes.Stores s b) : P b := by
  obtain ⟨name, method, hm, hbody⟩ := hb
  exact (h.method s name method hs hm).2 b hbody

theorem found (h : Within S P opened constants scopes) {s : ScopeId} {name : String}
    {method : Method} (hs : S s) (hf : scopes.find? s name = some method) :
    S method.owner ∧ ∀ b ∈ method.body, P b := by
  obtain ⟨i, hi, hslot⟩ := Scopes.exists_slot_of_find? hf
  exact h.method i name method (Lineage.forall_mem_chain scopes h.superclass hs i hi) hslot

/-! ## Every update stays within -/

theorem setSlot (h : Within S P opened constants scopes) {m : ScopeId} {name : String}
    {slot : Slot} (hslot : ∀ method, slot = .defined method →
      S method.owner ∧ ∀ b ∈ method.body, P b) :
    Within S P opened constants (scopes.setSlot m name slot) where
  unborn s hs := h.unborn s (by rwa [Scopes.size_setSlot] at hs)
  opened := h.opened
  constant := h.constant
  superclass s p hs hp := h.superclass s p hs (by rwa [Scopes.parent?_setSlot] at hp)
  method s n method hs hm := by
    rcases Scopes.slot?_setSlot_cases hm with ⟨-, -, hm⟩ | hm
    · exact hslot method hm.symm
    · exact h.method s n method hs hm

theorem define (h : Within S P opened constants scopes) {m : ScopeId} (hm : S m) {name : String}
    {params : List String} {b : Option Node} (hb : ∀ n ∈ b, P n) {scopes' : Scopes}
    (hdef : scopes.define m name params b = .ok scopes') :
    Within S P opened constants scopes' := by
  rw [Scopes.eq_of_define hdef]
  refine h.setSlot fun method hmethod => ?_
  cases hmethod
  exact ⟨hm, hb⟩

theorem undef (h : Within S P opened constants scopes) {m : ScopeId} {name : String}
    {scopes' : Scopes} (hundef : scopes.undef m name = .ok scopes') :
    Within S P opened constants scopes' := by
  rw [Scopes.eq_of_undef hundef]
  exact h.setSlot fun method hmethod => absurd hmethod (by simp)

theorem addAlias (h : Within S P opened constants scopes) {m : ScopeId} (hm : S m)
    {newName oldName : String} {scopes' : Scopes}
    (halias : scopes.addAlias m newName oldName = .ok scopes') :
    Within S P opened constants scopes' := by
  obtain ⟨old, hold, rfl⟩ := Scopes.eq_of_addAlias halias
  have hfound := h.found hm hold
  refine h.setSlot fun method hmethod => ?_
  cases hmethod
  exact hfound

/-- The new scope was in the set before it was made. -/
theorem create (h : Within S P opened constants scopes) (called : ScopeName) (name : String) :
    Within S P opened (constants.set name scopes.size) (scopes.create called none) where
  unborn s hs := h.unborn s (by
    rw [Scopes.create, Lineage.size_add] at hs
    exact Nat.le_of_succ_le hs)
  opened := h.opened
  constant n s hs := by
    rw [Table.get?_set] at hs
    split at hs
    · cases hs
      exact h.unborn _ (Nat.le_refl _)
    · exact h.constant n s hs
  superclass s p hs hp := by
    rw [Scopes.create, Lineage.parent?_add] at hp
    split at hp
    · exact absurd hp (by simp)
    · exact h.superclass s p hs hp
  method s n method hs hm := h.method s n method hs (by rwa [Scopes.slot?_create] at hm)

theorem openScope (h : Within S P opened constants scopes) {s : ScopeId} (hs : S s) :
    Within S P (s :: opened) constants scopes :=
  { h with opened := fun i hi => (List.mem_cons.mp hi).elim (fun e => e ▸ hs) (h.opened i) }

theorem closeScope (h : Within S P opened constants scopes) :
    Within S P opened.tail constants scopes :=
  { h with opened := fun i hi => h.opened i (List.mem_of_mem_tail hi) }

end Within

/-! ## The contracts of stored bodies -/

/-- How evaluations may end, and what they keep of the options, the depth of calls and the entries
of the journal. -/
structure Storing where
  counted : Options → Nat → List Event → Prop
  error : Error → Prop
  signal : Signal → Prop
  starves : Prop

/-- The contract that scopes stay within a set and stored bodies satisfy a predicate. -/
def Storing.contract (K : Storing) (S : ScopeId → Prop) (P : Node → Prop) : Contract where
  inv m := m.Within S P ∧ K.counted m.context.options m.context.depth m.entries
  change _ _ := True
  error := K.error
  signal := K.signal
  starves := K.starves
  refl _ := trivial
  trans _ _ := trivial

/-- The node that an entry says the evaluation of, if it is about an evaluation. -/
def Event.evaluated? : Event → Option Node
  | .started .evaluating n _ _ | .ended .evaluating n _ _ _ => some n
  | _ => none

/-- The node that an entry says the assignment to, if it is about an assignment. -/
def Event.assigned? : Event → Option Node
  | .started .assigning n _ _ | .ended .assigning n _ _ _ => some n
  | _ => none

namespace Storing

variable {K : Storing} {S : ScopeId → Prop} {P : Node → Prop} {R : Roles}

theorem step_of_inv {m m' : Machine} (h : (K.contract S P).inv m') :
    (K.contract S P).Step m m' := ⟨h, trivial⟩

/-- Entries are counted as entries, whatever the machine. -/
theorem step_record {m : Machine} {entry : Context → Heap → Event} (hm : (K.contract S P).inv m)
    (hnote : K.counted m.context.options m.context.depth m.entries →
      K.counted m.context.options m.context.depth (m.entries ++ [entry m.context m.heap])) :
    (K.contract S P).Step m (m.record entry) := by
  refine step_of_inv ⟨hm.1, ?_⟩
  show K.counted m.context.options m.context.depth (m.record entry).entries
  rcases m.entries_record entry with he | he
  · rw [he]
    exact hm.2
  · rw [he]
    exact hnote hm.2

/-- Nothing but a call or an entry counts, and the rest stays within. Entries about nodes that may
be assigned to have to count, and failures that are placed at a tag that they may be placed at. -/
theorem stable_placed (hscope : R.scope = S) (hbody : R.body = P) (hstray : R.stray)
    (hfault : ∀ c {t : Tag}, c.Arises R.stray → R.tag t → K.error (.fault c (some t.location)))
    (hnote : ∀ {o d es} (e : Event), e.evaluated? = none → (∀ n ∈ e.assigned?, R.target n) →
      K.counted o d es → K.counted o d (es ++ [e])) : (K.contract S P).Stable R where
  fault c _ hc ht := hfault c hc ht
  stray _ _ := hstray
  currentScope hm hs := hscope ▸ hm.1.opened _ (List.mem_of_mem_head? hs)
  constant hm hs := hscope ▸ hm.1.constant _ _ hs
  method hm hs hf := by
    subst hscope hbody
    exact hm.1.found hs hf
  startAssigning hn hm := step_record hm (hnote _ rfl fun n h => by cases h; exact hn)
  endAssigning _ hn hm := step_record hm (hnote _ rfl fun n h => by cases h; exact hn)
  assignLocal _ _ hm := step_of_inv hm
  define hm hs hb hdef := by
    subst hscope hbody
    exact step_of_inv ⟨hm.1.define hs hb hdef, hm.2⟩
  undef hm _ hundef := step_of_inv ⟨hm.1.undef hundef, hm.2⟩
  addAlias hm hs halias := step_of_inv ⟨hm.1.addAlias (hscope ▸ hs) halias, hm.2⟩
  warn name l hm _ := by
    obtain ⟨warnings, hw⟩ := Context.exists_warn_eq _ _ l
    rw [hw]
    exact step_of_inv hm
  create {m name} sort hm _ :=
    ⟨hscope ▸ hm.1.unborn _ (Nat.le_refl _), step_of_inv ⟨hm.1.create ⟨sort, name⟩ name, hm.2⟩⟩
  openScope hm hs := ⟨hm.1.openScope (hscope ▸ hs), hm.2⟩
  closeScope _ _ h := step_of_inv ⟨h.inv.1.closeScope, h.inv.2⟩
  enterEnvironment _ hm := hm
  leaveEnvironment _ _ h := step_of_inv h.inv

/-- The same, where it does not matter what is assigned to and where failures are placed. -/
theorem stable (hscope : R.scope = S) (hbody : R.body = P) (hstray : R.stray)
    (hfault : ∀ c l, c.Arises R.stray → K.error (.fault c l))
    (hnote : ∀ {o d es} (e : Event), e.evaluated? = none → K.counted o d es →
      K.counted o d (es ++ [e])) : (K.contract S P).Stable R :=
  stable_placed hscope hbody hstray (fun c _ hc _ => hfault c _ hc) fun e he _ => hnote e he

/-- Where the depth of calls does not count, stored bodies need only be runnable, and entries about
nodes that may be evaluated have to count as well. -/
theorem closed_placed (hscope : R.scope = S) (hbody : R.body = P) (hstray : R.stray)
    (hfault : ∀ c {t : Tag}, c.Arises R.stray → R.tag t → K.error (.fault c (some t.location)))
    (hdepth : ∀ {o d d' es}, K.counted o d es → K.counted o d' es)
    (hnote : ∀ {o d es} (e : Event), (∀ n ∈ e.evaluated?, R.node n) →
      (∀ n ∈ e.assigned?, R.target n) → K.counted o d es → K.counted o d (es ++ [e]))
    (hstarves : K.starves) (hrunnable : ∀ n, P n → R.node n)
    (hsteps : ∀ n, R.node n → ((K.contract S P).likeness R).Steps n n)
    (hassigns : ∀ n, R.target n → ((K.contract S P).likeness R).Assigns n n) :
    (K.contract S P).Closed R where
  toStable := stable_placed hscope hbody hstray hfault fun e he =>
    hnote e fun n hn => absurd hn (by simp [he])
  steps := hsteps
  assigns := hassigns
  runnable n hn := hrunnable n (hbody ▸ hn)
  starves := hstarves
  startEvaluating hn hm := step_record hm
    (hnote _ (fun n h => by cases h; exact hn) fun n h => absurd h (by simp [Event.assigned?]))
  endEvaluating _ hn hm := step_record hm
    (hnote _ (fun n h => by cases h; exact hn) fun n h => absurd h (by simp [Event.assigned?]))
  enterCall {m} hm _ := by
    have hcalled : (K.contract S P).inv { m with context := m.context.enter } :=
      ⟨hm.1, hdepth hm.2⟩
    exact (step_record hcalled (hnote _ (fun n h => absurd h (by simp [Event.evaluated?]))
      fun n h => absurd h (by simp [Event.assigned?]))).inv
  leaveCall _ h := step_of_inv ⟨h.inv.1, hdepth h.inv.2⟩

/-- The same, where it does not matter what is assigned to and where failures are placed. -/
theorem closed (hscope : R.scope = S) (hbody : R.body = P) (hstray : R.stray)
    (hfault : ∀ c l, c.Arises R.stray → K.error (.fault c l))
    (hdepth : ∀ {o d d' es}, K.counted o d es → K.counted o d' es)
    (hnote : ∀ {o d es} (e : Event), (∀ n ∈ e.evaluated?, R.node n) → K.counted o d es →
      K.counted o d (es ++ [e]))
    (hstarves : K.starves) (hrunnable : ∀ n, P n → R.node n)
    (hsteps : ∀ n, R.node n → ((K.contract S P).likeness R).Steps n n)
    (hassigns : ∀ n, R.target n → ((K.contract S P).likeness R).Assigns n n) :
    (K.contract S P).Closed R :=
  closed_placed hscope hbody hstray (fun c _ hc _ => hfault c _ hc) hdepth
    (fun e he _ => hnote e he) hstarves hrunnable hsteps hassigns

end Storing

end Treewalk
