import Treewalk.Proofs.Balance
import Treewalk.Proofs.Bodies
import Treewalk.Proofs.Reach

/-!
# What evaluation may write to

An evaluation writes to the environment that it stands in, and to method tables. Of the
environments that were there, it gives new names to that one only, and new values to it and its
ancestors; calls and class bodies stand in environments of their own. Of the classes and modules
that were there, it changes only those on a line of superclasses that starts in the current scope
or in a constant, and none that is frozen: `evaluation_footprint`.

The current scope of a body that is called is the one its method was defined in. A table may hold a
method that was defined in another scope, since aliases are copied down from superclasses. But they
come from nowhere else, so the scope a method was defined in is always on the line of the scope
that has it: `Scopes.Built.owned`. Evaluation does not have to keep that up, for the lines are all
there from the start.
-/

set_option autoImplicit false

namespace Treewalk

/-! ## Writing to environments -/

/-- What may have been written from an environment: it may have new names and new values, its
ancestors may have new values, and there may be new environments. -/
structure Environments.WrittenFrom (e : EnvId) (s s' : Environments) : Prop where
  size : s.size ≤ s'.size
  parent : ∀ i, s'.parent? i = s.parent? i
  elsewhere : ∀ i < s.size, i ∉ s.chain e → s'.value? i = s.value? i
  ancestors : ∀ i < s.size, i ≠ e → s'.localNames i = s.localNames i
  names : ∀ i < s.size, s.localNames i <+: s'.localNames i

namespace Environments

variable {s s' s'' : Environments} {e : EnvId}

theorem localNames_eq_of_value? {i : EnvId} (h : s'.value? i = s.value? i) :
    s'.localNames i = s.localNames i := by
  rw [localNames, localNames, bindings, bindings, h]

/-- Where a name is bound in the end is on the line, and it is bound there already or it is bound
where the line starts. -/
theorem owner_cases (s : Environments) (e : EnvId) (name : String) :
    (s.owner? e name).getD e = e ∨
      (s.owner? e name).getD e ∈ s.chain e ∧
        name ∈ s.localNames ((s.owner? e name).getD e) := by
  cases howner : s.owner? e name with
  | none => exact .inl rfl
  | some i =>
    refine .inr ⟨List.mem_of_find?_eq_some howner, ?_⟩
    have hname : (s.bindings i).contains name = true :=
      List.find?_some (p := fun i => (s.bindings i).contains name) howner
    exact Table.contains_iff_mem_keys.mp hname

theorem localNames_update (s : Environments) (i j : EnvId) (name : String) (v : Value) :
    localNames (s.update i (·.set name v)) j = s.localNames j ∨
      i = j ∧ name ∉ s.localNames j ∧
        localNames (s.update i (·.set name v)) j = s.localNames j ++ [name] := by
  unfold localNames bindings
  rw [Lineage.value?_update]
  by_cases hij : i = j
  · rw [if_pos hij]
    cases s.value? j with
    | none => exact .inl rfl
    | some t =>
      simp only [Option.map_some, Option.getD_some, Table.keys_set]
      by_cases hname : name ∈ t.keys
      · rw [if_pos hname]
        exact .inl rfl
      · rw [if_neg hname]
        exact .inr ⟨hij, hname, rfl⟩
  · rw [if_neg hij]
    exact .inl rfl

namespace WrittenFrom

/-- Where every environment that was there is what it was, nothing was written from anywhere. -/
theorem of_kept (hsize : s.size ≤ s'.size) (hparent : ∀ i, s'.parent? i = s.parent? i)
    (hvalue : ∀ i < s.size, s'.value? i = s.value? i) : WrittenFrom e s s' where
  size := hsize
  parent := hparent
  elsewhere i hi _ := hvalue i hi
  ancestors i hi _ := localNames_eq_of_value? (hvalue i hi)
  names i hi := (localNames_eq_of_value? (hvalue i hi)).symm ▸ List.prefix_rfl

theorem refl : WrittenFrom e s s :=
  of_kept (Nat.le_refl _) (fun _ => rfl) fun _ _ => rfl

theorem trans (h : WrittenFrom e s s') (h' : WrittenFrom e s' s'') : WrittenFrom e s s'' where
  size := Nat.le_trans h.size h'.size
  parent i := (h'.parent i).trans (h.parent i)
  elsewhere i hi hline := by
    have hi' := Nat.lt_of_lt_of_le hi h.size
    have hchain : s'.chain e = s.chain e := Lineage.chain_congr h.parent e
    exact (h'.elsewhere i hi' (hchain ▸ hline)).trans (h.elsewhere i hi hline)
  ancestors i hi hne :=
    (h'.ancestors i (Nat.lt_of_lt_of_le hi h.size) hne).trans (h.ancestors i hi hne)
  names i hi := (h.names i hi).trans (h'.names i (Nat.lt_of_lt_of_le hi h.size))

/-- A name that is not bound yet is bound where evaluation stands. -/
theorem assign (s : Environments) (e : EnvId) (name : String) (v : Value) :
    WrittenFrom e s (s.assign e name v) where
  size := Nat.le_of_eq (Lineage.size_update ..).symm
  parent := Lineage.parent?_update _ _ _
  elsewhere i _ hline := by
    rw [Environments.assign, Lineage.value?_update, if_neg]
    rintro rfl
    rcases owner_cases s e name with h | h
    · rw [h] at hline
      exact hline (s.mem_chain_self e)
    · exact hline h.1
  ancestors i _ hne := by
    rcases localNames_update s ((s.owner? e name).getD e) i name v with h | ⟨rfl, hnew, -⟩
    · exact h
    · rcases owner_cases s e name with h | h
      · exact absurd h hne
      · exact absurd h.2 hnew
  names i _ := by
    rcases localNames_update s ((s.owner? e name).getD e) i name v with h | ⟨-, -, h⟩
    · have hsame : (s.assign e name v).localNames i = s.localNames i := h
      exact hsame ▸ List.prefix_rfl
    · rw [Environments.assign, h]
      exact List.prefix_append ..

/-- What is written from a new environment without parent is written to none that was there. -/
theorem leave {bindings : Table Value}
    (h : WrittenFrom s.size (s.add none bindings) s') : WrittenFrom e s s' := by
  have hsize : (s.add none bindings).size = s.size + 1 := Lineage.size_add ..
  have hroot : ∀ i, (s.add none bindings).parent? i = s.parent? i := by
    intro i
    rw [Lineage.parent?_add]
    split
    · next hi => exact (s.parent?_eq_none (Nat.le_of_eq hi.symm)).symm
    · rfl
  refine of_kept ?_ (fun i => (h.parent i).trans (hroot i)) fun i hi => ?_
  · have := h.size
    omega
  · have hline : i ∉ (s.add none bindings).chain s.size := by
      rw [Lineage.chain_of_root ((hroot _).trans (s.parent?_eq_none (Nat.le_refl _)))]
      exact fun hmem => Nat.ne_of_lt hi (List.mem_singleton.mp hmem)
    rw [h.elsewhere i (by omega) hline, Lineage.value?_add, if_neg (Nat.ne_of_lt hi)]

/-- A name that is bound stays bound. -/
theorem has (h : WrittenFrom e s s') {i : EnvId} (hi : i < s.size) {name : String}
    (hbound : s.has i name = true) : s'.has i name = true := by
  rw [Environments.has, owner?, List.find?_isSome] at hbound ⊢
  obtain ⟨j, hj, hname⟩ := hbound
  have hchain : s'.chain i = s.chain i := Lineage.chain_congr h.parent i
  have hj' : j < s.size :=
    s.forall_mem_chain (P := (· < s.size)) (fun _ p hlt hp => Nat.lt_trans (s.older _ p hp) hlt)
      hi j hj
  refine ⟨j, hchain ▸ hj, Table.contains_iff_mem_keys.mpr ?_⟩
  exact (h.names j hj').subset (Table.contains_iff_mem_keys.mp hname)

end WrittenFrom

end Environments

/-! ## Writing to method tables -/

/-- Scopes of a set may have been written to unless they are frozen, and there may be new ones. -/
structure Scopes.WrittenWithin (T : ScopeId → Prop) (s s' : Scopes) : Prop where
  size : s.size ≤ s'.size
  parent : ∀ i, s'.parent? i = s.parent? i
  frozen : ∀ i, s'.isFrozen i = s.isFrozen i
  elsewhere : ∀ i < s.size, s'.value? i ≠ s.value? i → T i ∧ s.isFrozen i = false

namespace Scopes.WrittenWithin

variable {T : ScopeId → Prop} {s s' s'' : Scopes} {i : ScopeId} {name : String}

theorem refl : WrittenWithin T s s :=
  ⟨Nat.le_refl _, fun _ => rfl, fun _ => rfl, fun _ _ h => absurd rfl h⟩

theorem trans (h : WrittenWithin T s s') (h' : WrittenWithin T s' s'') :
    WrittenWithin T s s'' where
  size := Nat.le_trans h.size h'.size
  parent i := (h'.parent i).trans (h.parent i)
  frozen i := (h'.frozen i).trans (h.frozen i)
  elsewhere i hi hne := by
    by_cases hkept : s'.value? i = s.value? i
    · rw [← h.frozen i]
      exact h'.elsewhere i (Nat.lt_of_lt_of_le hi h.size) (hkept ▸ hne)
    · exact h.elsewhere i hi hkept

/-- Only the scopes that were there count. -/
theorem imp {T' : ScopeId → Prop} (h : WrittenWithin T s s') (hT : ∀ i < s.size, T i → T' i) :
    WrittenWithin T' s s' :=
  { h with elsewhere := fun i hi hne => (h.elsewhere i hi hne).imp_left (hT i hi) }

theorem setSlot (hi : T i) (hopen : s.isFrozen i = false) (slot : Slot) :
    WrittenWithin T s (s.setSlot i name slot) where
  size := Nat.le_of_eq (Scopes.size_setSlot ..).symm
  parent _ := Scopes.parent?_setSlot
  frozen _ := Scopes.isFrozen_setSlot
  elsewhere j _ hne := by
    by_cases hij : i = j
    · exact hij ▸ ⟨hi, hopen⟩
    · rw [Scopes.setSlot, Lineage.value?_update, if_neg hij] at hne
      exact absurd rfl hne

theorem define (hi : T i) {params : List String} {body : Option Node}
    (h : s.define i name params body = .ok s') : WrittenWithin T s s' := by
  rw [Scopes.eq_of_define h]
  exact setSlot hi (Scopes.not_isFrozen_of_whenOpen h) _

theorem undef (hi : T i) (h : s.undef i name = .ok s') : WrittenWithin T s s' := by
  rw [Scopes.eq_of_undef h]
  exact setSlot hi (Scopes.not_isFrozen_of_whenOpen h) _

theorem addAlias (hi : T i) {newName oldName : String}
    (h : s.addAlias i newName oldName = .ok s') : WrittenWithin T s s' := by
  obtain ⟨method, -, rfl⟩ := Scopes.eq_of_addAlias h
  exact setSlot hi (Scopes.not_isFrozen_of_whenOpen h) _

theorem create (s : Scopes) (called : ScopeName) : WrittenWithin T s (s.create called none) where
  size := by
    rw [Scopes.create, Lineage.size_add]
    exact Nat.le_succ _
  parent i := by
    rw [Scopes.create, Lineage.parent?_add]
    split
    · next hi => exact (s.parent?_eq_none (Nat.le_of_eq hi.symm)).symm
    · rfl
  frozen _ := Scopes.isFrozen_create
  elsewhere i hi hne := by
    rw [Scopes.create, Lineage.value?_add, if_neg (Nat.ne_of_lt hi)] at hne
    exact absurd rfl hne

end Scopes.WrittenWithin

/-! ## The contract -/

/-- What an evaluation may have made of a machine, if it gets at a given set of scopes. -/
structure Machine.Footprint (T : ScopeId → Prop) (m m' : Machine) : Prop where
  frame : m.context.SameFrame m'.context
  constants : m.context.constants.entries <+: m'.context.constants.entries
  environments : m.heap.environments.WrittenFrom m.context.environment m'.heap.environments
  scopes : m.heap.scopes.WrittenWithin T m'.heap.scopes

namespace Machine.Footprint

variable {T : ScopeId → Prop} {m m' m'' : Machine}

theorem refl : m.Footprint T m := ⟨.refl _, List.prefix_rfl, .refl, .refl⟩

theorem trans (h : m.Footprint T m') (h' : m'.Footprint T m'') : m.Footprint T m'' where
  frame := h.frame.trans h'.frame
  constants := h.constants.trans h'.constants
  environments := by
    have hwritten := h'.environments
    rw [h.frame.environment] at hwritten
    exact h.environments.trans hwritten
  scopes := h.scopes.trans h'.scopes

end Machine.Footprint

/-- The set holds the current scope and all constants, and nothing leads out of it. The scopes that
are open further out do not come into it. -/
def footprint (T : ScopeId → Prop) : Contract where
  inv m := Within T (fun _ => True) m.context.currentScope?.toList m.context.constants m.heap.scopes
  change := Machine.Footprint T
  error _ := True
  signal _ := True
  starves := True
  refl _ := .refl
  trans := .trans

section

variable {T : ScopeId → Prop}

/-- Another current scope, in the same or other scopes and constants. -/
theorem Within.current {P : Node → Prop} {opened opened' : List ScopeId}
    {constants constants' : Table ScopeId} {scopes scopes' : Scopes}
    (h : Within T P opened constants scopes) (h' : Within T P opened' constants' scopes') :
    Within T P opened constants' scopes' :=
  { h' with opened := h.opened }

theorem footprint_record {m : Machine} (hm : (footprint T).inv m)
    (entry : Context → Heap → Event) : (footprint T).Step m (m.record entry) :=
  ⟨hm, .refl _, List.prefix_rfl, .refl, .refl⟩

theorem footprint_closed : (footprint T).Closed (.inScopes T) where
  fault _ _ _ _ := trivial
  stray _ _ := trivial
  currentScope hm hs := hm.opened _ (Option.mem_toList.mpr hs)
  constant hm hs := hm.constant _ _ hs
  method hm hs hf := hm.found hs hf
  startAssigning _ hm := footprint_record hm _
  endAssigning _ _ hm := footprint_record hm _
  assignLocal name v hm := ⟨hm, .refl _, List.prefix_rfl, .assign .., .refl⟩
  define hm hs _ h :=
    ⟨hm.define hs (fun _ _ => trivial) h, .refl _, List.prefix_rfl, .refl, .define hs h⟩
  undef hm hs h := ⟨hm.undef h, .refl _, List.prefix_rfl, .refl, .undef hs h⟩
  addAlias hm hs h := ⟨hm.addAlias hs h, .refl _, List.prefix_rfl, .refl, .addAlias hs h⟩
  warn {m s} name l hm _ := by
    obtain ⟨warnings, hw⟩ := Context.exists_warn_eq m.context _ l
    rw [hw]
    exact ⟨hm, ⟨rfl, rfl, rfl⟩, List.prefix_rfl, .refl, .refl⟩
  create {m name} sort hm hnone := by
    refine ⟨hm.unborn _ (Nat.le_refl _), hm.create ⟨sort, name⟩ name, ⟨rfl, rfl, rfl⟩, ?_, .refl,
      .create ..⟩
    rw [Table.entries_set_of_get?_eq_none hnone]
    exact List.prefix_append ..
  openScope hm hs :=
    { hm with opened := fun i hi => by cases List.mem_singleton.mp hi; exact hs }
  closeScope {m m' s} hm _ h := by
    have hframe := h.change.frame.closeScope
    refine ⟨?_, hframe, h.change.constants, h.change.environments, h.change.scopes⟩
    show Within T _ m'.context.closeScope.currentScope?.toList m'.context.constants m'.heap.scopes
    rw [Context.currentScope?, hframe.scopes]
    exact hm.current h.inv
  enterEnvironment _ hm := hm
  leaveEnvironment _ _ h :=
    ⟨h.inv, h.change.frame.leaveEnvironment, h.change.constants, h.change.environments.leave,
      h.change.scopes⟩
  steps n _ := Contract.steps_inScopes T (fun _ => trivial) (fun _ => trivial) n
  assigns n _ := Contract.assigns_inScopes T (fun _ => trivial) n
  runnable _ _ := trivial
  starves := trivial
  startEvaluating _ hm := footprint_record hm _
  endEvaluating _ _ hm := footprint_record hm _
  enterCall hm _ := hm
  leaveCall _ h :=
    ⟨h.inv, h.change.frame.leave, h.change.constants, h.change.environments, h.change.scopes⟩

end

/-! ## Where methods were defined -/

namespace Scopes

/-- Every method that a scope has was defined in it or in one of its superclasses. -/
def Owned (s : Scopes) : Prop :=
  ∀ i name method, s.slot? i name = some (.defined method) → method.owner ∈ s.chain i

/-- Scopes that were made, changed and frozen by the operations on them, and whose bodies may have
been changed meanwhile. -/
inductive Built : Scopes → Prop
  | empty : Built .empty
  | create {s : Scopes} (called : ScopeName) (superclass : Option ScopeId) :
      Built s → Built (s.create called superclass)
  | define {s s' : Scopes} {i : ScopeId} {name : String} {params : List String}
      {body : Option Node} : Built s → s.define i name params body = .ok s' → Built s'
  | undef {s s' : Scopes} {i : ScopeId} {name : String} :
      Built s → s.undef i name = .ok s' → Built s'
  | addAlias {s s' : Scopes} {i : ScopeId} {newName oldName : String} :
      Built s → s.addAlias i newName oldName = .ok s' → Built s'
  | freeze {s : Scopes} (i : ScopeId) : Built s → Built (s.freeze i)
  | mapBodies {s : Scopes} (f : Node → Node) : Built s → Built (s.mapBodies f)

variable {s : Scopes}

theorem Owned.found (h : s.Owned) {i : ScopeId} {name : String} {method : Method}
    (hf : s.find? i name = some method) : method.owner ∈ s.chain i := by
  obtain ⟨j, hj, hslot⟩ := exists_slot_of_find? hf
  exact Lineage.mem_chain_trans hj (h j name method hslot)

theorem Owned.setSlot (h : s.Owned) {i : ScopeId} {name : String} {slot : Slot}
    (hslot : ∀ method, slot = .defined method → method.owner ∈ s.chain i) :
    (s.setSlot i name slot).Owned := by
  intro j n method hm
  have hchain : (s.setSlot i name slot).chain j = s.chain j := Lineage.chain_update ..
  rw [hchain]
  rcases slot?_setSlot_cases hm with ⟨rfl, -, hset⟩ | hold
  · exact hslot method hset.symm
  · exact h j n method hold

/-- Induction on how the scopes were built. Definitions are owned by the scope itself, and an alias
is owned by what owns the method it was copied from. -/
theorem Built.owned (h : s.Built) : s.Owned := by
  induction h with
  | empty =>
    intro i name method hm
    have hnone : slot? .empty i name = none := slot?_eq_none (Nat.zero_le i)
    rw [hnone] at hm
    exact absurd hm (by simp)
  | @create s called superclass _ ih =>
    intro i name method hm
    rw [slot?_create] at hm
    have hi : i < s.size := by
      refine Nat.lt_of_not_le fun hge => ?_
      rw [slot?_eq_none hge] at hm
      exact absurd hm (by simp)
    rw [Scopes.create, Lineage.chain_add _ _ _ hi]
    exact ih i name method hm
  | @define s s' i name params body _ hdef ih =>
    rw [eq_of_define hdef]
    refine ih.setSlot fun method hmethod => ?_
    cases hmethod
    exact s.mem_chain_self i
  | undef _ hundef ih =>
    rw [eq_of_undef hundef]
    exact ih.setSlot fun method hmethod => absurd hmethod (by simp)
  | addAlias _ halias ih =>
    obtain ⟨old, hold, rfl⟩ := eq_of_addAlias halias
    refine ih.setSlot fun method hmethod => ?_
    cases hmethod
    have howner := ih.found hold
    exact howner
  | @freeze s i _ ih =>
    intro j name method hm
    have hchain : (s.freeze i).chain j = s.chain j := Lineage.chain_update ..
    rw [slot?_freeze] at hm
    rw [hchain]
    exact ih j name method hm
  | @mapBodies s f _ ih =>
    intro i name method hm
    rw [slot?_mapBodies] at hm
    obtain ⟨slot, hslot, hmethod⟩ := Option.map_eq_some_iff.mp hm
    have hchain : (s.mapBodies f).chain i = s.chain i := Lineage.chain_map ..
    rw [hchain]
    cases slot with
    | undefined => exact absurd hmethod (by simp [Slot.mapBody])
    | defined old =>
      cases hmethod
      have howner := ih i name old hslot
      exact howner

end Scopes

/-! ## Whole evaluations -/

/-- The scopes on a line of superclasses that starts in the current scope or in a constant. -/
def Machine.OnLine (m : Machine) (i : ScopeId) : Prop :=
  ∃ s, (m.context.currentScope? = some s ∨ ∃ name, m.context.constants.get? name = some s) ∧
    i ∈ m.heap.scopes.chain s

/-- The lines hold the scopes that their methods were defined in. -/
theorem within_onLine {m : Machine} (h : m.heap.scopes.Owned) :
    Within (fun i => m.OnLine i ∨ m.heap.scopes.size ≤ i) (fun _ => True)
      m.context.currentScope?.toList m.context.constants m.heap.scopes where
  unborn i hi := .inr hi
  opened s hs := .inl ⟨s, .inl (Option.mem_toList.mp hs), Lineage.mem_chain_self _ s⟩
  constant name s hs := .inl ⟨s, .inr ⟨name, hs⟩, Lineage.mem_chain_self _ s⟩
  superclass i p hi hp := by
    rcases hi with ⟨s, hs, hline⟩ | hi
    · have hparent := Lineage.mem_chain_of_parent? hp (Lineage.mem_chain_self _ p)
      exact .inl ⟨s, hs, Lineage.mem_chain_trans hline hparent⟩
    · rw [Lineage.parent?_eq_none _ hi] at hp
      exact absurd hp (by simp)
  method i name method hi hm := by
    refine ⟨?_, fun _ _ => trivial⟩
    rcases hi with ⟨s, hs, hline⟩ | hi
    · exact .inl ⟨s, hs, Lineage.mem_chain_trans hline (h i name method hm)⟩
    · rw [Scopes.slot?_eq_none hi] at hm
      exact absurd hm (by simp)

/-- **What an evaluation may have written to**, however it ended. Environments that were there are
what they were, but for the one that it stood in, and for the values of its ancestors; no name was
taken away. Classes and modules that were there are what they were, but for methods of those that
are not frozen and stand on a line from the current scope or a constant. Constants are added at
most. -/
theorem evaluation_footprint {m : Machine} (h : m.heap.scopes.Built) (fuel : Nat) (n : Node) :
    let m' := (evaluate fuel n m).2
    m.heap.environments.WrittenFrom m.context.environment m'.heap.environments ∧
      (∀ i < m.heap.environments.size, ∀ name, m.heap.environments.has i name = true →
        m'.heap.environments.has i name = true) ∧
      m.heap.scopes.WrittenWithin m.OnLine m'.heap.scopes ∧
      m.context.constants.entries <+: m'.context.constants.entries := by
  intro m'
  have hC := footprint_closed (T := fun i => m.OnLine i ∨ m.heap.scopes.size ≤ i)
  have hchange := (hC.evaluate fuel (n := n) trivial m (within_onLine h.owned)).1.change
  have henvironments := hchange.environments
  refine ⟨henvironments, fun i hi name => henvironments.has hi, ?_, hchange.constants⟩
  exact hchange.scopes.imp fun i hi hwithin => hwithin.resolve_right (Nat.not_le_of_lt hi)

/-- A class `A`, a class `B` below it and a module `M`. -/
def threeScopes : Scopes :=
  ((Scopes.create .empty ⟨.klass, "A"⟩ none).create ⟨.klass, "B"⟩ (some 0)).create
    ⟨.module, "M"⟩ none

/-- The same, with a method `f` in `A` that defines another one. -/
def definingScopes : Scopes :=
  threeScopes.setSlot 0 "f" (.defined ⟨"f", [], some (.define .sample "g" ⟨.sample, []⟩ none), 0⟩)

/-- Copies `f` down into the open class, under another name, and calls it. -/
def copiedDown : Node :=
  .block .sample
    [.aliasName .sample (.symbol .sample "h") (.symbol .sample "f"), .call .sample "h" []]

/-- The call defines a method in the superclass. The module is out of reach. -/
theorem copiedDown_footprint :
    let m : Machine := ⟨(Context.initial .default 0).openScope 1,
      ⟨Lineage.empty.add none .empty, definingScopes⟩, none⟩
    let m' := (evaluate 9 copiedDown m).2
    m.heap.scopes.Built ∧ (m.heap.scopes.find? 0 "g").isSome = false ∧
      (m'.heap.scopes.find? 0 "g").isSome = true ∧
      m'.heap.scopes.value? 2 = m.heap.scopes.value? 2 := by
  intro m m'
  have hdef : threeScopes.define 0 "f" [] (some (.define .sample "g" ⟨.sample, []⟩ none)) =
      .ok definingScopes := rfl
  have hbuilt : m.heap.scopes.Built :=
    .define (.create _ none (.create _ (some 0) (.create _ none .empty))) hdef
  obtain ⟨-, -, hscopes, -⟩ := evaluation_footprint hbuilt 9 copiedDown
  refine ⟨hbuilt, by decide +kernel, by decide +kernel, ?_⟩
  by_contra hchanged
  obtain ⟨⟨s, hs, hline⟩, -⟩ := hscopes.elsewhere 2 (by decide) hchanged
  have hs : s = 1 := by
    rcases hs with hs | ⟨name, hs⟩
    · exact (Option.some.inj hs).symm
    · have hnone : m.context.constants.get? name = none := rfl
      rw [hnone] at hs
      exact absurd hs (by simp)
  subst hs
  exact absurd hline (by decide +kernel)

end Treewalk
