import Mathlib.Data.List.Basic
import Treewalk.Store.Scopes

/-!
# What changes of method tables do

A change that succeeds sets one slot and leaves every line of superclasses as it is. What a name
resolves to is the contents of a slot on that line. A change fails on a frozen scope, or for want
of a method.
-/

set_option autoImplicit false

namespace Treewalk.Scopes

variable {s s' : Scopes} {m i : ScopeId} {name n : String} {slot found : Slot}

/-- Setting a slot changes that slot of that scope and no other. -/
theorem slot?_setSlot (hm : m < s.size) :
    (s.setSlot m name slot).slot? i n = if i = m ∧ n = name then some slot else s.slot? i n := by
  obtain ⟨scope, hscope⟩ := Lineage.exists_value? hm
  unfold slot? setSlot
  rw [Lineage.value?_update]
  by_cases hi : m = i
  · subst hi
    simp [hscope, Table.get?_set]
  · have hne : ¬(i = m ∧ n = name) := fun h => hi h.1.symm
    simp [hi, hne]

/-- A slot of the changed scopes is the one that was set, or was there before. -/
theorem slot?_setSlot_cases (h : (s.setSlot m name slot).slot? i n = some found) :
    (i = m ∧ n = name ∧ found = slot) ∨ s.slot? i n = some found := by
  unfold slot? setSlot at h
  rw [Lineage.value?_update] at h
  split at h
  · next e =>
    subst e
    rw [Option.bind_map] at h
    cases hv : s.value? m with
    | none => rw [hv] at h; exact absurd h (by simp)
    | some scope =>
      rw [hv] at h
      simp only [Option.bind_some, Function.comp_apply, Table.get?_set] at h
      split at h
      · next hn =>
        cases h
        exact .inl ⟨rfl, hn, rfl⟩
      · refine .inr ?_
        rw [slot?, hv]
        exact h
  · exact .inr h

/-- Superclasses are fixed when a scope is created. -/
@[simp] theorem parent?_setSlot : (s.setSlot m name slot).parent? i = s.parent? i :=
  Lineage.parent?_update ..

@[simp] theorem size_setSlot : (s.setSlot m name slot).size = s.size := Lineage.size_update ..

@[simp] theorem isFrozen_setSlot : (s.setSlot m name slot).isFrozen i = s.isFrozen i := by
  unfold isFrozen setSlot
  rw [Lineage.value?_update]
  split
  · rw [Option.map_map]
    rfl
  · rfl

@[simp] theorem called_setSlot : (s.setSlot m name slot).called i = s.called i := by
  unfold called setSlot
  rw [Lineage.value?_update]
  split
  · rw [Option.map_map]
    rfl
  · rfl

/-- A scope starts open. -/
theorem isFrozen_create {called : ScopeName} {superclass : Option ScopeId} :
    (s.create called superclass).isFrozen i = s.isFrozen i := by
  unfold isFrozen create
  rw [Lineage.value?_add]
  split
  · next h =>
    subst h
    rw [Lineage.value?_eq_none s (Nat.le_refl _)]
    rfl
  · rfl

/-- A scope starts without slots of its own. -/
theorem slot?_create {called : ScopeName} {superclass : Option ScopeId} :
    (s.create called superclass).slot? i n = s.slot? i n := by
  unfold slot? create
  rw [Lineage.value?_add]
  split
  · next h =>
    subst h
    rw [Lineage.value?_eq_none s (Nat.le_refl _)]
    rfl
  · rfl

@[simp] theorem size_create {called : ScopeName} {superclass : Option ScopeId} :
    (s.create called superclass).size = s.size + 1 := Lineage.size_add ..

theorem called_create {c : ScopeName} {superclass : Option ScopeId} :
    (s.create c superclass).called i = if i = s.size then c else s.called i := by
  unfold called create
  rw [Lineage.value?_add]
  split
  · rfl
  · rfl

/-- Freezing a scope keeps what it holds. -/
theorem slot?_freeze : (s.freeze m).slot? i n = s.slot? i n := by
  unfold slot? freeze
  rw [Lineage.value?_update]
  split
  · rw [Option.bind_map]
    rfl
  · rfl

/-- Nothing thaws: what was frozen stays so, and the scope named joins it. -/
theorem isFrozen_freeze (hm : m < s.size) :
    (s.freeze m).isFrozen i = true ↔ i = m ∨ s.isFrozen i = true := by
  obtain ⟨scope, hscope⟩ := Lineage.exists_value? hm
  unfold isFrozen freeze
  rw [Lineage.value?_update]
  by_cases hi : m = i
  · subst hi
    simp [hscope]
  · have hne : ¬i = m := fun h => hi h.symm
    simp [hi, hne]

theorem slot?_eq_none (h : s.size ≤ i) : s.slot? i n = none := by
  rw [slot?, Lineage.value?_eq_none s h]
  rfl

/-- What a name resolves to stands in a slot on the line of superclasses. -/
theorem exists_slot_of_find? {method : Method} (h : s.find? m name = some method) :
    ∃ i ∈ s.chain m, s.slot? i name = some (.defined method) := by
  unfold find? at h
  obtain ⟨slot, hslot, hmethod⟩ := Option.bind_eq_some_iff.mp h
  obtain ⟨i, hi, hs⟩ := List.exists_of_findSome?_eq_some hslot
  cases slot with
  | undefined => exact absurd hmethod (by simp [Slot.method?])
  | defined found =>
    cases hmethod
    exact ⟨i, hi, hs⟩

/-! ## The names of a table -/

/-- The names that a scope has slots for, those that hide a method included, in the order in which
they came. -/
def tableNames (s : Scopes) (i : ScopeId) : List String :=
  ((s.value? i).map fun scope => scope.methods.keys).getD []

/-- The names of a scope's own methods are those of its slots that hold one. -/
theorem ownMethodNames_eq (s : Scopes) (i : ScopeId) :
    s.ownMethodNames i =
      (s.tableNames i).filter fun name => ((s.slot? i name).bind Slot.method?).isSome := by
  unfold ownMethodNames tableNames slot?
  cases s.value? i with
  | none => rfl
  | some scope =>
    dsimp only [Option.map_some, Option.getD_some, Option.bind_some]
    rw [Table.keys, List.filter_map, ← List.filterMap_eq_map, ← List.filterMap_eq_filter,
      List.filterMap_filterMap]
    apply List.filterMap_congr
    intro e he
    have hslot : scope.methods.get? e.1 = some e.2 := Table.get?_eq_some_iff.mpr he
    cases hmethod : e.2.method? <;> simp [Option.guard, hslot, hmethod]

/-- A slot that is set again keeps its place, and a new one comes last. -/
theorem tableNames_setSlot (hm : m < s.size) :
    (s.setSlot m name slot).tableNames i =
      if i = m ∧ name ∉ s.tableNames i then s.tableNames i ++ [name] else s.tableNames i := by
  obtain ⟨scope, hscope⟩ := Lineage.exists_value? hm
  unfold tableNames setSlot
  rw [Lineage.value?_update]
  by_cases hi : m = i
  · subst hi
    by_cases hname : name ∈ scope.methods.keys <;> simp [hscope, Table.keys_set, hname]
  · have hne : ¬(i = m ∧ name ∉ ((s.value? i).map fun scope => scope.methods.keys).getD []) :=
      fun h => hi h.1.symm
    rw [if_neg hi, if_neg hne]

/-- A new scope has no names, and an id without a scope had none before. -/
theorem tableNames_create {called : ScopeName} {superclass : Option ScopeId} :
    (s.create called superclass).tableNames i = s.tableNames i := by
  unfold tableNames create
  rw [Lineage.value?_add]
  split
  · next h =>
    subst h
    rw [Lineage.value?_eq_none s (Nat.le_refl _)]
    rfl
  · rfl

theorem tableNames_freeze : (s.freeze m).tableNames i = s.tableNames i := by
  unfold tableNames freeze
  rw [Lineage.value?_update]
  split
  · rw [Option.map_map]
    rfl
  · rfl

/-! ## Shape and contents -/

/-- The scopes are the same, but for what their slots hold. -/
structure SameShape (s s' : Scopes) : Prop where
  size : s'.size = s.size
  parent : ∀ i, s'.parent? i = s.parent? i
  called : ∀ i, s'.called i = s.called i
  frozen : ∀ i, s'.isFrozen i = s.isFrozen i
  names : ∀ i, s'.tableNames i = s.tableNames i

namespace SameShape

theorem refl (s : Scopes) : s.SameShape s :=
  ⟨rfl, fun _ => rfl, fun _ => rfl, fun _ => rfl, fun _ => rfl⟩

/-- Setting a slot that is there already. -/
theorem setSlot (h : s.SameShape s') (hm : m < s.size) (hname : name ∈ s.tableNames m) :
    s.SameShape (s'.setSlot m name slot) where
  size := size_setSlot.trans h.size
  parent i := parent?_setSlot.trans (h.parent i)
  called i := called_setSlot.trans (h.called i)
  frozen i := isFrozen_setSlot.trans (h.frozen i)
  names i := by
    have hthere : ¬(i = m ∧ name ∉ s'.tableNames i) := by
      rintro ⟨rfl, hnew⟩
      exact hnew (h.names i ▸ hname)
    rw [tableNames_setSlot (h.size ▸ hm), if_neg hthere, h.names]

/-- Shape and contents make the scopes: where the slots agree too, nothing differs. -/
theorem eq_of_slots (h : s.SameShape s') (hslot : ∀ i n, s'.slot? i n = s.slot? i n) :
    s' = s := by
  refine Lineage.eq_of_views h.parent fun i => ?_
  by_cases hi : i < s.size
  · obtain ⟨⟨c, methods, frozen⟩, hscope⟩ := Lineage.exists_value? hi
    obtain ⟨⟨c', methods', frozen'⟩, hscope'⟩ := Lineage.exists_value? (l := s') (h.size ▸ hi)
    have hcalled : c' = c := by simpa [Scopes.called, hscope, hscope'] using h.called i
    have hfrozen : frozen' = frozen := by simpa [isFrozen, hscope, hscope'] using h.frozen i
    have hkeys : methods'.keys = methods.keys := by
      simpa [tableNames, hscope, hscope'] using h.names i
    have hget : ∀ n, methods'.get? n = methods.get? n := by
      intro n
      simpa [slot?, hscope, hscope'] using hslot i n
    rw [hscope, hscope', hcalled, hfrozen, Table.eq_of_views hkeys hget]
  · have hge : s.size ≤ i := Nat.le_of_not_lt hi
    rw [Lineage.value?_eq_none s hge, Lineage.value?_eq_none s' (h.size ▸ hge)]

end SameShape

/-! ## Changes that succeed -/

/-- A change that goes through is the change that was meant. -/
theorem eq_of_whenOpen {change : Except Fault Scopes} (h : s.whenOpen m change = .ok s') :
    change = .ok s' := by
  unfold whenOpen at h
  split at h
  · exact absurd h (by simp)
  · exact h

/-- What is frozen does not change. -/
theorem not_isFrozen_of_whenOpen {change : Except Fault Scopes}
    (h : s.whenOpen m change = .ok s') : s.isFrozen m = false := by
  unfold whenOpen at h
  split at h
  · exact absurd h (by simp)
  · next hopen => exact Bool.eq_false_iff.mpr hopen

/-- The new method belongs to the scope it is defined in. -/
theorem eq_of_define {params : List String} {body : Option Node}
    (h : s.define m name params body = .ok s') :
    s' = s.setSlot m name (.defined ⟨name, params, body, m⟩) := by
  cases eq_of_whenOpen h
  rfl

/-- The name gets a slot that hides what a superclass has. -/
theorem eq_of_undef (h : s.undef m name = .ok s') : s' = s.setSlot m name .undefined := by
  have h := eq_of_whenOpen h
  split at h
  · exact absurd h (by simp)
  · cases h
    rfl

/-- The copy stands in the aliasing scope under its new name, but belongs where the method does. -/
theorem eq_of_addAlias {newName oldName : String} (h : s.addAlias m newName oldName = .ok s') :
    ∃ method, s.find? m oldName = some method ∧
      s' = s.setSlot m newName (.defined { method with name := newName }) := by
  have h := eq_of_whenOpen h
  split at h
  · exact absurd h (by simp)
  · next method hm =>
    cases h
    exact ⟨method, hm, rfl⟩

/-! ## Changes that fail -/

variable {c : Fault}

/-- A frozen scope refuses before anything else is looked at. -/
theorem whenOpen_eq_error_iff {change : Except Fault Scopes} :
    s.whenOpen m change = .error c ↔
      (s.isFrozen m = true ∧ c = .frozen (s.called m)) ∨
        (s.isFrozen m = false ∧ change = .error c) := by
  unfold whenOpen
  cases s.isFrozen m <;> simp [eq_comm]

theorem error_of_whenOpen {change : Except Fault Scopes} (h : s.whenOpen m change = .error c) :
    c = .frozen (s.called m) ∨ change = .error c :=
  (whenOpen_eq_error_iff.mp h).imp And.right And.right

/-- Only freezing can stand in the way of a definition. -/
theorem error_of_define {params : List String} {body : Option Node}
    (h : s.define m name params body = .error c) : c = .frozen (s.called m) := by
  rcases error_of_whenOpen h with h | h
  · exact h
  · exact absurd h (by simp)

/-- What is undefined must be there to be found, if only in a superclass. -/
theorem error_of_undef (h : s.undef m name = .error c) :
    c = .frozen (s.called m) ∨ c = .undefinedMethod name (s.called m) := by
  rcases error_of_whenOpen h with h | h
  · exact .inl h
  · split at h
    · cases h
      exact .inr rfl
    · exact absurd h (by simp)

theorem error_of_addAlias {newName oldName : String}
    (h : s.addAlias m newName oldName = .error c) :
    c = .frozen (s.called m) ∨ c = .undefinedMethod oldName (s.called m) := by
  rcases error_of_whenOpen h with h | h
  · exact .inl h
  · split at h
    · cases h
      exact .inr rfl
    · exact absurd h (by simp)

end Treewalk.Scopes
