import Mathlib.Data.List.Induction
import Treewalk.Eval.Basic
import Treewalk.Proofs.Footprint

/-!
# The last call on the nearest scope

Whatever calls are made on new scopes, and whichever of them fail, what a name resolves to is
decided by the nearest scope on the line of superclasses on which a call that targeted it
succeeded, and there by the last such call: `tables_lastWriteWins`. A definition gives a method of
that scope, and an alias a copy of what the old name resolved to at that moment, under the new
name. Undefining gives nothing, and so it hides what superclasses have.

The calls that succeeded are listed with the scopes that each of them found. That list says what
every table holds, and in which order.
-/

set_option autoImplicit false

namespace Treewalk

/-- A call on one scope that changes its table, or freezes it. -/
inductive TableCall where
  | define (scope : ScopeId) (name : String) (params : List String) (body : Option Node)
  | undef (scope : ScopeId) (name : String)
  | addAlias (scope : ScopeId) (newName oldName : String)
  | freeze (scope : ScopeId)

namespace TableCall

def scope : TableCall → ScopeId
  | .define i _ _ _ | .undef i _ | .addAlias i _ _ | .freeze i => i

/-- The name whose slot is set. -/
def target? : TableCall → Option String
  | .define _ name _ _ | .undef _ name | .addAlias _ name _ => some name
  | .freeze _ => none

def perform : TableCall → Scopes → Except Fault Scopes
  | .define i name params body, s => s.define i name params body
  | .undef i name, s => s.undef i name
  | .addAlias i newName oldName, s => s.addAlias i newName oldName
  | .freeze i, s => .ok (s.freeze i)

/-- What the targeted name then resolves to in the scope, if the call finds these scopes. -/
def result? : TableCall → Scopes → Option Method
  | .define i name params body, _ => some ⟨name, params, body, i⟩
  | .undef .., _ => none
  | .addAlias i newName oldName, s =>
    (s.find? i oldName).map fun method => { method with name := newName }
  | .freeze _, _ => none

def targets (c : TableCall) (i : ScopeId) (name : String) : Bool :=
  c.scope == i && c.target? == some name

def succeeds (c : TableCall) (s : Scopes) : Bool :=
  match c.perform s with
  | .ok _ => true
  | .error _ => false

/-- The scopes after a call, which are the same if it fails. -/
def leave (c : TableCall) (s : Scopes) : Scopes :=
  match c.perform s with
  | .ok s' => s'
  | .error _ => s

/-- Why a call fails: a frozen scope refuses every change, and there is no method to undefine or to
give another name. -/
inductive Refused (s : Scopes) : TableCall → Fault → Prop
  | frozen {c : TableCall} : c.target? ≠ none → s.isFrozen c.scope = true →
    Refused s c (.frozen (s.called c.scope))
  | undef {i : ScopeId} {name : String} : s.isFrozen i = false → s.find? i name = none →
    Refused s (.undef i name) (.undefinedMethod name (s.called i))
  | addAlias {i : ScopeId} {newName oldName : String} : s.isFrozen i = false →
    s.find? i oldName = none →
    Refused s (.addAlias i newName oldName) (.undefinedMethod oldName (s.called i))

end TableCall

namespace Scopes

/-- Scopes on which nothing was called yet. -/
def Fresh (s : Scopes) : Prop :=
  ∀ i scope, s.value? i = some scope → scope.methods = .empty ∧ scope.frozen = false

def after (s : Scopes) (calls : List TableCall) : Scopes := calls.foldl (fun s c => c.leave s) s

/-- The calls that succeed, each with the scopes that it finds. -/
def successes : Scopes → List TableCall → List (TableCall × Scopes)
  | _, [] => []
  | s, c :: calls => if c.succeeds s then (c, s) :: successes (c.leave s) calls
    else successes (c.leave s) calls

/-- The last of the calls that succeed and target a name in a scope. -/
def lastOn? (s : Scopes) (calls : List TableCall) (i : ScopeId) (name : String) :
    Option (TableCall × Scopes) :=
  ((s.successes calls).filter fun p => p.1.targets i name).getLast?

/-- What that call made of the name. -/
def lastResult? (s : Scopes) (calls : List TableCall) (i : ScopeId) (name : String) :
    Option Method :=
  (s.lastOn? calls i name).bind fun p => p.1.result? p.2

/-- The names targeted in a scope by the calls that succeed, in the order of these calls. -/
def targeted (s : Scopes) (calls : List TableCall) (i : ScopeId) : List String :=
  ((s.successes calls).filter fun p => p.1.scope == i).filterMap fun p => p.1.target?

/-- How the scopes that calls leave depend on the calls. -/
structure LastWriteWins (s : Scopes) (calls : List TableCall) : Prop where
  /-- The nearest scope with such a call decides, and there the last one. -/
  found : ∀ m name, (s.after calls).find? m name =
    ((s.chain m).findSome? fun i => s.lastOn? calls i name).bind fun p => p.1.result? p.2
  /-- A method goes by the name that it is found under, and was defined on the line. -/
  owned : ∀ m name method, (s.after calls).find? m name = some method →
    method.name = name ∧ method.owner ∈ s.chain m
  /-- A scope's own methods are listed in the order in which their names were first targeted. -/
  listed : ∀ i, (s.after calls).ownMethodNames i =
    (s.targeted calls i).eraseDups.filter fun name => (s.lastResult? calls i name).isSome
  frozen : ∀ i, (s.after calls).isFrozen i = true ↔ .freeze i ∈ calls
  refused : ∀ (c : TableCall) cause,
    c.perform (s.after calls) = .error cause ↔ c.Refused (s.after calls) cause
  /-- A call that fails leaves no trace. -/
  kept : ∀ (c : TableCall) cause, c.perform (s.after calls) = .error cause →
    s.after (calls ++ [c]) = s.after calls ∧
    ∀ (l : Option Location) (m : Machine), m.heap.scopes = s.after calls →
      Eval.changeScopes l c.perform m = (.error (.fault cause l), m)

end Scopes

/-! ## One call -/

namespace TableCall

variable {c : TableCall} {s s' : Scopes} {cause : Fault}

theorem targets_iff {name : String} (h : c.target? = some name) {i : ScopeId} {n : String} :
    c.targets i n = true ↔ i = c.scope ∧ n = name := by
  rw [targets, h, Bool.and_eq_true, beq_iff_eq, beq_iff_eq, Option.some.injEq]
  exact and_congr eq_comm eq_comm

theorem targets_eq_false (h : c.target? = none) (i : ScopeId) (n : String) :
    c.targets i n = false := by
  simp [targets, h]

theorem eq_freeze (h : c.target? = none) : c = .freeze c.scope := by
  cases c with
  | freeze i => rfl
  | define | undef | addAlias => exact absurd h (by simp [target?])

/-- The slot that the targeted name then has. -/
def slot (c : TableCall) (s : Scopes) : Slot :=
  match c.result? s with
  | some method => .defined method
  | none => .undefined

theorem method?_slot (c : TableCall) (s : Scopes) : (c.slot s).method? = c.result? s := by
  unfold slot
  cases c.result? s with
  | none | some method => rfl

/-- A call that succeeds sets one slot, or freezes its scope. -/
theorem perform_ok (h : c.perform s = .ok s') :
    (∃ name, c.target? = some name ∧ s' = s.setSlot c.scope name (c.slot s)) ∨
      (c.target? = none ∧ s' = s.freeze c.scope) := by
  cases c with
  | define i name params body => exact .inl ⟨name, rfl, Scopes.eq_of_define h⟩
  | undef i name => exact .inl ⟨name, rfl, Scopes.eq_of_undef h⟩
  | addAlias i newName oldName =>
    obtain ⟨method, hfound, hs'⟩ := Scopes.eq_of_addAlias h
    refine .inl ⟨newName, rfl, ?_⟩
    rw [hs', slot, result?, hfound]
    rfl
  | freeze i =>
    cases h
    exact .inr ⟨rfl, rfl⟩

/-- A call fails for these reasons and no others. -/
theorem perform_eq_error_iff : c.perform s = .error cause ↔ c.Refused s cause := by
  constructor
  · intro h
    cases c with
    | define i name params body =>
      rcases Scopes.whenOpen_eq_error_iff.mp h with ⟨hfrozen, rfl⟩ | ⟨-, h⟩
      · exact .frozen (by simp [target?]) hfrozen
      · exact absurd h (by simp)
    | undef i name =>
      rcases Scopes.whenOpen_eq_error_iff.mp h with ⟨hfrozen, rfl⟩ | ⟨hopen, h⟩
      · exact .frozen (by simp [target?]) hfrozen
      · cases hfound : s.find? i name with
        | none =>
          simp only [hfound, Except.error.injEq] at h
          subst h
          exact .undef hopen hfound
        | some method => simp [hfound] at h
    | addAlias i newName oldName =>
      rcases Scopes.whenOpen_eq_error_iff.mp h with ⟨hfrozen, rfl⟩ | ⟨hopen, h⟩
      · exact .frozen (by simp [target?]) hfrozen
      · cases hfound : s.find? i oldName with
        | none =>
          simp only [hfound, Except.error.injEq] at h
          subst h
          exact .addAlias hopen hfound
        | some method => simp [hfound] at h
    | freeze i => exact absurd h (by simp [perform])
  · intro h
    cases h with
    | frozen htarget hfrozen =>
      cases c with
      | define | undef | addAlias =>
        exact Scopes.whenOpen_eq_error_iff.mpr (.inl ⟨hfrozen, rfl⟩)
      | freeze i => exact absurd rfl htarget
    | undef hopen hfound =>
      exact Scopes.whenOpen_eq_error_iff.mpr (.inr ⟨hopen, by rw [hfound]⟩)
    | addAlias hopen hfound =>
      exact Scopes.whenOpen_eq_error_iff.mpr (.inr ⟨hopen, by rw [hfound]⟩)

/-- A method goes by the name that was targeted. -/
theorem name_of_result? {method : Method} (h : c.result? s = some method) :
    c.target? = some method.name := by
  cases c with
  | define i name params body =>
    cases h
    rfl
  | addAlias i newName oldName =>
    obtain ⟨found, -, rfl⟩ := Option.map_eq_some_iff.mp h
    rfl
  | undef | freeze => exact absurd h (by simp [result?])

theorem owner_of_result? (hs : s.Owned) {method : Method} (h : c.result? s = some method) :
    method.owner ∈ s.chain c.scope := by
  cases c with
  | define i name params body =>
    cases h
    exact s.mem_chain_self i
  | addAlias i newName oldName =>
    obtain ⟨found, hfound, rfl⟩ := Option.map_eq_some_iff.mp h
    have howner : found.owner ∈ s.chain i := hs.found hfound
    exact howner
  | undef | freeze => exact absurd h (by simp [result?])

theorem succeeds_cases (c : TableCall) (s : Scopes) :
    (c.succeeds s = true ∧ c.perform s = .ok (c.leave s)) ∨
      (c.succeeds s = false ∧ c.leave s = s) := by
  unfold succeeds leave
  cases c.perform s with
  | ok s' => exact .inl ⟨rfl, rfl⟩
  | error cause => exact .inr ⟨rfl, rfl⟩

/-- A call changes no line of superclasses. -/
theorem leave_lines (c : TableCall) (s : Scopes) :
    (c.leave s).size = s.size ∧ ∀ i, (c.leave s).chain i = s.chain i := by
  rcases c.succeeds_cases s with ⟨-, h⟩ | ⟨-, h⟩
  · rcases perform_ok h with ⟨name, -, hset⟩ | ⟨-, hset⟩
    · rw [hset]
      exact ⟨Lineage.size_update .., fun i => Lineage.chain_update ..⟩
    · rw [hset]
      exact ⟨Lineage.size_update .., fun i => Lineage.chain_update ..⟩
  · rw [h]
    exact ⟨rfl, fun _ => rfl⟩

end TableCall

/-! ## One call after the others -/

namespace Scopes

variable {s : Scopes} {calls : List TableCall}

theorem after_concat (s : Scopes) (calls : List TableCall) (c : TableCall) :
    s.after (calls ++ [c]) = c.leave (s.after calls) := by
  simp [after]

theorem successes_concat (s : Scopes) (calls : List TableCall) (c : TableCall) :
    s.successes (calls ++ [c]) =
      s.successes calls ++ if c.succeeds (s.after calls) then [(c, s.after calls)] else [] := by
  induction calls generalizing s with
  | nil => cases h : c.succeeds s <;> simp [successes, after, h]
  | cons d calls ih =>
    have hafter : s.after (d :: calls) = (d.leave s).after calls := rfl
    rw [List.cons_append, successes, successes, ih, hafter]
    cases d.succeeds s <;> simp

/-- A call that fails makes no difference to the calls that count. -/
theorem successes_concat_of_fails {c : TableCall} (h : c.succeeds (s.after calls) = false) :
    s.successes (calls ++ [c]) = s.successes calls := by
  simp [successes_concat, h]

theorem lastOn?_concat {c : TableCall} (h : c.succeeds (s.after calls) = true) (i : ScopeId)
    (name : String) :
    s.lastOn? (calls ++ [c]) i name =
      if c.targets i name then some (c, s.after calls) else s.lastOn? calls i name := by
  unfold lastOn?
  rw [successes_concat, if_pos h, List.filter_append]
  cases htargets : c.targets i name <;> simp [htargets]

theorem after_lines (s : Scopes) (calls : List TableCall) :
    (s.after calls).size = s.size ∧ ∀ i, (s.after calls).chain i = s.chain i := by
  induction calls using List.reverseRecOn with
  | nil => exact ⟨rfl, fun _ => rfl⟩
  | append_singleton calls c ih =>
    rw [after_concat]
    obtain ⟨hsize, hchain⟩ := c.leave_lines (s.after calls)
    exact ⟨hsize.trans ih.1, fun i => (hchain i).trans (ih.2 i)⟩

namespace Fresh

variable {i : ScopeId}

theorem slot?_eq_none (hs : s.Fresh) (name : String) : s.slot? i name = none := by
  unfold slot?
  cases h : s.value? i with
  | none => rfl
  | some scope =>
    rw [Option.bind_some, (hs i scope h).1]
    rfl

theorem tableNames_eq_nil (hs : s.Fresh) : s.tableNames i = [] := by
  unfold tableNames
  cases h : s.value? i with
  | none => rfl
  | some scope =>
    rw [Option.map_some, (hs i scope h).1]
    rfl

theorem isFrozen_eq_false (hs : s.Fresh) : s.isFrozen i = false := by
  unfold isFrozen
  cases h : s.value? i with
  | none => rfl
  | some scope =>
    rw [Option.map_some, (hs i scope h).2]
    rfl

end Fresh

theorem fresh_empty : Fresh .empty := by
  intro i scope h
  rw [Lineage.value?_eq_none _ (Nat.zero_le i)] at h
  exact absurd h (by simp)

/-- New classes and modules below others that are new. -/
theorem Fresh.create (hs : s.Fresh) (called : ScopeName) (superclass : Option ScopeId) :
    (s.create called superclass).Fresh := by
  intro i scope h
  rw [Scopes.create, Lineage.value?_add] at h
  split at h
  · cases h
    exact ⟨rfl, rfl⟩
  · exact hs i scope h

/-- Every slot is what the last call that counts made of it. -/
theorem slot?_after (hs : s.Fresh) (hcalls : ∀ c ∈ calls, c.scope < s.size) (i : ScopeId)
    (name : String) :
    (s.after calls).slot? i name = (s.lastOn? calls i name).map fun p => p.1.slot p.2 := by
  induction calls using List.reverseRecOn with
  | nil => exact hs.slot?_eq_none name
  | append_singleton calls c ih =>
    have hc : c.scope < (s.after calls).size := by
      rw [(after_lines s calls).1]
      exact hcalls c (by simp)
    have hslot := ih fun d hd => hcalls d (by simp [hd])
    rw [after_concat]
    rcases c.succeeds_cases (s.after calls) with ⟨hsucceeds, h⟩ | ⟨hfails, h⟩
    · rw [lastOn?_concat hsucceeds]
      rcases TableCall.perform_ok h with ⟨target, htarget, hset⟩ | ⟨hfreeze, hset⟩
      · rw [hset, slot?_setSlot hc, hslot]
        simp only [TableCall.targets_iff htarget]
        split_ifs <;> rfl
      · rw [hset, slot?_freeze, hslot, TableCall.targets_eq_false hfreeze]
        rfl
    · rw [h, lastOn?, successes_concat_of_fails hfails]
      exact hslot

/-- Names keep the order in which they were first targeted. -/
theorem tableNames_after (hs : s.Fresh) (hcalls : ∀ c ∈ calls, c.scope < s.size) (i : ScopeId) :
    (s.after calls).tableNames i = (s.targeted calls i).eraseDups := by
  induction calls using List.reverseRecOn with
  | nil => exact hs.tableNames_eq_nil
  | append_singleton calls c ih =>
    have hc : c.scope < (s.after calls).size := by
      rw [(after_lines s calls).1]
      exact hcalls c (by simp)
    have hnames := ih fun d hd => hcalls d (by simp [hd])
    rw [after_concat]
    rcases c.succeeds_cases (s.after calls) with ⟨hsucceeds, h⟩ | ⟨hfails, h⟩
    · have htargeted : s.targeted (calls ++ [c]) i =
          s.targeted calls i ++ if c.scope = i then c.target?.toList else [] := by
        unfold targeted
        rw [successes_concat, if_pos hsucceeds, List.filter_append, List.filterMap_append]
        by_cases hi : c.scope = i <;> cases htarget : c.target? <;> simp [hi, htarget]
      rw [htargeted]
      rcases TableCall.perform_ok h with ⟨target, htarget, hset⟩ | ⟨hfreeze, hset⟩
      · rw [hset, tableNames_setSlot hc, hnames, htarget]
        by_cases hi : c.scope = i
        · subst hi
          rw [if_pos rfl, List.eraseDups_append]
          by_cases hmem : target ∈ s.targeted calls c.scope <;>
            simp [hmem, List.removeAll, List.eraseDups_cons]
        · have hne : ¬i = c.scope := fun h => hi h.symm
          simp [hi, hne]
      · rw [hset, tableNames_freeze, hnames, hfreeze]
        simp
    · rw [h, targeted, successes_concat_of_fails hfails]
      exact hnames

theorem isFrozen_after (hs : s.Fresh) (hcalls : ∀ c ∈ calls, c.scope < s.size) (i : ScopeId) :
    (s.after calls).isFrozen i = true ↔ .freeze i ∈ calls := by
  induction calls using List.reverseRecOn with
  | nil => simp [after, hs.isFrozen_eq_false]
  | append_singleton calls c ih =>
    have hc : c.scope < (s.after calls).size := by
      rw [(after_lines s calls).1]
      exact hcalls c (by simp)
    have hfrozen := ih fun d hd => hcalls d (by simp [hd])
    rw [after_concat, List.mem_append, List.mem_singleton, ← hfrozen]
    rcases c.succeeds_cases (s.after calls) with ⟨-, h⟩ | ⟨hfails, h⟩
    · rcases TableCall.perform_ok h with ⟨target, htarget, hset⟩ | ⟨hfreeze, hset⟩
      · rw [hset, isFrozen_setSlot]
        have hother : ¬TableCall.freeze i = c := by
          rintro rfl
          exact absurd htarget (by simp [TableCall.target?])
        simp [hother]
      · rw [hset, isFrozen_freeze hc, TableCall.eq_freeze hfreeze]
        simp [TableCall.scope, or_comm]
    · have hother : ¬TableCall.freeze i = c := by
        rintro rfl
        exact absurd hfails (by simp [TableCall.succeeds, TableCall.perform])
      rw [h]
      simp [hother]

theorem Fresh.owned (hs : s.Fresh) : s.Owned := by
  intro i name method h
  simp [hs.slot?_eq_none] at h

theorem owned_after (hs : s.Fresh) : (s.after calls).Owned := by
  induction calls using List.reverseRecOn with
  | nil => exact hs.owned
  | append_singleton calls c ih =>
    rw [after_concat]
    rcases c.succeeds_cases (s.after calls) with ⟨-, h⟩ | ⟨-, h⟩
    · rcases TableCall.perform_ok h with ⟨target, -, hset⟩ | ⟨-, hset⟩
      · rw [hset]
        refine ih.setSlot fun method hmethod => TableCall.owner_of_result? ih ?_
        rw [← TableCall.method?_slot, hmethod]
        rfl
      · intro i name method hslot
        rw [hset, slot?_freeze] at hslot
        have hchain : ((s.after calls).freeze c.scope).chain i = (s.after calls).chain i :=
          Lineage.chain_update ..
        rw [hset, hchain]
        exact ih i name method hslot
    · rw [h]
      exact ih

/-- The nearest scope with a call that counts decides. -/
theorem find?_after (hs : s.Fresh) (hcalls : ∀ c ∈ calls, c.scope < s.size) (m : ScopeId)
    (name : String) :
    (s.after calls).find? m name =
      ((s.chain m).findSome? fun i => s.lastOn? calls i name).bind fun p => p.1.result? p.2 := by
  have hslots : (fun i => (s.after calls).slot? i name) =
      Option.map (fun p => p.1.slot p.2) ∘ fun i => s.lastOn? calls i name :=
    funext fun i => slot?_after hs hcalls i name
  unfold find?
  rw [(after_lines s calls).2, hslots, ← List.map_findSome?, Option.bind_map]
  simp only [Function.comp_def, TableCall.method?_slot]

/-- What counts for a name targeted it. -/
theorem target?_of_lastOn? {i : ScopeId} {name : String} {p : TableCall × Scopes}
    (h : s.lastOn? calls i name = some p) : p.1.target? = some name := by
  have hmem := List.mem_of_getLast? h
  have htargets := (List.mem_filter.mp hmem).2
  simp only [TableCall.targets, Bool.and_eq_true, beq_iff_eq] at htargets
  exact htargets.2

/-- **The last call on the nearest scope wins.** That is so for every sequence of calls on new
scopes, whatever their superclasses are and whichever of the calls fail. -/
theorem tables_lastWriteWins (hs : s.Fresh) (hcalls : ∀ c ∈ calls, c.scope < s.size) :
    s.LastWriteWins calls where
  found := find?_after hs hcalls
  owned m name method h := by
    have howner := (owned_after hs).found h
    rw [(after_lines s calls).2] at howner
    rw [find?_after hs hcalls] at h
    obtain ⟨p, hp, hresult⟩ := Option.bind_eq_some_iff.mp h
    obtain ⟨i, -, hlast⟩ := List.exists_of_findSome?_eq_some hp
    have htarget := target?_of_lastOn? hlast
    rw [TableCall.name_of_result? hresult] at htarget
    exact ⟨Option.some.inj htarget, howner⟩
  listed i := by
    rw [ownMethodNames_eq, tableNames_after hs hcalls]
    simp only [slot?_after hs hcalls, Option.bind_map, Function.comp_def, TableCall.method?_slot]
    rfl
  frozen := isFrozen_after hs hcalls
  refused _ _ := TableCall.perform_eq_error_iff
  kept c cause h := by
    refine ⟨?_, fun l m hm => ?_⟩
    · rw [after_concat, TableCall.leave, h]
    · unfold Eval.changeScopes
      rw [hm, h]

end Scopes

/-- Defines a method `f` in a class, aliases it below, hides it there and freezes the class; then
three calls fail. -/
def hidingCalls : List TableCall :=
  [.define 0 "f" [] none, .addAlias 1 "g" "f", .undef 1 "f", .freeze 0,
    .define 0 "f" ["x"] none, .addAlias 1 "g" "f", .undef 2 "f"]

/-- The alias stays, and the name that it was made from stays hidden. -/
theorem hidingCalls_lastWriteWins :
    threeScopes.Fresh ∧ (∀ c ∈ hidingCalls, c.scope < threeScopes.size) ∧
      threeScopes.LastWriteWins hidingCalls ∧
      ((threeScopes.after hidingCalls).find? 1 "f").isNone = true ∧
      (threeScopes.after hidingCalls).ownMethodNames 1 = ["g"] := by
  have hs : threeScopes.Fresh := ((Scopes.fresh_empty.create _ _).create _ _).create _ _
  have hcalls : ∀ c ∈ hidingCalls, c.scope < threeScopes.size := by decide +kernel
  have hhidden : ((threeScopes.after hidingCalls).find? 1 "f").isNone = true := by decide +kernel
  have hnames : (threeScopes.after hidingCalls).ownMethodNames 1 = ["g"] := by decide +kernel
  exact ⟨hs, hcalls, Scopes.tables_lastWriteWins hs hcalls, hhidden, hnames⟩

end Treewalk
