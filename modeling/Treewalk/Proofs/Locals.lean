import Treewalk.Proofs.Fuel
import Treewalk.Proofs.Reach
import Treewalk.Proofs.Sample

/-!
# Local variables stay within definitions

The body of a class, a module or a method runs in an environment of its own, which has no parent.
So it can neither see nor change a local variable of whatever ran it: `locals_confined`.

To *see* nothing is a property of two runs. Inside such a body the two machines have the same
environments from the one on that was made for the body, and what is older may be anything:
`Machine.Apart`. Outside nothing is known of the environments, but that those that were there are
what they were: `Machine.Traced`. A new environment leads from the second relation to the first,
and leaving it leads back.
-/

set_option autoImplicit false

namespace Treewalk

/-! ## Environments that were there before -/

/-- The members that were there are what they were. -/
structure Lineage.Extends {α : Type} (l l' : Lineage α) : Prop where
  size : l.size ≤ l'.size
  parent : ∀ i < l.size, l'.parent? i = l.parent? i
  value : ∀ i < l.size, l'.value? i = l.value? i

namespace Lineage.Extends

variable {α : Type} {l l' l'' : Lineage α}

theorem refl (l : Lineage α) : l.Extends l := ⟨Nat.le_refl _, fun _ _ => rfl, fun _ _ => rfl⟩

theorem trans (h : l.Extends l') (h' : l'.Extends l'') : l.Extends l'' where
  size := Nat.le_trans h.size h'.size
  parent i hi := (h'.parent i (Nat.lt_of_lt_of_le hi h.size)).trans (h.parent i hi)
  value i hi := (h'.value i (Nat.lt_of_lt_of_le hi h.size)).trans (h.value i hi)

theorem add (l : Lineage α) (parent : Option Nat) (value : α) : l.Extends (l.add parent value) := by
  refine ⟨by rw [size_add]; exact Nat.le_succ _, fun i hi => ?_, fun i hi => ?_⟩
  · rw [parent?_add, if_neg (Nat.ne_of_lt hi)]
  · rw [value?_add, if_neg (Nat.ne_of_lt hi)]

/-- A change to a member that came later. -/
theorem update (h : l.Extends l') {i : Nat} (hi : l.size ≤ i) (f : α → α) :
    l.Extends (l'.update i f) := by
  refine ⟨by rw [size_update]; exact h.size, fun j hj => ?_, fun j hj => ?_⟩
  · rw [parent?_update]
    exact h.parent j hj
  · rw [value?_update, if_neg (by omega)]
    exact h.value j hj

end Lineage.Extends

namespace Environments

variable {s s' : Environments} {e b b' : Nat} {name : String}

theorem owner?_of_root (h : s.parent? e = none) :
    s.owner? e name = if (s.bindings e).contains name then some e else none := by
  rw [owner?, Lineage.chain_of_root h, List.find?_cons]
  cases (s.bindings e).contains name with
  | true => rfl
  | false => rfl

theorem get?_of_root (h : s.parent? e = none) : s.get? e name = (s.bindings e).get? name := by
  rw [get?, owner?_of_root h]
  split
  · rfl
  · next hn =>
    rw [Table.contains, Option.not_isSome_iff_eq_none] at hn
    rw [hn]
    rfl

theorem assign_of_root (h : s.parent? e = none) (v : Value) :
    s.assign e name v = s.update e (·.set name v) := by
  rw [assign, owner?_of_root h]
  split
  · rfl
  · rfl

/-- The environments from `b` on are those from `b'` on, one by one, and none has a parent. -/
structure SameFrom (b b' : Nat) (s s' : Environments) : Prop where
  size : ∃ k, s.size = b + k ∧ s'.size = b' + k
  root : ∀ i, s.parent? (b + i) = none
  root' : ∀ i, s'.parent? (b' + i) = none
  value : ∀ i, s.value? (b + i) = s'.value? (b' + i)

namespace SameFrom

/-- As yet there are none. -/
theorem nil (s s' : Environments) : SameFrom s.size s'.size s s' where
  size := ⟨0, rfl, rfl⟩
  root i := s.parent?_eq_none (Nat.le_add_right ..)
  root' i := s'.parent?_eq_none (Nat.le_add_right ..)
  value i := by
    rw [s.value?_eq_none (Nat.le_add_right ..), s'.value?_eq_none (Nat.le_add_right ..)]

theorem add (h : SameFrom b b' s s') (bindings : Table Value) :
    SameFrom b b' (s.add none bindings) (s'.add none bindings) := by
  obtain ⟨k, hk, hk'⟩ := h.size
  refine ⟨⟨k + 1, by rw [Lineage.size_add, hk]; rfl, by rw [Lineage.size_add, hk']; rfl⟩,
    fun i => ?_, fun i => ?_, fun i => ?_⟩
  · rw [Lineage.parent?_add]
    split
    · rfl
    · exact h.root i
  · rw [Lineage.parent?_add]
    split
    · rfl
    · exact h.root' i
  · rw [Lineage.value?_add, Lineage.value?_add, h.value i, hk, hk']
    by_cases hi : i = k
    · rw [if_pos (by rw [hi]), if_pos (by rw [hi])]
    · rw [if_neg (by omega), if_neg (by omega)]

theorem update (h : SameFrom b b' s s') (i : Nat) (f : Table Value → Table Value) :
    SameFrom b b' (s.update (b + i) f) (s'.update (b' + i) f) := by
  refine ⟨?_, fun j => ?_, fun j => ?_, fun j => ?_⟩
  · rw [Lineage.size_update, Lineage.size_update]
    exact h.size
  · rw [Lineage.parent?_update]
    exact h.root j
  · rw [Lineage.parent?_update]
    exact h.root' j
  · rw [Lineage.value?_update, Lineage.value?_update, h.value j]
    by_cases hj : i = j
    · rw [if_pos (by rw [hj]), if_pos (by rw [hj])]
    · rw [if_neg (by omega), if_neg (by omega)]

theorem bindings (h : SameFrom b b' s s') (i : Nat) :
    s.bindings (b + i) = s'.bindings (b' + i) := by
  rw [Environments.bindings, Environments.bindings, h.value i]

end SameFrom

end Environments

/-! ## Machines that differ in environments -/

/-- Two machines that differ in their environments at most, in where they stand in them, in the
texts received so far and in their journals. -/
structure Machine.Matches (m m' : Machine) : Prop where
  options : m.context.options = m'.context.options
  opened : m.context.scopes = m'.context.scopes
  constants : m.context.constants = m'.context.constants
  depth : m.context.depth = m'.context.depth
  tables : m.heap.scopes = m'.heap.scopes

/-- Two runs with the same effects outside the environments, from two machines to two others. -/
structure Machine.SameEffects (m m' n n' : Machine) : Prop where
  ends : n.Matches n'
  texts : ∃ texts, n.context.warnings = m.context.warnings ++ texts ∧
    n'.context.warnings = m'.context.warnings ++ texts

/-- Besides, every environment that was there before is what it was. -/
structure Machine.Traced (m m' n n' : Machine) : Prop extends m.SameEffects m' n n' where
  kept : m.heap.environments.Extends n.heap.environments
  kept' : m'.heap.environments.Extends n'.heap.environments

/-- Besides, the newer environments are the same, and the two machines stand in the same. -/
structure Machine.Apart (m m' n n' : Machine) : Prop extends m.Traced m' n n' where
  fresh : Environments.SameFrom m.heap.environments.size m'.heap.environments.size
    n.heap.environments n'.heap.environments
  current : ∃ i, n.context.environment = m.heap.environments.size + i ∧
    n'.context.environment = m'.heap.environments.size + i

namespace Machine

variable {m m' n n' k k' : Machine}

theorem SameEffects.refl (h : m.Matches m') : m.SameEffects m' m m' :=
  ⟨h, [], (List.append_nil _).symm, (List.append_nil _).symm⟩

theorem SameEffects.trans (h : m.SameEffects m' n n') (h' : n.SameEffects n' k k') :
    m.SameEffects m' k k' := by
  obtain ⟨texts, ht, ht'⟩ := h.texts
  obtain ⟨more, hm, hm'⟩ := h'.texts
  refine ⟨h'.ends, texts ++ more, ?_, ?_⟩
  · rw [hm, ht, List.append_assoc]
  · rw [hm', ht', List.append_assoc]

theorem Traced.refl (h : m.Matches m') : m.Traced m' m m' := ⟨.refl h, .refl _, .refl _⟩

theorem Traced.trans (h : m.Traced m' n n') (h' : n.Traced n' k k') : m.Traced m' k k' :=
  ⟨h.toSameEffects.trans h'.toSameEffects, h.kept.trans h'.kept, h.kept'.trans h'.kept'⟩

end Machine

/-! ## Inside a definition -/

/-- Two runs that stand in environments of their own. -/
def apart (o o' : Machine) : Simulation := ⟨o.Apart o', Eq, Eq, False⟩

/-- Two runs of which nothing is said about where they stand. -/
def traced (o o' : Machine) : Simulation := ⟨o.Traced o', Eq, Eq, False⟩

section

variable {o o' m m' n n' : Machine}

namespace Machine

theorem Matches.sharesNames (h : m.Matches m') : m.SharesNames m' :=
  ⟨h.opened, h.constants, h.tables⟩

theorem Matches.isAtLimit (h : m.Matches m') : m.context.isAtLimit = m'.context.isAtLimit := by
  rw [Context.isAtLimit, Context.isAtLimit, h.options, h.depth]

theorem Matches.record (h : m.Matches m') (entry entry' : Context → Heap → Event) :
    (m.record entry).Matches (m'.record entry') :=
  ⟨h.options, h.opened, h.constants, h.depth, h.tables⟩

/-- Changes that leave environments and texts alone. -/
theorem Traced.change (h : o.Traced o' m m') (hends : n.Matches n')
    (hw : n.context.warnings = m.context.warnings) (hw' : n'.context.warnings = m'.context.warnings)
    (he : n.heap.environments = m.heap.environments)
    (he' : n'.heap.environments = m'.heap.environments) : o.Traced o' n n' := by
  obtain ⟨⟨-, texts, ht, ht'⟩, hkept, hkept'⟩ := h
  refine ⟨⟨hends, texts, hw.trans ht, hw'.trans ht'⟩, ?_, ?_⟩
  · rw [he]
    exact hkept
  · rw [he']
    exact hkept'

/-- The same, where the two machines go on standing where they stood. -/
theorem Apart.change (h : o.Apart o' m m') (hends : n.Matches n')
    (hw : n.context.warnings = m.context.warnings) (hw' : n'.context.warnings = m'.context.warnings)
    (he : n.heap.environments = m.heap.environments)
    (he' : n'.heap.environments = m'.heap.environments)
    (hi : n.context.environment = m.context.environment)
    (hi' : n'.context.environment = m'.context.environment) : o.Apart o' n n' := by
  refine ⟨h.toTraced.change hends hw hw' he he', ?_, ?_⟩
  · rw [he, he']
    exact h.fresh
  · rw [hi, hi']
    exact h.current

end Machine

theorem Context.exists_texts_of_warn {c c' : Context} (h : c.options = c'.options)
    (message : String) (l : Option Location) :
    ∃ texts, c.warn message l = { c with warnings := c.warnings ++ texts } ∧
      c'.warn message l = { c' with warnings := c'.warnings ++ texts } := by
  have hw : c'.options.warnings = c.options.warnings := by rw [h]
  unfold Context.warn
  rw [hw]
  split
  · exact ⟨_, rfl, rfl⟩
  · refine ⟨[], ?_, ?_⟩
    · rw [List.append_nil]
    · rw [List.append_nil]

theorem apart_sharing : Simulation.Sharing (o.Apart o') where
  shares hm := hm.ends.sharesNames
  named _ _ _ hm :=
    hm.change { hm.ends with opened := rfl, constants := rfl, tables := rfl }
      rfl rfl rfl rfl rfl rfl
  recorded _ hm := hm.change (hm.ends.record _ _) rfl rfl rfl rfl rfl rfl

/-- No variable is read but from the environments that are the same, and none is written but to
them. -/
theorem apart_mirroring : Simulation.Mirroring (o.Apart o') where
  toSharing := apart_sharing
  readLocal name hm := by
    obtain ⟨i, hi, hi'⟩ := hm.current
    rw [hi, hi', Environments.get?_of_root (hm.fresh.root i),
      Environments.get?_of_root (hm.fresh.root' i), hm.fresh.bindings i]
  assignLocal name v hm := by
    obtain ⟨i, hi, hi'⟩ := hm.current
    rw [hi, hi', Environments.assign_of_root (hm.fresh.root i),
      Environments.assign_of_root (hm.fresh.root' i)]
    exact ⟨⟨⟨{ hm.ends with }, hm.texts⟩, hm.kept.update (Nat.le_add_right ..) (·.set name v),
      hm.kept'.update (Nat.le_add_right ..) (·.set name v)⟩, hm.fresh.update i (·.set name v),
      i, hi, hi'⟩
  warn message l hm := by
    obtain ⟨texts, h, h'⟩ := Context.exists_texts_of_warn hm.ends.options message (some l)
    obtain ⟨before, hb, hb'⟩ := hm.texts
    rw [h, h']
    refine ⟨⟨⟨{ hm.ends with }, before ++ texts, ?_, ?_⟩, hm.kept, hm.kept'⟩, hm.fresh, hm.current⟩
    · rw [hb, List.append_assoc]
    · rw [hb', List.append_assoc]
  enterEnvironment bindings hm := by
    obtain ⟨k, hk, hk'⟩ := hm.fresh.size
    exact ⟨⟨⟨{ hm.ends with }, hm.texts⟩, hm.kept.trans (.add _ _ _), hm.kept'.trans (.add _ _ _)⟩,
      hm.fresh.add bindings, k, hk, hk'⟩
  leaveEnvironment hm hn :=
    ⟨⟨⟨{ hn.ends with }, hn.texts⟩, hn.kept, hn.kept'⟩, hn.fresh, hm.current⟩

theorem apart_stable : (apart o o').Stable .same :=
  apart_mirroring.stable <| apart_sharing.calling (fun hm => hm.ends.isAtLimit)
    (fun hm => hm.change { hm.ends with depth := congrArg (· + 1) hm.ends.depth }
      rfl rfl rfl rfl rfl rfl)
    fun hm => hm.change { hm.ends with depth := congrArg (· - 1) hm.ends.depth }
      rfl rfl rfl rfl rfl rfl

theorem apart_evaluate (fuel : Nat) (n : Node) :
    (apart o o').judgment _ Eq (evaluate fuel n) (evaluate fuel n) := by
  have hK : (apart o o').Stable .same := apart_stable
  exact hK.congruence_same.evaluate fuel rfl

/-! ## In and out of a definition -/

theorem traced_sharing : Simulation.Sharing (o.Traced o') where
  shares hm := hm.ends.sharesNames
  named _ _ _ hm :=
    hm.change { hm.ends with opened := rfl, constants := rfl, tables := rfl } rfl rfl rfl rfl
  recorded _ hm := hm.change (hm.ends.record _ _) rfl rfl rfl rfl

theorem traced_calling : (traced o o').Calling .same :=
  traced_sharing.calling (fun hm => hm.ends.isAtLimit)
    (fun hm => hm.change { hm.ends with depth := congrArg (· + 1) hm.ends.depth } rfl rfl rfl rfl)
    fun hm => hm.change { hm.ends with depth := congrArg (· - 1) hm.ends.depth } rfl rfl rfl rfl

/-- A new environment is where the two runs begin to stand in the same, whatever was there
before. -/
theorem traced_withNewEnvironment (bindings : Table Value) {x : Eval Value}
    (hx : ∀ o o' : Machine, (apart o o').judgment _ Eq x x) :
    (traced o o').judgment _ Eq (Eval.withNewEnvironment bindings x)
      (Eval.withNewEnvironment bindings x) := by
  intro m m' hm
  have hinside : m.Apart m'
      { m with
        context := { m.context with environment := m.heap.environments.size }
        heap := { m.heap with environments := m.heap.environments.add none bindings } }
      { m' with
        context := { m'.context with environment := m'.heap.environments.size }
        heap := { m'.heap with environments := m'.heap.environments.add none bindings } } :=
    ⟨⟨⟨{ hm.ends with }, [], (List.append_nil _).symm, (List.append_nil _).symm⟩, .add _ _ _,
      .add _ _ _⟩, (Environments.SameFrom.nil _ _).add bindings, 0, rfl, rfl⟩
  rcases hx m m' _ _ hinside with h | ⟨hs, ho⟩
  · exact h.1.elim
  · have hleft : m.Traced m' (Eval.withNewEnvironment bindings x m).2
        (Eval.withNewEnvironment bindings x m').2 :=
      hs.toTraced.change { hs.ends with } rfl rfl rfl rfl
    exact .inr ⟨hm.trans hleft, ho⟩

theorem traced_runScope (fuel : Nat) (s : ScopeId) (b : Option Node) :
    (traced o o').judgment _ Eq (Eval.runScope (evaluate fuel) s b)
      (Eval.runScope (evaluate fuel) s b) := by
  cases b with
  | none => exact Simulation.yield rfl
  | some n =>
    refine traced_sharing.withScope s (traced_withNewEnvironment .empty fun _ _ => ?_)
    exact apart_evaluate fuel n

/-- The body of a class or module. -/
theorem traced_scope (fuel : Nat) (t : Tag) (sort : ScopeSort) (name : String)
    (b : Option Node) :
    (traced o o').judgment _ Eq (evaluate fuel (.scope t sort name b))
      (evaluate fuel (.scope t sort name b)) := by
  cases fuel with
  | zero => exact Simulation.outOfFuel
  | succ fuel =>
    refine traced_sharing.observed ?_
    have hopening : (traced o o').Opening .same := traced_sharing.opening
    refine Simulation.andThen (hopening.like_openConstant rfl sort name) fun s s' hs => ?_
    obtain rfl : s = s' := hs
    exact traced_runScope fuel s b

/-- The body of a method, with whatever arguments. -/
theorem traced_invoke (fuel : Nat) (method : Method) (t : Tag) (vs : List Value) :
    (traced o o').judgment _ Eq (Eval.invoke (evaluate fuel) method t.location vs)
      (Eval.invoke (evaluate fuel) method t.location vs) := by
  have hbody : ∀ o o' : Machine, (apart o o').judgment _ Eq
      (Eval.body (evaluate fuel) method.body) (Eval.body (evaluate fuel) method.body) := by
    intro o o'
    have hK : (apart o o').Stable .same := apart_stable
    refine hK.compatible.body (Likeness.optionRel_refl (fun _ => rfl) _) fun n n' hn => ?_
    obtain rfl : n = n' := hn
    exact apart_evaluate fuel n
  unfold Eval.invoke
  split
  · refine traced_calling.like_enterCall rfl (traced_sharing.withScope method.owner ?_)
    exact traced_withNewEnvironment _ hbody
  · exact Simulation.fail (traced_calling.fault _ rfl)

/-! ## Calls -/

theorem Machine.Matches.callee? (h : m.Matches m') (name : String) :
    m.callee? name = m'.callee? name := by
  rw [Machine.callee?, Machine.callee?, Context.currentScope?, Context.currentScope?, h.opened,
    h.tables]

/-- Arguments have the same values with the same effects whatever the journal. -/
theorem all_twins (fuel : Nat) (args : List Node) (h : m.Twins .any m') {vs : List Value}
    (hall : Eval.all (evaluate fuel) args m = (.value vs, n)) :
    ∃ n', Eval.all (evaluate fuel) args m' = (.value vs, n') ∧ n.Twins .any n' := by
  have hK : (rerun .any False).Stable .same := rerun_stable
  have hJ := hK.congruence_same
  have hagree := hJ.all (fun _ _ hn => hJ.evaluate fuel hn)
    (List.forall₂_same.mpr fun c (_ : c ∈ args) => rfl) m m' h
  rw [hall] at hagree
  rcases hagree with h | ⟨hs, ho⟩
  · exact h.1.elim
  · exact ⟨(Eval.all (evaluate fuel) args m').2, Prod.ext ho.eq.symm rfl, hs⟩

theorem Machine.SameEffects.of_twins (h : m.SameEffects m' n n') {k k' : Machine}
    (hk : n.Twins .any k) (hk' : n'.Twins .any k') : m.SameEffects m' k k' := by
  obtain ⟨hends, texts, ht, ht'⟩ := h
  refine ⟨⟨?_, ?_, ?_, ?_, ?_⟩, texts, ?_, ?_⟩
  · rw [← hk.context, ← hk'.context, hends.options]
  · rw [← hk.context, ← hk'.context, hends.opened]
  · rw [← hk.context, ← hk'.context, hends.constants]
  · rw [← hk.context, ← hk'.context, hends.depth]
  · rw [← hk.heap, ← hk'.heap, hends.tables]
  · rw [← hk.context, ht]
  · rw [← hk'.context, ht']

/-- Arguments that come to the same lead to calls that come to the same. -/
theorem call_confined (h : m.Matches m') (fuel : Nat) (t : Tag) (name : String)
    (args : List Node) {vs : List Value}
    (hargs : Eval.all (evaluate fuel) args m = (.value vs, n))
    (hargs' : Eval.all (evaluate fuel) args m' = (.value vs, n')) (hsame : m.SameEffects m' n n') :
    (evaluate (fuel + 1) (.call t name args) m).1 =
      (evaluate (fuel + 1) (.call t name args) m').1 ∧
    m.SameEffects m' (evaluate (fuel + 1) (.call t name args) m).2
      (evaluate (fuel + 1) (.call t name args) m').2 ∧
    ∀ method, m.callee? name = some method →
      n.heap.environments.Extends
        (evaluate (fuel + 1) (.call t name args) m).2.heap.environments ∧
      n'.heap.environments.Extends
        (evaluate (fuel + 1) (.call t name args) m').2.heap.environments := by
  let call : Node := .call t name args
  let k := m.record (.started .evaluating call)
  let k' := m'.record (.started .evaluating call)
  have hcallee := h.callee? name
  suffices hcall :
      (Eval.call (evaluate fuel) t.location name args k).1 =
        (Eval.call (evaluate fuel) t.location name args k').1 ∧
      m.SameEffects m' (Eval.call (evaluate fuel) t.location name args k).2
        (Eval.call (evaluate fuel) t.location name args k').2 ∧
      ∀ method, m.callee? name = some method →
        n.heap.environments.Extends
          (Eval.call (evaluate fuel) t.location name args k).2.heap.environments ∧
        n'.heap.environments.Extends
          (Eval.call (evaluate fuel) t.location name args k').2.heap.environments by
    obtain ⟨ho, hs, hkept⟩ := hcall
    exact ⟨ho, ⟨hs.ends.record _ _, hs.texts⟩, hkept⟩
  have hk : k.callee? name = m.callee? name := rfl
  have hk' : k'.callee? name = m.callee? name := hcallee.symm
  rw [Eval.call_eq, Eval.call_eq, hk, hk']
  cases m.callee? name with
  | none =>
    -- Without a method the arguments are not even evaluated.
    refine ⟨?_, ⟨h.record _ _, [], (List.append_nil _).symm, (List.append_nil _).symm⟩, nofun⟩
    show Outcome.error _ = Outcome.error _
    rw [show k.context.currentScope? = k'.context.currentScope? from
      congrArg List.head? h.opened, show k.heap.scopes = k'.heap.scopes from h.tables]
  | some method =>
    have hstart : m.Twins .any k := ⟨rfl, rfl, trivial⟩
    have hstart' : m'.Twins .any k' := ⟨rfl, rfl, trivial⟩
    obtain ⟨k₁, hall, htwins⟩ := all_twins fuel args hstart hargs
    obtain ⟨k₁', hall', htwins'⟩ := all_twins fuel args hstart' hargs'
    have hbody := hsame.of_twins htwins htwins'
    dsimp only
    rw [Eval.bind_of_value (congrArg Prod.fst hall), Eval.bind_of_value (congrArg Prod.fst hall'),
      hall, hall']
    rcases traced_invoke fuel method t vs k₁ k₁' (.refl hbody.ends) with hlax | ⟨hs, ho⟩
    · exact hlax.1.elim
    · refine ⟨ho.eq, hbody.trans hs.toSameEffects, fun _ _ => ⟨?_, ?_⟩⟩
      · rw [htwins.heap]
        exact hs.kept
      · rw [htwins'.heap]
        exact hs.kept'

end

/-- **Local variables do not cross the bounds of definitions.** On two machines that differ in
their environments, a class or module ends alike and with the same effects outside the
environments, and every environment that was there stays as it is. So does the body that a call
runs; and a call as a whole ends alike with the same effects if its arguments come to the same. -/
theorem locals_confined :
    (∀ {m m' : Machine}, m.Matches m' → ∀ fuel t sort name body,
      (evaluate fuel (.scope t sort name body) m).1 =
        (evaluate fuel (.scope t sort name body) m').1 ∧
      m.Traced m' (evaluate fuel (.scope t sort name body) m).2
        (evaluate fuel (.scope t sort name body) m').2) ∧
    (∀ {m m' : Machine}, m.Matches m' → ∀ fuel t name args {vs n n'},
      Eval.all (evaluate fuel) args m = (.value vs, n) →
      Eval.all (evaluate fuel) args m' = (.value vs, n') → m.SameEffects m' n n' →
      (evaluate (fuel + 1) (.call t name args) m).1 =
        (evaluate (fuel + 1) (.call t name args) m').1 ∧
      m.SameEffects m' (evaluate (fuel + 1) (.call t name args) m).2
        (evaluate (fuel + 1) (.call t name args) m').2 ∧
      ∀ method, m.callee? name = some method →
        n.heap.environments.Extends
          (evaluate (fuel + 1) (.call t name args) m).2.heap.environments ∧
        n'.heap.environments.Extends
          (evaluate (fuel + 1) (.call t name args) m').2.heap.environments) ∧
    ∀ {m m' : Machine}, m.Matches m' → ∀ fuel method l vs,
      (Eval.invoke (evaluate fuel) method l vs m).1 =
        (Eval.invoke (evaluate fuel) method l vs m').1 ∧
      m.Traced m' (Eval.invoke (evaluate fuel) method l vs m).2
        (Eval.invoke (evaluate fuel) method l vs m').2 := by
  refine ⟨fun {m m'} h fuel t sort name body => ?_, fun {m m'} h fuel t name args vs n n' => ?_,
    fun {m m'} h fuel method l vs => ?_⟩
  · rcases traced_scope fuel t sort name body m m' (.refl h) with hlax | ⟨hs, ho⟩
    · exact hlax.1.elim
    · exact ⟨ho.eq, hs⟩
  · exact call_confined h fuel t name args
  · rcases traced_invoke fuel method ⟨0, l⟩ vs m m' (.refl h) with hlax | ⟨hs, ho⟩
    · exact hlax.1.elim
    · exact ⟨ho.eq, hs⟩

/-- Reads the local variable `x`. -/
def readX : Node := .localVar .sample "x"

/-- Where one machine has an `x` and the other has none, the body of a class and that of a method
end alike nevertheless. -/
theorem readX_confined :
    let m := Machine.oneMethod .default readX
    let m' : Machine := { m with
      heap := { m.heap with environments := m.heap.environments.assign 0 "x" .nil } }
    let inClass : Node := .scope .sample .klass "B" (some readX)
    let inMethod : Node := .call .sample "f" []
    (evaluate 9 readX m).1.isValue = false ∧ (evaluate 9 readX m').1.isValue = true ∧
      (evaluate 9 inClass m).1 = (evaluate 9 inClass m').1 ∧
      (evaluate 9 inMethod m).1 = (evaluate 9 inMethod m').1 ∧
      m'.heap.environments.Extends (evaluate 9 inMethod m').2.heap.environments := by
  intro m m' inClass inMethod
  have h : m.Matches m' := ⟨rfl, rfl, rfl, rfl, rfl⟩
  have hclass := locals_confined.1 h 9 .sample .klass "B" (some readX)
  have hcall := locals_confined.2.1 h 8 .sample "f" [] rfl rfl (.refl h)
  obtain ⟨method, hmethod⟩ : ∃ method, m.callee? "f" = some method :=
    Option.isSome_iff_exists.mp (by decide +kernel)
  exact ⟨by decide +kernel, by decide +kernel, hclass.1, hcall.1, (hcall.2.2 method hmethod).2⟩

end Treewalk
