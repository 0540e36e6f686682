import Treewalk.Proofs.Openings

/-!
# Constants are permanent

What is done with a context from the outside is to evaluate trees and to open classes and modules.
`constants_permanent` follows a context through any such calls, however they end: what is registered
at one moment is registered to the same class or module at every later one, and what it is called
was settled by the first opening of its name.

`ScopeEnds` lists the ways in which a class or module node ends, without fuel and without the
evaluator's computations.
-/

set_option autoImplicit false

namespace Treewalk

/-! ## How class and module nodes end -/

/-- How a class or module node ends: it is refused and its body is not even started, or the body
runs in what was opened and the node ends as the body does. -/
inductive ScopeEnds (t : Tag) (sort : ScopeSort) (name : String) (body : Option Node)
    (m : Machine) : Outcome Value → Machine → Prop
  | refused : m.Conflicts sort name →
      ScopeEnds t sort name body m (.error (.fault (.wrongSort name sort) (some t.location))) m
  | empty {s : ScopeId} {k : Machine} : m.Opens sort name s k → body = none →
      ScopeEnds t sort name body m (.value .nil) k
  | ran {s : ScopeId} {k m₁ : Machine} {b : Node} {o : Outcome Value} :
      m.Opens sort name s k → body = some b → b.EndsWith (k.inScope s .empty) o m₁ →
      ScopeEnds t sort name body m o (m₁.backIn k)

section

variable {t : Tag} {sort : ScopeSort} {name : String} {body : Option Node} {m m₁ : Machine}
  {o : Outcome Value} {fuel : Nat}

theorem runScope_some_eq (fuel : Nat) (s : ScopeId) (b : Node) (k : Machine) :
    Eval.runScope (evaluate fuel) s (some b) k =
      ((evaluate fuel b (k.inScope s .empty)).1,
        (evaluate fuel b (k.inScope s .empty)).2.backIn k) :=
  Eval.withScope_withNewEnvironment (Eval.Nested.evaluate fuel b).balanced s .empty k

theorem step_scope_of_conflicts (h : m.Conflicts sort name) :
    Eval.step fuel (evaluate fuel) (.scope t sort name body) m =
      (.error (.fault (.wrongSort name sort) (some t.location)), m) := by
  have hopen := openConstant_of_conflicts (l := some t.location) h
  rw [Eval.step, Eval.bind_of_error (congrArg Prod.fst hopen), hopen]

theorem step_scope_of_opens {s : ScopeId} {k : Machine} (h : m.Opens sort name s k) :
    Eval.step fuel (evaluate fuel) (.scope t sort name body) m =
      Eval.runScope (evaluate fuel) s body k := by
  have hopen := openConstant_of_opens (l := some t.location) h
  rw [Eval.step, Eval.bind_of_value (congrArg Prod.fst hopen), hopen]

theorem scopeEnds_of_step
    (hstep : Eval.step fuel (evaluate fuel) (.scope t sort name body) m = (o, m₁))
    (hfinal : o.isFinal = true) : ScopeEnds t sort name body m o m₁ := by
  rcases conflicts_or_opens m sort name with hconflicts | ⟨s, k, hopens⟩
  · rw [step_scope_of_conflicts hconflicts] at hstep
    obtain ⟨rfl, rfl⟩ := Prod.mk.inj hstep
    exact .refused hconflicts
  · rw [step_scope_of_opens hopens] at hstep
    cases body with
    | none =>
      obtain ⟨rfl, rfl⟩ := Prod.mk.inj hstep
      exact .empty hopens rfl
    | some b =>
      rw [runScope_some_eq] at hstep
      obtain ⟨rfl, rfl⟩ := Prod.mk.inj hstep
      exact .ran hopens rfl (Node.endsWith_of_isFinal hfinal)

theorem ScopeEnds.exists_step (h : ScopeEnds t sort name body m o m₁) :
    o.isFinal = true ∧
      ∃ fuel, Eval.step fuel (evaluate fuel) (.scope t sort name body) m = (o, m₁) := by
  cases h with
  | refused hconflicts => exact ⟨rfl, 0, step_scope_of_conflicts hconflicts⟩
  | empty hopens hbody =>
    refine ⟨rfl, 0, ?_⟩
    rw [step_scope_of_opens hopens, hbody]
    rfl
  | ran hopens hbody hends =>
    have hfinal := hends.1
    obtain ⟨fuel, hrun⟩ := hends.exists_evaluate
    refine ⟨hfinal, fuel, ?_⟩
    rw [step_scope_of_opens hopens, hbody, runScope_some_eq, hrun]

theorem scope_endsWith_iff {m' : Machine} :
    (Node.scope t sort name body).EndsWith m o m' ↔
      ∃ m₁, ScopeEnds t sort name body
          (m.record (.started .evaluating (.scope t sort name body))) o m₁ ∧
        m' = m₁.record (.ended .evaluating (.scope t sort name body) o) := by
  rw [Node.endsWith_iff_step]
  constructor
  · rintro ⟨hfinal, fuel, k, hstep, rfl⟩
    exact ⟨k, scopeEnds_of_step hstep hfinal, rfl⟩
  · rintro ⟨k, hends, rfl⟩
    obtain ⟨hfinal, fuel, hstep⟩ := hends.exists_step
    exact ⟨hfinal, fuel, k, hstep, rfl⟩

end

/-! ## What is done with a context -/

/-- What can be done with a context from the outside. -/
inductive ContextCall where
  | evaluate (fuel : Nat) (n : Node)
  | openConstant (sort : ScopeSort) (name : String) (location : Option Location)

namespace ContextCall

/-- The machine that a call leaves, however it ended. -/
def leave : ContextCall → Machine → Machine
  | .evaluate fuel n, m => (Treewalk.evaluate fuel n m).2
  | .openConstant sort name location, m => (Eval.openConstant sort name location m).2

/-- What a journal of the call alone would show. -/
def events : ContextCall → Machine → List Event
  | .evaluate fuel n, m => (Treewalk.evaluate fuel n m.watched).2.entries
  | .openConstant .., _ => []

/-- The constants that a call opens, whether it succeeds or not. -/
def openings : ContextCall → Machine → List ScopeName
  | .evaluate fuel n, m => openingsOf (events (.evaluate fuel n) m)
  | .openConstant sort name _, _ => [⟨sort, name⟩]

end ContextCall

namespace Machine

/-- The machine after some calls, one after the other. -/
def after (m : Machine) (calls : List ContextCall) : Machine :=
  calls.foldl (fun m c => c.leave m) m

/-- The constants that the calls open, one after the other. -/
def openings : Machine → List ContextCall → List ScopeName
  | _, [] => []
  | m, c :: calls => c.openings m ++ (c.leave m).openings calls

/-- The moments before each call and, as far as a journal shows them, during each. -/
def moments : Machine → List ContextCall → List Machine
  | _, [] => []
  | m, c :: calls => m :: (c.events m).map Event.moment ++ (c.leave m).moments calls

variable {m : Machine}

/-- One call. It may be given a journal of its own, which makes no difference to what it leaves. -/
theorem accounts_leave (hm : m.GroundsConstants) (c : ContextCall) :
    (c.leave m).GroundsConstants ∧
    (m :: (c.events m).map Event.moment ++ [c.leave m]).Pairwise Retains ∧
    ∀ name, (c.leave m).constant? name =
      (m.constant? name).or (firstOpening? (c.openings m) name) := by
  cases c with
  | evaluate fuel n =>
    obtain ⟨-, hcontext, hheap⟩ := evaluate_journal fuel n m (some [])
    have hend := (accounting_evaluate fuel n m.watched (accounts_watched hm)).1.inv
    have hsame : ∀ {k k' : Machine}, k.context = k'.context → k.heap = k'.heap →
        m.Accounts k → k'.GroundsConstants ∧ k.Retains k' ∧ ∀ name, k'.constant? name =
          (m.constant? name).or (firstOpening? (openingsOf k.entries) name) := by
      rintro ⟨context, heap, journal⟩ ⟨_, _, journal'⟩ rfl rfl hk
      exact ⟨hk.grounds, .of_eq rfl rfl, hk.constant⟩
    obtain ⟨hgrounds, hretains, hconstant⟩ := hsame hcontext hheap hend
    refine ⟨hgrounds, ?_, hconstant⟩
    exact pairwise_concat_iff.mpr ⟨(pairwise_concat_iff.mp hend.inOrder).1,
      fun k hk => (hend.retained k hk).trans hretains⟩
  | openConstant sort name l =>
    exact ⟨grounds_openConstant hm, List.pairwise_pair.mpr (retains_openConstant m sort name l),
      constant?_openConstant hm⟩

/-- The first of the moments, and of the machine afterwards, is the machine itself. -/
theorem exists_moments_eq (m : Machine) (calls : List ContextCall) :
    ∃ later, m.moments calls ++ [m.after calls] = m :: later := by
  cases calls with
  | nil => exact ⟨[], rfl⟩
  | cons c calls => exact ⟨_, rfl⟩

/-- Induction on the calls. -/
theorem accounts_after (hm : m.GroundsConstants) (calls : List ContextCall) :
    (m.after calls).GroundsConstants ∧
    (m.moments calls ++ [m.after calls]).Pairwise Retains ∧
    ∀ name, (m.after calls).constant? name =
      (m.constant? name).or (firstOpening? (m.openings calls) name) := by
  induction calls generalizing m with
  | nil => exact ⟨hm, List.pairwise_singleton .., fun name => Option.or_none.symm⟩
  | cons c calls ih =>
    obtain ⟨hgrounds, hmoments, hconstant⟩ := accounts_leave hm c
    obtain ⟨hgrounds', hmoments', hconstant'⟩ := ih hgrounds
    refine ⟨hgrounds', ?_, fun name => ?_⟩
    · -- The machine between two calls is the last of the one and the first of the other.
      obtain ⟨later, hlater⟩ := exists_moments_eq (c.leave m) calls
      obtain ⟨hbefore, hleave⟩ := pairwise_concat_iff.mp hmoments
      have hnext : ∀ k ∈ (c.leave m).moments calls ++ [(c.leave m).after calls],
          (c.leave m).Retains k := by
        intro k hk
        rw [hlater] at hk hmoments'
        rcases List.mem_cons.mp hk with rfl | hk
        · exact .refl _
        · exact List.rel_of_pairwise_cons hmoments' hk
      show (m :: (c.events m).map Event.moment ++ (c.leave m).moments calls ++
        [(c.leave m).after calls]).Pairwise Retains
      rw [List.append_assoc]
      refine List.pairwise_append.mpr ⟨hbefore, hmoments', fun k hk k' hk' => ?_⟩
      exact (hleave k hk).trans (hnext k' hk')
    · show ((c.leave m).after calls).constant? name = _
      rw [hconstant' name, hconstant name, openings, firstOpening?_append, Option.or_assoc]

end Machine

namespace Machine.Opens

variable {m k m₁ : Machine} {sort : ScopeSort} {name : String} {s : ScopeId}

/-- What the body does retains what was opened. -/
theorem retains_body (h : m.Opens sort name s k) (hm : m.GroundsConstants) {b : Node}
    {o : Outcome Value} (hb : b.EndsWith (k.inScope s .empty) o m₁) : k.Retains m₁ := by
  obtain ⟨fuel, hrun⟩ := hb.exists_evaluate
  have hinside : (k.inScope s .empty).GroundsConstants := h.groundsConstants hm
  obtain ⟨-, hmoments, -⟩ := accounts_leave hinside (.evaluate fuel b)
  have hbody : (k.inScope s .empty).Retains m₁ := by
    have hend : (ContextCall.evaluate fuel b).leave (k.inScope s .empty) = m₁ :=
      congrArg Prod.snd hrun
    rw [hend] at hmoments
    exact (pairwise_concat_iff.mp hmoments).2 _ List.mem_cons_self
  have hinto : k.Retains (k.inScope s .empty) := .of_eq rfl rfl
  exact hinto.trans hbody

/-- A name that is registered already is opened as what it is registered to. -/
theorem eq_of_registered (h : m.Opens sort name s k) {s' : ScopeId}
    (hs : m.context.constants.get? name = some s') : s' = s := by
  cases h with
  | again hs' _ => exact Option.some.inj (hs.symm.trans hs')
  | anew hs' => exact absurd (hs.symm.trans hs') nofun

end Machine.Opens

/-- In what became of a new context, each class or module is called by the name that is registered
to it. -/
theorem constants_newContext (h : Heap) (options : Options) (journal : Option (List Event))
    (calls : List ContextCall) :
    let new : Machine := ⟨(h.newContext options).1, (h.newContext options).2, journal⟩
    let m := new.after calls
    new.GroundsConstants ∧
    (∀ name, m.constant? name = firstOpening? (new.openings calls) name) ∧
    ∀ {name : String} {s : ScopeId}, m.context.constants.get? name = some s →
      (m.heap.scopes.called s).name = name := by
  intro new m
  have hnew : new.GroundsConstants := (Machine.grounded_newContext h options journal).constants
  have hconstant : ∀ name, m.constant? name = firstOpening? (new.openings calls) name :=
    (Machine.accounts_after hnew calls).2.2
  refine ⟨hnew, hconstant, fun {name s} hs => ?_⟩
  have hfirst := hconstant name
  rw [Machine.constant?, hs] at hfirst
  exact name_of_firstOpening? hfirst.symm

/-- **Constants are permanent.** Whatever is done with a context, each moment of it retains what
every earlier one had registered. What a name is registered to after all that is what it was
registered to before, or else is called as the first opening of the name said; so in what became of
a new context names are registered to different classes and modules, each called by its name. A
class or module node ends in the ways that `ScopeEnds` lists and in no others: it is refused without
a change, or it runs its body in what the name is registered to, and however the body ends the name
stays registered to that, with everything that the body did. -/
theorem constants_permanent :
    (∀ {m : Machine}, m.GroundsConstants → ∀ calls : List ContextCall,
      (m.after calls).GroundsConstants ∧
      (m.moments calls ++ [m.after calls]).Pairwise Machine.Retains ∧
      ∀ name, (m.after calls).constant? name =
        (m.constant? name).or (firstOpening? (m.openings calls) name)) ∧
    (∀ (h : Heap) (options : Options) (journal : Option (List Event)) (calls : List ContextCall),
      let new : Machine := ⟨(h.newContext options).1, (h.newContext options).2, journal⟩
      let m := new.after calls
      new.GroundsConstants ∧
      (∀ name, m.constant? name = firstOpening? (new.openings calls) name) ∧
      (∀ {name : String} {s : ScopeId}, m.context.constants.get? name = some s →
        (m.heap.scopes.called s).name = name) ∧
      ∀ {name name' : String} {s : ScopeId}, m.context.constants.get? name = some s →
        m.context.constants.get? name' = some s → name = name') ∧
    (∀ (t : Tag) (sort : ScopeSort) (name : String) (body : Option Node) (m : Machine)
      (o : Outcome Value) (m' : Machine), (Node.scope t sort name body).EndsWith m o m' ↔
        ∃ m₁, ScopeEnds t sort name body
            (m.record (.started .evaluating (.scope t sort name body))) o m₁ ∧
          m' = m₁.record (.ended .evaluating (.scope t sort name body) o)) ∧
    ∀ {sort : ScopeSort} {name : String} {s : ScopeId} {m k m₁ : Machine} {b : Node}
      {o : Outcome Value}, m.GroundsConstants → m.Opens sort name s k →
      b.EndsWith (k.inScope s .empty) o m₁ →
      k.Retains m₁ ∧ m₁.context.constants.get? name = some s ∧
        ∀ {s' : ScopeId}, m.context.constants.get? name = some s' → s' = s := by
  refine ⟨Machine.accounts_after, fun h options journal calls => ?_,
    fun _ _ _ _ _ _ _ => scope_endsWith_iff, fun hm hopens hb => ?_⟩
  · obtain ⟨hnew, hconstant, hname⟩ := constants_newContext h options journal calls
    exact ⟨hnew, hconstant, hname, fun hs hs' => (hname hs).symm.trans (hname hs')⟩
  · have hretains := hopens.retains_body hm hb
    exact ⟨hretains, hretains.constants hopens.registered, hopens.eq_of_registered⟩

/-- The class `A` is opened from the outside. Then a module is left by a `break` after it opened a
class, and `A` is taken for a module. -/
def leftModule : List ContextCall :=
  [.openConstant .klass "A" none,
    .evaluate 9 (.scope .sample .module "B" (some (.block .sample
      [.scope .sample .klass "C" none, .jump .sample .brk none]))),
    .evaluate 9 (.scope .sample .module "A" (some (.scope .sample .klass "D" none)))]

/-- `A` is still a class, the class in the module is there, and what the refused node would have
opened is not. Opened again and left again, the module is what it was. -/
theorem leftModule_permanent :
    let m := (Machine.initial .default).after leftModule
    let leaving : Node := .jump .sample .brk none
    (∀ name, m.constant? name =
      firstOpening? [⟨.klass, "A"⟩, ⟨.module, "B"⟩, ⟨.klass, "C"⟩, ⟨.module, "A"⟩] name) ∧
    (Machine.initial .default).Retains m ∧ m.Conflicts .module "A" ∧
    ∃ m₁ o, leaving.EndsWith (m.inScope 1 .empty) o m₁ ∧
      m₁.context.constants.get? "B" = some 1 := by
  intro m leaving
  obtain ⟨hcalls, hnew, -, hbody⟩ := constants_permanent
  obtain ⟨hgrounds, hconstant, -⟩ := hnew .empty .default (some []) leftModule
  have hopenings : (Machine.initial .default).openings leftModule =
      [⟨.klass, "A"⟩, ⟨.module, "B"⟩, ⟨.klass, "C"⟩, ⟨.module, "A"⟩] := by decide +kernel
  obtain ⟨hlater, hmoments, -⟩ := hcalls hgrounds leftModule
  have hopens : m.Opens .module "B" 1 m := .again (by decide +kernel) (by decide +kernel)
  have hends : leaving.EndsWith (m.inScope 1 .empty) _ _ :=
    Node.endsWith_of_evaluate (evaluate 9 leaving _).eta.symm rfl
  refine ⟨fun name => ?_, ?_, ⟨0, by decide +kernel, by decide +kernel⟩, _, _, hends,
    (hbody hlater hopens hends).2.1⟩
  · rw [← hopenings]
    exact hconstant name
  · exact (pairwise_concat_iff.mp hmoments).2 _ List.mem_cons_self

end Treewalk
