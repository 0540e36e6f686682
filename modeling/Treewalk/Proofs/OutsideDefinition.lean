import Mathlib.Data.List.Nodup
import Treewalk.Lint.OutsideDefinition
import Treewalk.Proofs.Reach
import Treewalk.Proofs.Sample
import Treewalk.Proofs.TopLevel

/-!
# The rule `undef-outside-definition` is exact

The rule looks at where a statement stands, evaluation at which scopes are open. In a new context
the two agree: what stands under no class or module is evaluated where no scope is open, or is not
evaluated at all, since bodies are only stored where one is. And where the rule reports nothing, no
statement that acts on a scope can miss one, whatever the context: `undefOutsideDefinition_exact`.

That a reported statement fails at once is read from the journal: the entry of its start is followed
by that of its end, `Answered`.
-/

set_option autoImplicit false

namespace Treewalk

/-! ## Places in a tree -/

/-- The node stands somewhere in the tree, under a class or module or under none. -/
def Node.StandsIn (root : Node) (inside : Bool) (n : Node) : Prop :=
  ∃ v ∈ root.visits, v.node = n ∧ v.path.any Node.isScope = inside

namespace Node

variable {root n c : Node} {inside : Bool}

theorem mem_walkFrom_child {path : List Node} {v : Visit}
    (hv : v ∈ n.walkFrom (fun _ => true) path) (hc : c ∈ v.node.childList) :
    ⟨c, v.node :: v.path⟩ ∈ n.walkFrom (fun _ => true) path := by
  induction n using Node.induction generalizing path with
  | step n ih =>
    rw [walkFrom_eq, if_pos rfl] at hv ⊢
    refine List.mem_cons_of_mem _ (List.mem_flatMap.mpr ?_)
    rcases List.mem_cons.mp hv with rfl | hv
    · refine ⟨c, hc, ?_⟩
      rw [walkFrom_eq]
      exact List.mem_cons_self
    · obtain ⟨d, hd, hv⟩ := List.mem_flatMap.mp hv
      exact ⟨d, hd, ih d hd hv⟩

theorem standsIn_root (root : Node) : root.StandsIn false root := by
  refine ⟨⟨root, []⟩, ?_, rfl, rfl⟩
  rw [visits, walk, walkFrom_eq]
  exact List.mem_cons_self

theorem StandsIn.child (h : root.StandsIn inside n) (hc : c ∈ n.childList) :
    root.StandsIn (n.isScope || inside) c := by
  obtain ⟨v, hv, rfl, hpath⟩ := h
  refine ⟨⟨c, v.node :: v.path⟩, mem_walkFrom_child hv hc, rfl, ?_⟩
  rw [List.any_cons, hpath]

/-- A part of a node that does not open a scope stands where the node stands. -/
theorem StandsIn.part (h : root.StandsIn inside n) (hscopes : n.handlesScopes = false)
    (hc : c ∈ n.parts) : root.StandsIn inside c := by
  have hscope : n.isScope = false := by
    cases n with
    | scope => exact absurd hscopes Bool.noConfusion
    | _ => rfl
  have hchild := h.child (mem_childList_of_mem_parts hc)
  rw [hscope] at hchild
  exact hchild

/-- A node that is not shared stands in one place. -/
theorem StandsIn.unique (hids : (root.visits.map (·.node.id)).Nodup)
    (h : root.StandsIn true n) (h' : root.StandsIn false n) : False := by
  obtain ⟨v, hv, hn, hpath⟩ := h
  obtain ⟨v', hv', hn', hpath'⟩ := h'
  have he : v = v' := List.inj_on_of_nodup_map hids hv hv' (by rw [hn, hn'])
  rw [he, hpath'] at hpath
  exact absurd hpath Bool.noConfusion

end Node

/-! ## Statements that fail at once -/

/-- Where the journal says that a node of this sort was started, no scope was open, and the next
entry says that it failed for want of one. -/
def Answered (P : Node → Prop) (es : List Event) : Prop :=
  ∀ before n c h after, es = before ++ .started .evaluating n c h :: after → P n →
    c.scopes = [] ∧ ∃ cause rest, n.scopeFault? = some cause ∧
      after = .ended .evaluating n (.error (.fault cause (some n.location))) c h :: rest

namespace Answered

variable {P : Node → Prop} {es : List Event} {e : Event}

theorem nil : Answered P [] :=
  fun before _ _ _ _ h => absurd h (by simp)

theorem append (h : Answered P es) (he : ∀ n c hp, e = .started .evaluating n c hp → ¬ P n) :
    Answered P (es ++ [e]) := by
  intro before n c hp after heq hP
  rcases split_of_added heq with ⟨hstart, -⟩ | ⟨rest, rfl, hes⟩
  · exact absurd hP (he n c hp hstart)
  · obtain ⟨hscopes, cause, rest', hcause, rfl⟩ := h before n c hp rest hes hP
    exact ⟨hscopes, cause, _, hcause, rfl⟩

/-- A statement that fails at once. -/
theorem answer (h : Answered P es) {n : Node} {cause : Fault} {c : Context} {hp : Heap}
    (hcause : n.scopeFault? = some cause) (hscopes : c.scopes = []) :
    Answered P (es ++ [.started .evaluating n c hp] ++
      [.ended .evaluating n (.error (.fault cause (some n.location))) c hp]) := by
  intro before n' c' hp' after heq hP
  rcases split_of_added heq with ⟨hstart, -⟩ | ⟨rest, rfl, hes⟩
  · exact absurd hstart (by simp)
  · rcases split_of_added hes with ⟨hstart, rfl⟩ | ⟨rest', rfl, hes'⟩
    · cases hstart
      exact ⟨hscopes, cause, [], hcause, rfl⟩
    · obtain ⟨hscopes', cause', rest'', hcause', rfl⟩ := h before n' c' hp' rest' hes' hP
      exact ⟨hscopes', cause', _, hcause', rfl⟩

theorem answer_record {m : Machine} (h : Answered P m.entries) {n : Node} {cause : Fault}
    (hcause : n.scopeFault? = some cause) (hscopes : m.context.scopes = []) :
    Answered P ((m.record (.started .evaluating n)).record
      (.ended .evaluating n (.error (.fault cause (some n.location))))).entries := by
  cases hj : m.journal with
  | none =>
    rw [Machine.record_of_none hj, Machine.record_of_none hj]
    exact h
  | some es =>
    have hkept : m.journal.isSome = true := by rw [hj]; rfl
    rw [Machine.entries_record_of_kept (Machine.kept_record hkept _),
      Machine.entries_record_of_kept hkept]
    exact h.answer hcause hscopes

end Answered

/-! ## Below classes and modules -/

/-- Any way to end will do, if statements of a certain sort fail at once. -/
def answering (P : Node → Prop) : Storing :=
  ⟨fun _ _ es => Answered P es, fun _ => True, fun _ => True, True⟩

/-- What is evaluated stands in a certain part of a tree; what is stored stands under a class or
module. -/
def Roles.placed (root : Node) (inside : Bool) (S : ScopeId → Prop) : Roles :=
  ⟨root.StandsIn inside, root.StandsIn true, fun _ => True, fun _ => True, S, True, True⟩

section

variable {root : Node} {S : ScopeId → Prop} {P : Node → Prop}

abbrev answeringContract (root : Node) (S : ScopeId → Prop) (P : Node → Prop) : Contract :=
  (answering P).contract S (root.StandsIn true)

/-- There are no statements of that sort there, and none comes in from elsewhere. -/
theorem inside_closed (hP : ∀ n, root.StandsIn true n → ¬ P n) :
    (answeringContract root S P).Closed (.placed root true S) := by
  have hchild : ∀ {n c : Node}, root.StandsIn true n → c ∈ n.childList → root.StandsIn true c := by
    intro n c hn hc
    have h := hn.child hc
    rw [Bool.or_true] at h
    exact h
  refine Storing.closed rfl rfl trivial (fun _ _ _ => trivial) id (fun e he hes => ?_) trivial
    (fun _ h => h) (fun n hn => ?_) fun n _ => ?_
  · refine hes.append fun n c hp hstart => ?_
    subst hstart
    exact hP n (he n rfl)
  · exact .refl n (fun _ => ⟨rfl, trivial⟩) (fun _ => trivial) (fun _ _ _ _ _ => ⟨rfl, trivial⟩)
      (fun _ => trivial)
      (fun c hc => ⟨rfl, hchild hn (Node.mem_childList_of_mem_parts hc)⟩)
      (fun b hb => ⟨rfl, hchild hn (Node.mem_childList_of_stored hb)⟩) fun _ _ => ⟨rfl, trivial⟩
  · exact .refl n (fun _ => ⟨rfl, trivial⟩) (fun _ => trivial) fun _ _ => ⟨rfl, trivial⟩

/-! ## Under none -/

theorem evaluate_of_scopeFault {fuel : Nat} {n : Node} {cause : Fault}
    (hn : n.scopeFault? = some cause) {m : Machine} (hm : m.context.currentScope? = none) :
    evaluate (fuel + 1) n m = (.error (.fault cause (some n.location)),
      (m.record (.started .evaluating n)).record
        (.ended .evaluating n (.error (.fault cause (some n.location))))) := by
  have hstart : (m.record (.started .evaluating n)).context.currentScope? = none := hm
  rw [evaluate, Eval.observed_eq, Eval.step_of_scopeFault hn fuel (evaluate fuel) hstart]

theorem outside_topLevel (hinside : ∀ n, root.StandsIn true n → ¬ P n)
    (hP : ∀ n, n.scopeFault? = none → ¬ P n) :
    (answeringContract root S P).TopLevel (.placed root false S) := by
  have hclosed : (answeringContract root S P).Closed (.placed root true S) := inside_closed hinside
  have hstart : ∀ {m : Machine} {n : Node}, n.scopeFault? = none →
      (answeringContract root S P).inv m →
      (answeringContract root S P).Step m (m.record (.started .evaluating n)) := by
    intro m n hact hm
    refine Storing.step_record hm fun hes => hes.append fun n' c hp h => ?_
    cases h
    exact hP n hact
  have hend : ∀ {m : Machine} {n : Node} (o : Outcome Value), (answeringContract root S P).inv m →
      (answeringContract root S P).Step m (m.record (.ended .evaluating n o)) :=
    fun o hm => Storing.step_record hm fun hes => hes.append fun _ _ _ h => absurd h (by simp)
  exact
    { hclosed.toPlain with
      tag := fun _ => trivial
      target := fun _ => trivial
      misuse := fun _ => trivial
      signal := fun _ => trivial
      starves := trivial
      loops := trivial
      define := fun _ _ => trivial
      parts := fun hn hscopes hc => Node.StandsIn.part hn hscopes hc
      start := fun _ hact hm => hstart hact hm
      ended := fun o _ _ hm => hend o hm
      acts := by
        intro fuel n cause _ hcause m hm
        rw [evaluate_of_scopeFault hcause (congrArg List.head? hm.2)]
        exact ⟨⟨⟨⟨hm.1.1, hm.1.2.answer_record hcause hm.2⟩, hm.2⟩, trivial⟩, trivial⟩
      opens := by
        intro fuel t sort name b hn
        have hJ := hclosed.congruence
        have hbody : ∀ c ∈ b, root.StandsIn true c := fun c hc =>
          Node.StandsIn.child hn (by cases hc; exact List.mem_singleton_self _)
        have hsteps : ((answeringContract root S P).likeness (.placed root true S)).Steps
            (.scope t sort name b) (.scope t sort name b) :=
          .scope ⟨rfl, trivial⟩ (Likeness.optionRel_same fun c hc => ⟨rfl, hbody c hc⟩)
        have hstep := hJ.stepOf (fun _ _ hc => hJ.evaluate fuel hc) hsteps
        exact Contract.observed (hstep.imp fun _ _ => trivial) (fun _ hm => hstart rfl hm)
          fun _ o hm => hend o hm }

end

/-! ## Where a scope is open -/

/-- The error says that there is no scope to undefine or rename a method in. -/
def Error.LacksScope : Error → Prop
  | .fault (.noScopeToUndef _) _ | .fault .noScopeToAlias _ => True
  | _ => False

theorem Fault.not_lacksScope {c : Fault} (h : c.Arises False) (l : Option Location) :
    ¬ (Error.fault c l).LacksScope := by
  cases c with
  | noScopeToUndef | noScopeToAlias => exact h.elim
  | _ => exact id

/-- Some scope is open and stays open, and no statement misses one. -/
def housed : Contract where
  inv m := m.context.scopes ≠ []
  change m m' := m'.context.scopes = m.context.scopes
  error e := ¬ e.LacksScope
  signal _ := True
  starves := True
  refl _ := rfl
  trans h h' := h'.trans h

/-- Everything may take part, but there is a scope that is open. -/
def Roles.housed : Roles := { Roles.any with stray := False }

theorem housed_closed : housed.Closed .housed where
  fault c t hc _ := Fault.not_lacksScope hc _
  stray hm hnone := hm (List.head?_eq_none_iff.mp hnone)
  currentScope _ _ := trivial
  constant _ _ := trivial
  method _ _ _ := ⟨trivial, fun _ _ => trivial⟩
  startAssigning _ hm := ⟨hm, rfl⟩
  endAssigning _ _ hm := ⟨hm, rfl⟩
  assignLocal _ _ hm := ⟨hm, rfl⟩
  define hm _ _ _ := ⟨hm, rfl⟩
  undef hm _ _ := ⟨hm, rfl⟩
  addAlias hm _ _ := ⟨hm, rfl⟩
  warn name l hm _ := by
    obtain ⟨warnings, hw⟩ := Context.exists_warn_eq _ _ l
    rw [hw]
    exact ⟨hm, rfl⟩
  create _ hm _ := ⟨trivial, hm, rfl⟩
  openScope _ _ := List.cons_ne_nil _ _
  closeScope {m m' s} hm _ h := by
    have hsame : m'.context.scopes.tail = m.context.scopes := congrArg List.tail h.change
    refine ⟨?_, hsame⟩
    show m'.context.scopes.tail ≠ []
    rw [hsame]
    exact hm
  enterEnvironment _ hm := hm
  leaveEnvironment _ _ h := ⟨h.inv, h.change⟩
  steps n _ := .refl n (fun _ => ⟨rfl, trivial⟩) (fun _ => id) (fun _ _ _ _ _ => ⟨rfl, trivial⟩)
    (fun _ => trivial) (fun _ _ => ⟨rfl, trivial⟩) (fun _ _ => ⟨rfl, trivial⟩)
    fun _ _ => ⟨rfl, trivial⟩
  assigns n _ := .refl n (fun _ => ⟨rfl, trivial⟩) (fun _ => id) fun _ _ => ⟨rfl, trivial⟩
  runnable _ _ := trivial
  starves := trivial
  startEvaluating _ hm := ⟨hm, rfl⟩
  endEvaluating _ _ hm := ⟨hm, rfl⟩
  enterCall hm _ := hm
  leaveCall _ h := ⟨h.inv, h.change⟩

/-! ## Trees on which nothing is reported -/

/-- No statement misses a scope, whatever is open. -/
def scopesFound : Contract where
  inv _ := True
  change _ _ := True
  error e := ¬ e.LacksScope
  signal _ := True
  starves := True
  refl _ := trivial
  trans _ _ := trivial

theorem scopesFound_runScope (fuel : Nat) (s : ScopeId) (b : Option Node) :
    scopesFound.Meets (fun _ => True) (Eval.runScope (evaluate fuel) s b) := by
  cases b with
  | none => exact Contract.yield trivial
  | some n =>
    -- The scope that is opened houses the body.
    intro m _
    have hbody := housed_closed.meets_withNewEnvironment .empty
      (housed_closed.evaluate fuel (n := n) trivial)
    have ho := (hbody { m with context := m.context.openScope s } (List.cons_ne_nil _ _)).2
    exact ⟨⟨trivial, trivial⟩, ho⟩

theorem scopesFound_plain (root : Node) :
    scopesFound.Plain { Roles.housed with node := root.StandsIn false } where
  fault _ _ hc _ := Fault.not_lacksScope hc _
  startAssigning _ _ := ⟨trivial, trivial⟩
  endAssigning _ _ _ := ⟨trivial, trivial⟩
  assignLocal _ _ _ := ⟨trivial, trivial⟩
  constant _ _ := trivial
  create _ _ _ := ⟨trivial, trivial, trivial⟩

theorem scopesFound_topLevel {root : Node}
    (hnone : ∀ n, root.StandsIn false n → n.scopeFault? = none) :
    scopesFound.TopLevel { Roles.housed with node := root.StandsIn false } where
  toPlain := scopesFound_plain root
  tag _ := trivial
  target _ := trivial
  misuse _ := id
  signal _ := trivial
  starves := trivial
  loops := trivial
  define _ _ := id
  parts hn hscopes hc := Node.StandsIn.part hn hscopes hc
  start _ _ _ := ⟨trivial, trivial⟩
  ended _ _ _ _ := ⟨trivial, trivial⟩
  acts fuel n cause hn hcause := by
    rw [hnone n hn] at hcause
    exact absurd hcause (by simp)
  opens fuel t sort name b _ := by
    have hopened := (scopesFound_plain root).meets_openConstant (t := t) trivial sort name
    have hstep := Contract.andThen hopened fun s _ => scopesFound_runScope fuel s b
    exact Contract.observed hstep (fun _ _ => ⟨trivial, trivial⟩) fun _ _ _ => ⟨trivial, trivial⟩

/-! ## Both directions -/

namespace Lint

/-- The rule looks at the nodes that can miss a scope. -/
theorem scopeAction_isSome (n : Node) : (scopeAction? n).isSome = n.scopeFault?.isSome := by
  cases n with
  | _ => rfl

/-- What is reported can miss a scope and stands under no class or module. -/
theorem of_outsideDefinition {v : Visit} {f : Finding} (h : outsideDefinition? v = some f) :
    v.node.scopeFault?.isSome = true ∧ v.path.any Node.isScope = false := by
  unfold outsideDefinition? at h
  split at h
  · exact absurd h (by simp)
  · next hact =>
    split at h
    · exact absurd h (by simp)
    · next hpath =>
      rw [← scopeAction_isSome, hact]
      exact ⟨rfl, Bool.eq_false_iff.mpr hpath⟩

/-- What stands under none and is not reported cannot miss one. -/
theorem of_not_outsideDefinition {v : Visit} (h : outsideDefinition? v = none)
    (hpath : v.path.any Node.isScope = false) : v.node.scopeFault? = none := by
  unfold outsideDefinition? at h
  split at h
  · next hact =>
    have hnone := scopeAction_isSome v.node
    rw [hact] at hnone
    exact Option.not_isSome_iff_eq_none.mp (by rw [← hnone]; exact Bool.noConfusion)
  · rw [hpath, if_neg Bool.false_ne_true] at h
    exact absurd h (by simp)

end Lint

/-- A machine with a new context on a heap, which keeps a journal. -/
def Machine.fresh (h : Heap) (o : Options) : Machine :=
  ⟨(h.newContext o).1, (h.newContext o).2, some []⟩

/-- Nothing is within reach of a new context but the scopes it will make. -/
theorem Machine.within_fresh (h : Heap) (o : Options) (P : Node → Prop) :
    (fresh h o).Within (h.scopes.size ≤ ·) P where
  unborn _ hs := hs
  opened s hs := absurd hs List.not_mem_nil
  constant name s hs := absurd hs (by simp [fresh, Heap.newContext, Context.initial, Table.get?,
    Table.empty])
  superclass s p hs hp := by
    have hnone : h.scopes.parent? s = none := Lineage.parent?_eq_none _ hs
    exact absurd (hnone.symm.trans hp) (by simp)
  method s name method hs hm := by
    have hnone : h.scopes.slot? s name = none := Scopes.slot?_eq_none hs
    exact absurd (hnone.symm.trans hm) (by simp)

/-- A run from a new context: what the rule reports fails at once wherever it is started. -/
theorem answered_run {root : Node} (hids : (root.visits.map (·.node.id)).Nodup) (h : Heap)
    (o : Options) (fuel : Nat) :
    Answered (fun n => ∃ v ∈ root.visits, ∃ f, v.node = n ∧ Lint.outsideDefinition? v = some f)
      (evaluate fuel root (.fresh h o)).2.entries := by
  let Reported : Node → Prop :=
    fun n => ∃ v ∈ root.visits, ∃ f, v.node = n ∧ Lint.outsideDefinition? v = some f
  have hinside : ∀ n, root.StandsIn true n → ¬ Reported n := by
    rintro n hn ⟨v, hv, f, rfl, hf⟩
    exact hn.unique hids ⟨v, hv, rfl, (Lint.of_outsideDefinition hf).2⟩
  have hother : ∀ n, n.scopeFault? = none → ¬ Reported n := by
    rintro n hn ⟨v, hv, f, rfl, hf⟩
    have hsome := (Lint.of_outsideDefinition hf).1
    rw [hn] at hsome
    exact absurd hsome Bool.noConfusion
  have htop : (answeringContract root (h.scopes.size ≤ ·) Reported).TopLevel _ :=
    outside_topLevel hinside hother
  have hmeets := htop.evaluate fuel (n := root) root.standsIn_root
  exact (hmeets (.fresh h o) ⟨⟨Machine.within_fresh h o _, .nil⟩, rfl⟩).1.inv.1.2

/-- Where nothing is reported, no scope is missed: at top level there is nothing that could miss
one, and elsewhere there is one. -/
theorem not_lacksScope_evaluate {root : Node}
    (hnone : Lint.undefOutsideDefinition.run root = .ok []) (fuel : Nat) (m : Machine) {e : Error}
    (h : (evaluate fuel root m).1 = .error e) : ¬ e.LacksScope := by
  have hunreported : ∀ v ∈ root.visits, Lint.outsideDefinition? v = none :=
    List.filterMap_eq_nil_iff.mp (Except.ok.inj hnone)
  have houtside : ∀ n, root.StandsIn false n → n.scopeFault? = none := by
    rintro n ⟨v, hv, rfl, hpath⟩
    exact Lint.of_not_outsideDefinition (hunreported v hv) hpath
  by_cases hm : m.context.scopes = []
  · have hmeets := (scopesFound_topLevel houtside).evaluate fuel (n := root) root.standsIn_root
    have ho := (hmeets m ⟨trivial, hm⟩).2
    rw [h] at ho
    exact ho
  · have ho := (housed_closed.evaluate fuel (n := root) trivial m hm).2
    rw [h] at ho
    exact ho

/-- A program adds no such error to those of its tree. -/
theorem Outcome.not_lacksScope_received {root : Node} {r : Outcome Value}
    (hr : ∀ e, r = .error e → ¬ e.LacksScope) {e : Error} (h : r.received root = .error e) :
    ¬ e.LacksScope := by
  cases r with
  | error e' =>
    cases h
    exact hr e rfl
  | jump s =>
    obtain ⟨keyword, v, l⟩ := s
    cases keyword with
    | ret => exact absurd h (by simp [received])
    | brk | next =>
      cases h
      exact id
  | value | outOfFuel => exact absurd h (by simp [received])

/-- **The rule is exact.** In a new context, an evaluation of a statement that is reported happens
where no scope is open, and fails for that reason before anything else happens, if no node of the
tree is shared. And a tree on which nothing is reported never fails for that reason, in whatever
context. -/
theorem undefOutsideDefinition_exact :
    (∀ {root : Node}, (root.visits.map (·.node.id)).Nodup → ∀ (h : Heap) (o : Options) (fuel : Nat),
      ∀ v ∈ root.visits, ∀ f, Lint.outsideDefinition? v = some f →
      ∀ before c hp after, (run fuel root (.fresh h o)).2.entries =
          before ++ .started .evaluating v.node c hp :: after →
        c.scopes = [] ∧ ∃ cause rest, v.node.scopeFault? = some cause ∧ cause.sort = .type ∧
          after = .ended .evaluating v.node (.error (.fault cause (some v.node.location))) c hp ::
            rest) ∧
    ∀ {root : Node}, Lint.undefOutsideDefinition.run root = .ok [] → ∀ (fuel : Nat) (m : Machine),
      (∀ e, (evaluate fuel root m).1 = .error e → ¬ e.LacksScope) ∧
      ∀ e, (run fuel root m).1 = .error e → ¬ e.LacksScope := by
  refine ⟨fun {root} hids h o fuel v hv f hf before c hp after hentries => ?_,
    fun {root} hnone fuel m =>
      ⟨fun e he => not_lacksScope_evaluate hnone fuel m he, fun e he => ?_⟩⟩
  · rw [run_eq] at hentries
    obtain ⟨hscopes, cause, rest, hcause, hafter⟩ :=
      answered_run hids h o fuel before _ c hp after hentries ⟨v, hv, f, rfl, hf⟩
    exact ⟨hscopes, cause, rest, hcause, Node.sort_of_scopeFault hcause, hafter⟩
  · rw [run_eq] at he
    exact Outcome.not_lacksScope_received (fun _ => not_lacksScope_evaluate hnone fuel m) he

/-- An `undef` that stands under nothing. -/
def strayUndef : Node := .undef ⟨1, .sample⟩ (.literal ⟨2, .sample⟩ "f")

/-- The same under a class. -/
def housedUndef : Node := .scope ⟨3, .sample⟩ .klass "A" (some strayUndef)

/-- The one is reported and fails at its start. The other is not reported, and fails on a machine
with an open class for another reason. -/
theorem strayUndef_exact :
    let root : Node := .block ⟨0, .sample⟩ [strayUndef]
    let m := Machine.oneMethod .default strayUndef
    (∃ before c hp rest, c.scopes = [] ∧ (run 9 root (.fresh .empty .default)).2.entries =
        before ++ .started .evaluating strayUndef c hp :: .ended .evaluating strayUndef
          (.error (.fault (.noScopeToUndef (some "f")) (some .sample))) c hp :: rest) ∧
      (evaluate 9 housedUndef m).1.isValue = false ∧
      ∀ e, (evaluate 9 housedUndef m).1 = .error e → ¬ e.LacksScope := by
  intro root m
  have hvisits : root.visits = [⟨root, []⟩, ⟨strayUndef, [root]⟩,
      ⟨.literal ⟨2, .sample⟩ "f", [strayUndef, root]⟩] := by
    simp [Node.visits, Node.walk, Node.walkFrom_eq, root, strayUndef, Node.childList,
      Node.children, Children.toList]
  have hids : (root.visits.map (·.node.id)).Nodup := by
    rw [hvisits]
    decide
  have hstray : ⟨strayUndef, [root]⟩ ∈ root.visits := by
    rw [hvisits]
    simp
  have hnone : Lint.undefOutsideDefinition.run housedUndef = .ok [] := by
    refine congrArg Except.ok (List.isEmpty_iff.mp ?_)
    decide +kernel
  obtain ⟨before, c, hp, after, hentries⟩ : ∃ before c hp after,
      (run 9 root (.fresh .empty .default)).2.entries =
        before ++ .started .evaluating strayUndef c hp :: after := ⟨[_], _, _, _, rfl⟩
  obtain ⟨hscopes, cause, rest, hcause, -, rfl⟩ :=
    undefOutsideDefinition_exact.1 hids .empty .default 9 _ hstray _ rfl before c hp after hentries
  cases hcause
  refine ⟨⟨before, c, hp, rest, hscopes, hentries⟩, by decide +kernel, ?_⟩
  exact (undefOutsideDefinition_exact.2 hnone 9 m).1

end Treewalk
