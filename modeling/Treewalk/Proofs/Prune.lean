import Treewalk.Lint.Unreachable
import Treewalk.Proofs.Bodies
import Treewalk.Proofs.Fuel
import Treewalk.Proofs.Occurs

/-!
# Statements that never run

`Node.prune` drops, in every block of a tree, what stands after the first statement that jumps.
The rule `unreachable-code` reports exactly the trees that this changes, and a pruned tree does
what the tree does, on a machine whose stored bodies are pruned as well.

The evaluator knows nothing of keywords under line breaks; what makes the two agree is that a
statement the rule takes for a jump never yields a value: `evaluate_jumps`.
-/

set_option autoImplicit false

namespace Treewalk

namespace Lint

/-- The statements up to the first that jumps. -/
def upToJump : List Node → List Node
  | [] => []
  | n :: ns => if n.jumpKeyword?.isSome then [n] else n :: upToJump ns

end Lint

namespace Node

mutual

/-- The tree without the statements that never run. -/
def prune : Node → Node
  | .block t statements => .block t (Lint.upToJump (pruneList statements))
  | .dstr t parts => .dstr t (pruneList parts)
  | .dsymbol t parts => .dsymbol t (pruneList parts)
  | .array t elements => .array t (pruneList elements)
  | .localAssign t name value => .localAssign t name (pruneOption value)
  | .multiAssign t targets rest value =>
    .multiAssign t (pruneList targets) (pruneOption rest) (pruneOption value)
  | .newline t statement => .newline t (prune statement)
  | .whileLoop t condition body => .whileLoop t (prune condition) (prune body)
  | .jump t keyword value => .jump t keyword (pruneOption value)
  | .defined t expression => .defined t (prune expression)
  | .define t name params body => .define t name params (pruneOption body)
  | .call t name operands => .call t name (pruneList operands)
  | .scope t sort name body => .scope t sort name (pruneOption body)
  | .undef t name => .undef t (prune name)
  | .aliasName t newName oldName => .aliasName t (prune newName) (prune oldName)
  | .nil t => .nil t
  | .bool t value => .bool t value
  | .int t value whole => .int t value whole
  | .float t value => .float t value
  | .str t text => .str t text
  | .symbol t name => .symbol t name
  | .literal t name => .literal t name
  | .localVar t name => .localVar t name
  | .args params => .args params

def pruneList : List Node → List Node
  | [] => []
  | n :: ns => prune n :: pruneList ns

def pruneOption : Option Node → Option Node
  | none => none
  | some n => some (prune n)

end

@[simp] theorem pruneList_eq (ns : List Node) : pruneList ns = ns.map prune := by
  induction ns with
  | nil => rfl
  | cons n ns ih => rw [pruneList, ih, List.map_cons]

@[simp] theorem pruneOption_eq (o : Option Node) : pruneOption o = o.map prune := by
  cases o <;> rfl

/-! ## What pruning leaves -/

@[simp] theorem tag_prune (n : Node) : n.prune.tag = n.tag := by cases n <;> rfl

@[simp] theorem kind_prune (n : Node) : n.prune.kind = n.kind := by cases n <;> rfl

@[simp] theorem staticName?_prune (n : Node) : n.prune.staticName? = n.staticName? := by
  cases n <;> rfl

@[simp] theorem jumpKeyword?_prune (n : Node) : n.prune.jumpKeyword? = n.jumpKeyword? := by
  induction n using Node.induction with
  | step n ih =>
    cases n with
    | newline t statement => exact ih statement (List.mem_singleton_self _)
    | _ => rfl

end Node

namespace Lint

theorem upToJump_map_prune (ns : List Node) :
    upToJump (ns.map Node.prune) = (upToJump ns).map Node.prune := by
  induction ns with
  | nil => rfl
  | cons n ns ih =>
    rw [List.map_cons, upToJump, upToJump, Node.jumpKeyword?_prune]
    split
    · rfl
    · rw [ih, List.map_cons]

theorem upToJump_isPrefix (ns : List Node) : upToJump ns <+: ns := by
  induction ns with
  | nil => exact List.prefix_rfl
  | cons n ns ih =>
    rw [upToJump]
    split
    · exact ⟨ns, rfl⟩
    · exact (List.prefix_cons_inj n).mpr ih

theorem upToJump_upToJump (ns : List Node) : upToJump (upToJump ns) = upToJump ns := by
  induction ns with
  | nil => rfl
  | cons n ns ih =>
    rw [upToJump]
    split
    · next h => rw [upToJump, if_pos h]
    · next h => rw [upToJump, if_neg h, ih]

/-- Nothing is reported where nothing is dropped. -/
theorem afterJump?_eq_none_iff (ns : List Node) : afterJump? ns = none ↔ upToJump ns = ns := by
  induction ns with
  | nil => exact ⟨fun _ => rfl, fun _ => rfl⟩
  | cons n ns ih =>
    rw [upToJump]
    cases ns with
    | nil =>
      constructor
      · intro _
        split <;> rfl
      · exact fun _ => rfl
    | cons next rest =>
      rw [afterJump?]
      cases n.jumpKeyword? with
      | some keyword => simp
      | none => simp [ih]

end Lint

namespace Node

theorem map_eq_self_iff {f : Node → Node} {ns : List Node} : ns.map f = ns ↔ ∀ c ∈ ns, f c = c := by
  have h : ns.map f = ns.map (fun c => c) ↔ ∀ c ∈ ns, f c = c := List.map_inj_left
  rwa [List.map_id'] at h

/-- A block stays what it is if nothing is dropped from it and its statements stay. -/
theorem upToJump_map_eq_self_iff {ns : List Node} :
    Lint.upToJump (ns.map prune) = ns ↔ Lint.upToJump ns = ns ∧ ∀ c ∈ ns, c.prune = c := by
  constructor
  · intro h
    -- Nothing was dropped, since the length is the same.
    have hlength := congrArg List.length h
    have hwhole : Lint.upToJump (ns.map prune) = ns.map prune :=
      (Lint.upToJump_isPrefix _).eq_of_length (by rw [hlength, List.length_map])
    have hmap : ns.map prune = ns := hwhole.symm.trans h
    rw [hmap] at h
    exact ⟨h, map_eq_self_iff.mp hmap⟩
  · rintro ⟨h, hmap⟩
    rw [map_eq_self_iff.mpr hmap, h]

/-- A tree is its own pruned tree if nothing is reported at its root and its parts are. -/
theorem prune_eq_self_iff (n : Node) :
    n.prune = n ↔ Lint.unreachable? n = none ∧ ∀ c ∈ n.childList, c.prune = c := by
  cases n with
  | block t ns =>
    rw [prune, pruneList_eq, Lint.unreachable?, Option.map_eq_none_iff,
      Lint.afterJump?_eq_none_iff, block.injEq, eq_self, true_and]
    exact upToJump_map_eq_self_iff
  | nil | bool | int | float | str | symbol | literal | localVar | args =>
    simp [prune, Lint.unreachable?, childList, children, Children.toList]
  | dstr | dsymbol | array | call =>
    simp [prune, Lint.unreachable?, childList, children, Children.toList, map_eq_self_iff]
  | newline | whileLoop | defined | undef | aliasName =>
    simp [prune, Lint.unreachable?, childList, children, Children.toList]
  | localAssign t name o | jump t keyword o | scope t sort name o =>
    cases o <;>
      simp [prune, Lint.unreachable?, childList, children, Children.ofOption, Children.toList]
  | define t name params o =>
    cases o <;> simp [prune, Lint.unreachable?, childList, children, Children.toList]
  | multiAssign t ts rest value =>
    cases rest <;> cases value <;>
      simp [prune, Lint.unreachable?, childList, children, Children.toList, map_eq_self_iff,
        or_imp, forall_and]

theorem unreachable?_prune (n : Node) : Lint.unreachable? n.prune = none := by
  cases n with
  | block t ns =>
    rw [prune, Lint.unreachable?, (Lint.afterJump?_eq_none_iff _).mpr (Lint.upToJump_upToJump _)]
    rfl
  | _ => rfl

/-- The parts of a pruned tree are pruned parts of the tree. -/
theorem exists_of_mem_childList_prune {c n : Node} (h : c ∈ n.prune.childList) :
    ∃ d ∈ n.childList, c = d.prune := by
  cases n with
  | block t ns =>
    rw [prune, pruneList_eq, Lint.upToJump_map_prune] at h
    obtain ⟨d, hd, rfl⟩ := List.mem_map.mp h
    exact ⟨d, (Lint.upToJump_isPrefix ns).subset hd, rfl⟩
  | nil | bool | int | float | str | symbol | literal | localVar | args =>
    exact absurd h List.not_mem_nil
  | dstr | dsymbol | array | call =>
    rw [prune, pruneList_eq] at h
    obtain ⟨d, hd, rfl⟩ := List.mem_map.mp h
    exact ⟨d, hd, rfl⟩
  | newline | defined | undef =>
    obtain rfl := List.mem_singleton.mp h
    exact ⟨_, List.mem_singleton_self _, rfl⟩
  | whileLoop t a b | aliasName t a b =>
    rcases List.mem_cons.mp h with rfl | h
    · exact ⟨a, List.mem_cons_self, rfl⟩
    · obtain rfl := List.mem_singleton.mp h
      exact ⟨b, List.mem_cons_of_mem _ (List.mem_singleton_self _), rfl⟩
  | localAssign t name o | jump t keyword o | scope t sort name o =>
    cases o with
    | none => exact absurd h List.not_mem_nil
    | some d =>
      obtain rfl := List.mem_singleton.mp h
      exact ⟨d, List.mem_singleton_self _, rfl⟩
  | define t name params o =>
    rcases List.mem_cons.mp h with rfl | h
    · exact ⟨_, List.mem_cons_self, rfl⟩
    · rw [pruneOption_eq, Option.mem_toList, Option.map_eq_some_iff] at h
      obtain ⟨d, hd, rfl⟩ := h
      exact ⟨d, List.mem_cons_of_mem _ (Option.mem_toList.mpr hd), rfl⟩
  | multiAssign t ts rest value =>
    simp only [prune, pruneList_eq, pruneOption_eq, childList, children, Children.toList,
      List.mem_append, List.mem_map, Option.mem_toList,
      Option.map_eq_some_iff] at h ⊢
    rcases h with (⟨d, hd, rfl⟩ | ⟨d, hd, rfl⟩) | ⟨d, hd, rfl⟩
    · exact ⟨d, .inl (.inl hd), rfl⟩
    · exact ⟨d, .inl (.inr hd), rfl⟩
    · exact ⟨d, .inr hd, rfl⟩

@[simp] theorem prune_prune (n : Node) : n.prune.prune = n.prune := by
  induction n using Node.induction with
  | step n ih =>
    refine (prune_eq_self_iff n.prune).mpr ⟨unreachable?_prune n, fun c hc => ?_⟩
    obtain ⟨d, hd, rfl⟩ := exists_of_mem_childList_prune hc
    exact ih d hd

theorem prune_eq_self_iff_occurs (n : Node) :
    n.prune = n ↔ ∀ d : Node, d.Occurs n → Lint.unreachable? d = none := by
  induction n using Node.induction with
  | step n ih =>
    rw [prune_eq_self_iff, forall_occurs_iff (P := fun d => Lint.unreachable? d = none)]
    refine and_congr_right fun _ => ?_
    exact ⟨fun h c hc => (ih c hc).mp (h c hc), fun h c hc => (ih c hc).mpr (h c hc)⟩

end Node

/-- The rule reports nothing on the trees that pruning leaves alone, and on no others. -/
theorem Lint.unreachableCode_run_eq_nil_iff (t : Node) :
    unreachableCode.run t = .ok [] ↔ t.prune = t := by
  have hrun : unreachableCode.run t = .ok [] ↔
      ∀ v ∈ t.visits, unreachable? v.node = none := by
    rw [← List.filterMap_eq_nil_iff]
    exact ⟨fun h => Except.ok.inj h, fun h => congrArg Except.ok h⟩
  rw [hrun, Node.prune_eq_self_iff_occurs]
  exact Node.forall_visits_iff (P := fun d => unreachable? d = none)

/-! ## What a pruned tree does -/

namespace Eval

variable {α β : Type} {x : Eval α}

theorem andThen_ne_value {f : α → Eval β} (h : ∀ a m v, (f a m).1 ≠ .value v) (m : Machine)
    (v : β) : ((x >>= f) m).1 ≠ .value v := by
  show (andThen x f m).1 ≠ .value v
  unfold andThen
  rcases x m with ⟨o, m'⟩
  cases o with
  | value a => exact h a m' v
  | jump | error | outOfFuel => simp

/-- What follows a computation that yields no value plays no part. -/
theorem andThen_congr_of_ne_value (h : ∀ m v, (x m).1 ≠ .value v) (f g : α → Eval β) :
    x >>= f = x >>= g := by
  funext m
  show andThen x f m = andThen x g m
  unfold andThen
  rcases hx : x m with ⟨o, m'⟩
  cases o with
  | value v => exact absurd (congrArg Prod.fst hx) (h m v)
  | jump | error | outOfFuel => rfl

end Eval

/-- What the rule takes for a jump does not yield a value, whatever the line breaks around it. -/
theorem evaluate_jumps {n : Node} (h : n.jumpKeyword?.isSome = true) (fuel : Nat) (m : Machine)
    (v : Value) : (evaluate fuel n m).1 ≠ .value v := by
  induction fuel generalizing n m with
  | zero => simp [evaluate, Eval.outOfFuel]
  | succ fuel ih =>
    cases n with
    | newline t statement => exact ih (n := statement) h _
    | jump t keyword o =>
      cases o with
      | none => simp [evaluate, Eval.observed, Eval.step, Eval.jump]
      | some c => exact Eval.andThen_ne_value (fun a m w => by simp [Eval.jump]) _ v
    | _ => exact absurd h Bool.false_ne_true

namespace Node

theorem forall₂_prune (ns : List Node) :
    List.Forall₂ (Likeness.renoded prune).node ns (pruneList ns) := by
  rw [pruneList_eq]
  induction ns with
  | nil => exact .nil
  | cons n ns ih => exact .cons rfl ih

theorem optionRel_prune (o : Option Node) :
    Option.Rel (Likeness.renoded prune).node o (pruneOption o) := by
  rw [pruneOption_eq]
  exact optionRel_renoded _ o

theorem operands_prune (n : Node) : (Likeness.renoded prune).Operands n n.prune := by
  cases h : n.staticName? with
  | some name => exact .spelledOut h (by rw [staticName?_prune, h])
  | none => exact .computed h (by rw [staticName?_prune, h]) rfl (tag_prune n).symm

theorem assigns_prune : ∀ n n' : Node, n.prune = n' → (Likeness.renoded prune).Assigns n n' := by
  rintro n _ rfl
  cases n with
  | localAssign => exact .localAssign
  | multiAssign => exact .multiAssign rfl (forall₂_prune _) (optionRel_prune _)
  | _ => exact .other rfl rfl (kind_prune _).symm trivial

/-- Every node but a block takes the same step as the pruned one. -/
theorem steps_prune {n : Node} (h : ¬ ∃ t ns, n = .block t ns) :
    (Likeness.renoded prune).Steps n n.prune := by
  cases n with
  | block t ns => exact absurd ⟨t, ns, rfl⟩ h
  | nil => exact .nil
  | bool => exact .bool
  | int => exact .int
  | float => exact .float
  | str => exact .str
  | dstr => exact .dstr (forall₂_prune _)
  | symbol => exact .symbol
  | dsymbol => exact .dsymbol (forall₂_prune _)
  | literal => exact .literal trivial
  | array => exact .array (forall₂_prune _)
  | localVar => exact .localVar rfl
  | localAssign t name o =>
    cases o with
    | none => exact .localAssignOnly trivial
    | some v => exact .localAssign rfl
  | multiAssign t ts rest o =>
    cases o with
    | none => exact .multiAssignOnly trivial
    | some v => exact .multiAssign (forall₂_prune _) (optionRel_prune _) rfl
  | newline => exact .newline rfl
  | whileLoop => exact .whileLoop trivial rfl rfl
  | jump => exact .jump (fun _ => rfl) (optionRel_prune _)
  | defined => exact .defined rfl
  | args => exact .args trivial
  | define => exact .define rfl rfl (optionRel_prune _)
  | call => exact .call rfl (forall₂_prune _)
  | scope => exact .scope rfl (optionRel_prune _)
  | undef => exact .undef rfl (operands_prune _)
  | aliasName => exact .aliasName rfl (operands_prune _) (operands_prune _)

end Node

/-- Statements are evaluated up to the first that jumps, whatever follows it. -/
theorem renode_last {ev ev' : Node → Eval Value}
    (hev : ∀ n, (renode Node.prune).judgment _ Eq (ev n) (ev' n.prune))
    (hjumps : ∀ n : Node, n.jumpKeyword?.isSome = true → ∀ m v, (ev n m).1 ≠ .value v)
    (ns : List Node) (v : Value) :
    (renode Node.prune).judgment _ Eq (Eval.last ev v ns)
      (Eval.last ev' v ((Lint.upToJump ns).map Node.prune)) := by
  have hJ := (renode_stable (f := Node.prune)).compatible
  induction ns generalizing v with
  | nil => exact hJ.yield rfl
  | cons n ns ih =>
    rw [Lint.upToJump]
    split
    · next h =>
      -- Nothing goes on after a jump, so what goes on there may be taken to be nothing.
      rw [Eval.last, Eval.andThen_congr_of_ne_value (hjumps n h) _ fun w => Eval.last ev w []]
      exact hJ.andThenEq (hev n) fun w => hJ.yield rfl
    · exact hJ.andThenEq (hev n) fun w => ih w

/-- Induction on the fuel: bodies of methods are covered since they are nodes too. -/
theorem renode_evaluate (fuel : Nat) (n : Node) :
    (renode Node.prune).judgment _ Eq (evaluate fuel n) (evaluate fuel n.prune) := by
  have hK : (renode Node.prune).Stable (.renoded Node.prune) := renode_stable
  induction fuel generalizing n with
  | zero => exact Simulation.outOfFuel
  | succ fuel ih =>
    have hev : ∀ c c' : Node, c.prune = c' →
        (renode Node.prune).judgment _ Eq (evaluate fuel c) (evaluate fuel c') := by
      rintro c _ rfl
      exact ih c
    have hstep : (renode Node.prune).judgment _ Eq (Eval.step fuel (evaluate fuel) n)
        (Eval.step fuel (evaluate fuel) n.prune) := by
      -- A block is the one node whose own step is another after pruning.
      by_cases hb : ∃ t ns, n = .block t ns
      · obtain ⟨t, ns, rfl⟩ := hb
        rw [Node.prune, Node.pruneList_eq, Lint.upToJump_map_prune]
        exact renode_last ih (fun c hc => evaluate_jumps hc fuel) ns .nil
      · exact hK.compatible.step Node.assigns_prune hev
          (fun _ _ _ _ _ hc hb => hK.compatible.loop (k := 0) Simulation.outOfFuel hc hb fuel)
          (fun vs ht hm => hK.compatible.invoke hK.compatible ht hm (hK.like_enterCall ht) hev vs)
          (Node.steps_prune hb)
    exact hK.like_observed rfl hstep

/-- The machine with every stored body pruned, and the nodes in its journal; its context and its
environments are the same. -/
abbrev Machine.prune (m : Machine) : Machine := m.mapNodes Node.prune

theorem evaluate_prune (fuel : Nat) (n : Node) (m : Machine) :
    evaluate fuel n.prune m.prune = ((evaluate fuel n m).1, (evaluate fuel n m).2.prune) := by
  rcases renode_evaluate fuel n m m.prune rfl with h | ⟨hm, ho⟩
  · exact absurd h.1 id
  · exact Prod.ext ho.eq.symm hm.symm

/-- **The rule is right about the evaluator.** A pruned tree ends on the pruned machine exactly if
the tree ends, in the same way and with the same machine but for the pruning of stored bodies. On a
pruned tree the rule reports nothing, and it reports something exactly where pruning drops
something. -/
theorem unreachableCode_sound :
    (∀ (t : Node) (m : Machine) (o : Outcome Value) (m₁ : Machine),
      t.prune.EndsWith m.prune o m₁ ↔ ∃ m', t.EndsWith m o m' ∧ m₁ = m'.prune) ∧
    (∀ t : Node, Lint.unreachableCode.run t.prune = .ok []) ∧
    ∀ t : Node, t.prune ≠ t ↔ Lint.unreachableCode.run t ≠ .ok [] := by
  refine ⟨fun t m o m₁ => ?_, fun t => ?_, fun t => ?_⟩
  · constructor
    · rintro ⟨ho, least, h⟩
      -- The fuel that is enough for the pruned tree is enough for the tree.
      have hprune := evaluate_prune least t m
      rw [h least (Nat.le_refl _)] at hprune
      obtain ⟨rfl, rfl⟩ := Prod.mk.inj hprune
      exact ⟨_, Node.endsWith_of_isFinal ho, rfl⟩
    · rintro ⟨m', ⟨ho, least, h⟩, rfl⟩
      refine ⟨ho, least, fun fuel hle => ?_⟩
      rw [evaluate_prune, h fuel hle]
  · exact (Lint.unreachableCode_run_eq_nil_iff _).mpr (Node.prune_prune t)
  · exact not_congr (Lint.unreachableCode_run_eq_nil_iff t).symm

end Treewalk
