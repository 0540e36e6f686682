import Treewalk.Proofs.Judgment
import Treewalk.Syntax.Children

/-!
# One step of evaluation

`Likeness.Steps` relates two nodes of one kind whose parts are alike, as far as evaluation looks at
them; `Likeness.Assigns` does so for assignment. `Compatible.step` goes through the cases of
`Eval.step`, layer by layer: a compatible judgment that holds of the parts holds of the nodes.
`Congruence.evaluate` closes the recursion for judgments that hold whatever the fuel.
-/

set_option autoImplicit false

namespace Treewalk

/-- Is this a node that a value can be assigned to? -/
def Node.isTarget : Node → Bool
  | .localAssign .. | .multiAssign .. => true
  | _ => false

/-- Is this a node that raises jumps or receives them? -/
def Node.handlesJumps : Node → Bool
  | .whileLoop .. | .jump .. | .defined .. => true
  | _ => false

/-- Is this a node that acts on a scope, or opens one? -/
def Node.handlesScopes : Node → Bool
  | .define .. | .call .. | .scope .. | .undef .. | .aliasName .. => true
  | _ => false

namespace Node

/-- The children that take part in a node's own evaluation: all but what a definition stores. -/
def parts : Node → List Node
  | .define .. => []
  | n => n.childList

/-- The body that a definition stores. -/
def stored? : Node → Option Node
  | .define _ _ _ body => body
  | _ => none

theorem mem_childList_of_mem_parts {c n : Node} (h : c ∈ n.parts) : c ∈ n.childList := by
  cases n with
  | define => exact absurd h List.not_mem_nil
  | _ => exact h

theorem mem_childList_of_stored {b n : Node} (h : b ∈ n.stored?) : b ∈ n.childList := by
  cases n with
  | define t name p body => exact List.mem_cons_of_mem _ (Option.mem_toList.mpr h)
  | _ => exact absurd h (by simp [stored?])

end Node

namespace Likeness

/-- Nodes that are assigned to alike. What values they carry themselves makes no difference. -/
inductive Assigns (L : Likeness) : Node → Node → Prop
  | localAssign {t t' : Tag} {name : String} {own own' : Option Node} :
      Assigns L (.localAssign t name own) (.localAssign t' name own')
  | multiAssign {t t' : Tag} {ts ts' : List Node} {rest rest' own own' : Option Node} :
      L.tag t t' → List.Forall₂ L.target ts ts' → Option.Rel L.target rest rest' →
      Assigns L (.multiAssign t ts rest own) (.multiAssign t' ts' rest' own')
  | other {n n' : Node} : n.isTarget = false → n'.isTarget = false → n.kind = n'.kind →
      L.misuse (.notAssignable n.kind) → Assigns L n n'

/-- Nodes whose evaluation takes the same step, parts that are alike included. -/
inductive Steps (L : Likeness) : Node → Node → Prop
  | nil {t t' : Tag} : Steps L (.nil t) (.nil t')
  | bool {t t' : Tag} {value : Bool} : Steps L (.bool t value) (.bool t' value)
  | int {t t' : Tag} {value : Double} {whole whole' : value.isInteger = true} :
      Steps L (.int t value whole) (.int t' value whole')
  | float {t t' : Tag} {value : Double} : Steps L (.float t value) (.float t' value)
  | str {t t' : Tag} {text : String} : Steps L (.str t text) (.str t' text)
  | dstr {t t' : Tag} {ps ps' : List Node} :
      List.Forall₂ L.node ps ps' → Steps L (.dstr t ps) (.dstr t' ps')
  | symbol {t t' : Tag} {name : String} : Steps L (.symbol t name) (.symbol t' name)
  | dsymbol {t t' : Tag} {ps ps' : List Node} :
      List.Forall₂ L.node ps ps' → Steps L (.dsymbol t ps) (.dsymbol t' ps')
  | literal {t t' : Tag} {name : String} :
      L.misuse (.notEvaluable .literal) → Steps L (.literal t name) (.literal t' name)
  | array {t t' : Tag} {es es' : List Node} :
      List.Forall₂ L.node es es' → Steps L (.array t es) (.array t' es')
  | localVar {t t' : Tag} {name : String} :
      L.tag t t' → Steps L (.localVar t name) (.localVar t' name)
  | localAssign {t t' : Tag} {name : String} {v v' : Node} :
      L.node v v' → Steps L (.localAssign t name (some v)) (.localAssign t' name (some v'))
  | localAssignOnly {t t' : Tag} {name : String} :
      L.misuse (.noValue name) → Steps L (.localAssign t name none) (.localAssign t' name none)
  | multiAssign {t t' : Tag} {ts ts' : List Node} {rest rest' : Option Node} {v v' : Node} :
      List.Forall₂ L.target ts ts' → Option.Rel L.target rest rest' → L.node v v' →
      Steps L (.multiAssign t ts rest (some v)) (.multiAssign t' ts' rest' (some v'))
  | multiAssignOnly {t t' : Tag} {ts ts' : List Node} {rest rest' : Option Node} :
      L.misuse .noDestructuredValue →
      Steps L (.multiAssign t ts rest none) (.multiAssign t' ts' rest' none)
  | block {t t' : Tag} {ns ns' : List Node} :
      List.Forall₂ L.node ns ns' → Steps L (.block t ns) (.block t' ns')
  | newline {t t' : Tag} {n n' : Node} : L.node n n' → Steps L (.newline t n) (.newline t' n')
  | whileLoop {t t' : Tag} {c c' b b' : Node} :
      L.loops → L.node c c' → L.node b b' → Steps L (.whileLoop t c b) (.whileLoop t' c' b')
  | jump {t t' : Tag} {keyword : Keyword} {n n' : Option Node} :
      (∀ v, L.signal ⟨keyword, v, some t.location⟩ ⟨keyword, v, some t'.location⟩) →
      Option.Rel L.node n n' → Steps L (.jump t keyword n) (.jump t' keyword n')
  | defined {t t' : Tag} {n n' : Node} : L.node n n' → Steps L (.defined t n) (.defined t' n')
  | args {p p' : Params} : L.misuse (.notEvaluable .args) → Steps L (.args p) (.args p')
  | define {t t' : Tag} {name : String} {p p' : Params} {b b' : Option Node} :
      L.tag t t' → p.names = p'.names → Option.Rel L.body b b' →
      Steps L (.define t name p b) (.define t' name p' b')
  | call {t t' : Tag} {name : String} {ns ns' : List Node} :
      L.tag t t' → List.Forall₂ L.node ns ns' → Steps L (.call t name ns) (.call t' name ns')
  | scope {t t' : Tag} {sort : ScopeSort} {name : String} {b b' : Option Node} :
      L.tag t t' → Option.Rel L.node b b' →
      Steps L (.scope t sort name b) (.scope t' sort name b')
  | undef {t t' : Tag} {n n' : Node} :
      L.tag t t' → L.Operands n n' → Steps L (.undef t n) (.undef t' n')
  | aliasName {t t' : Tag} {a a' b b' : Node} :
      L.tag t t' → L.Operands a a' → L.Operands b b' →
      Steps L (.aliasName t a b) (.aliasName t' a' b')

/-! ### A node beside itself -/

variable {L : Likeness}

theorem Operands.refl {n : Node} (htag : L.tag n.tag n.tag) (h : L.node n n) :
    L.Operands n n := by
  cases hn : n.staticName? with
  | none => exact .computed hn hn h htag
  | some name => exact .spelledOut hn hn

theorem optionRel_refl {α : Type} {R : α → α → Prop} (h : ∀ a, R a a) (o : Option α) :
    Option.Rel R o o := by
  cases o with
  | none => exact .none
  | some a => exact .some (h a)

theorem optionRel_same {α : Type} {R : α → α → Prop} {o : Option α} (h : ∀ c ∈ o, R c c) :
    Option.Rel R o o := by
  cases o with
  | none => exact .none
  | some c => exact .some (h c rfl)

theorem Assigns.refl_of_tag (n : Node) (htag : L.tag n.tag n.tag) (hmisuse : ∀ c, L.misuse c)
    (h : ∀ c ∈ n.childList, L.target c c) : L.Assigns n n := by
  cases n with
  | localAssign => exact .localAssign
  | multiAssign t ts rest own =>
    simp only [Node.childList, Node.children, Children.toList, List.mem_append,
      Option.mem_toList] at h
    exact .multiAssign htag (List.forall₂_same.mpr fun c hc => h c (.inl (.inl hc)))
      (optionRel_same fun c hc => h c (.inl (.inr hc)))
  | _ => exact .other rfl rfl rfl (hmisuse _)

theorem Assigns.refl (n : Node) (htag : ∀ t, L.tag t t) (hmisuse : ∀ c, L.misuse c)
    (h : ∀ c ∈ n.childList, L.target c c) : L.Assigns n n :=
  .refl_of_tag n (htag _) hmisuse h

/-- Failures are placed at the node itself and, where an operand is no name, at that part. -/
theorem Steps.refl_of_tag (n : Node) (htag : L.tag n.tag n.tag)
    (htags : ∀ c ∈ n.parts, L.tag c.tag c.tag) (hmisuse : ∀ c, L.misuse c)
    (hsignal : ∀ t keyword own, n = .jump t keyword own →
      ∀ v, L.signal ⟨keyword, v, some t.location⟩ ⟨keyword, v, some t.location⟩)
    (hloop : n.kind = .whileLoop → L.loops) (hnode : ∀ c ∈ n.parts, L.node c c)
    (hbody : ∀ b ∈ n.stored?, L.body b b) (htarget : ∀ c ∈ n.parts, L.target c c) :
    L.Steps n n := by
  cases n with
  | nil => exact .nil
  | bool => exact .bool
  | int => exact .int
  | float => exact .float
  | str => exact .str
  | dstr => exact .dstr (List.forall₂_same.mpr hnode)
  | symbol => exact .symbol
  | dsymbol => exact .dsymbol (List.forall₂_same.mpr hnode)
  | literal => exact .literal (hmisuse _)
  | array => exact .array (List.forall₂_same.mpr hnode)
  | localVar => exact .localVar htag
  | localAssign t name own =>
    cases own with
    | none => exact .localAssignOnly (hmisuse _)
    | some v => exact .localAssign (hnode v (List.mem_singleton_self v))
  | multiAssign t ts rest own =>
    simp only [Node.parts, Node.childList, Node.children, Children.toList, List.mem_append,
      Option.mem_toList] at hnode htarget
    cases own with
    | none => exact .multiAssignOnly (hmisuse _)
    | some v =>
      exact .multiAssign (List.forall₂_same.mpr fun c hc => htarget c (.inl (.inl hc)))
        (optionRel_same fun c hc => htarget c (.inl (.inr hc))) (hnode v (.inr rfl))
  | block => exact .block (List.forall₂_same.mpr hnode)
  | newline => exact .newline (hnode _ (List.mem_singleton_self _))
  | whileLoop t c b =>
    exact .whileLoop (hloop rfl) (hnode c List.mem_cons_self)
      (hnode b (List.mem_cons_of_mem _ (List.mem_singleton_self _)))
  | jump t keyword own =>
    refine .jump (hsignal t keyword own rfl) (optionRel_same fun c hc => hnode c ?_)
    cases hc
    exact List.mem_singleton_self _
  | defined => exact .defined (hnode _ (List.mem_singleton_self _))
  | args => exact .args (hmisuse _)
  | define t name p b => exact .define htag rfl (optionRel_same hbody)
  | call => exact .call htag (List.forall₂_same.mpr hnode)
  | scope t sort name b =>
    refine .scope htag (optionRel_same fun c hc => hnode c ?_)
    cases hc
    exact List.mem_singleton_self _
  | undef t n =>
    have hn : n ∈ [n] := List.mem_singleton_self n
    exact .undef htag (.refl (htags n hn) (hnode n hn))
  | aliasName t a b =>
    have ha : a ∈ [a, b] := List.mem_cons_self
    have hb : b ∈ [a, b] := List.mem_cons_of_mem _ (List.mem_singleton_self b)
    exact .aliasName htag (.refl (htags a ha) (hnode a ha)) (.refl (htags b hb) (hnode b hb))

theorem Steps.refl (n : Node) (htag : ∀ t, L.tag t t) (hmisuse : ∀ c, L.misuse c)
    (hsignal : ∀ t keyword own, n = .jump t keyword own →
      ∀ v, L.signal ⟨keyword, v, some t.location⟩ ⟨keyword, v, some t.location⟩)
    (hloop : n.kind = .whileLoop → L.loops) (hnode : ∀ c ∈ n.parts, L.node c c)
    (hbody : ∀ b ∈ n.stored?, L.body b b) (htarget : ∀ c ∈ n.parts, L.target c c) :
    L.Steps n n :=
  .refl_of_tag n (htag _) (fun _ _ => htag _) hmisuse hsignal hloop hnode hbody htarget

end Likeness

/-! ## Assignment -/

namespace Eval

theorem assign_of_not_isTarget {n : Node} (h : n.isTarget = false) (checkArity : Bool)
    (v : Value) :
    assign checkArity v n = observed .assigning n (misuse (.notAssignable n.kind)) := by
  cases n with
  | localAssign | multiAssign => exact absurd h (by simp [Node.isTarget])
  | _ => rfl

end Eval

variable {L : Likeness} {J : Judgment} {ev ev' : Node → Eval Value}

namespace Sequential

theorem assignEach (hJ : Sequential L J) {ns ns' : List Node}
    (h : List.Forall₂ (fun n n' => ∀ v, J _ Eq (Eval.assign false v n) (Eval.assign false v n'))
      ns ns') (vs : List Value) : J _ Eq (Eval.assignEach vs ns) (Eval.assignEach vs ns') := by
  induction h generalizing vs with
  | nil => exact hJ.yield rfl
  | cons hn _ ih => exact hJ.andThenEq (hn _) fun _ => ih vs.tail

theorem assignRest (hJ : Sequential L J) {n n' : Option Node}
    (h : Option.Rel (fun n n' => ∀ v, J _ Eq (Eval.assign false v n) (Eval.assign false v n'))
      n n') (vs : List Value) : J _ Eq (Eval.assignRest vs n) (Eval.assignRest vs n') := by
  cases h with
  | none => exact hJ.yield rfl
  | some h => exact hJ.andThenEq (h _) fun _ => hJ.yield rfl

theorem checkCount (hJ : Sequential L J) {t t' : Tag} (ht : L.tag t t') {ts ts' : List Node}
    (hts : List.Forall₂ L.target ts ts') {rest rest' : Option Node}
    (hrest : Option.Rel L.target rest rest') (v : Value) :
    J _ Eq (Eval.checkCount t ts rest v) (Eval.checkCount t' ts' rest' v) := by
  have hr : rest.isNone = rest'.isNone := by cases hrest <;> rfl
  unfold Eval.checkCount
  rw [← hts.length_eq, ← hr]
  split
  · exact hJ.fault _ trivial ht
  · exact hJ.yield rfl

/-- Induction on the left target; the right one has the same shape. -/
theorem assign (hJ : Sequential L J) (htarget : ∀ n n', L.target n n' → L.Assigns n n')
    {n n' : Node} (h : L.target n n') (checkArity : Bool) (v : Value) :
    J _ Eq (Eval.assign checkArity v n) (Eval.assign checkArity v n') := by
  induction n using Node.induction generalizing n' checkArity v with
  | step n ih =>
    cases htarget n n' h with
    | localAssign =>
      rw [Eval.assign, Eval.assign]
      exact hJ.assigning h (hJ.andThenEq (hJ.assignLocal _ v) fun _ => hJ.yield rfl)
    | @multiAssign t t' ts ts' rest rest' own own' ht hts hrest =>
      -- Targets below the top are assigned to without a check of their number.
      have heach : List.Forall₂
          (fun n n' => ∀ v, J _ Eq (Eval.assign false v n) (Eval.assign false v n')) ts ts' := by
        refine List.forall₂_iff_zip.mpr ⟨hts.length_eq, fun {a b} hab v => ?_⟩
        exact ih a (by simp [Node.childList, Node.children, Children.toList,
          (List.of_mem_zip hab).1]) (List.forall₂_zip hts hab) false v
      have hlast : Option.Rel
          (fun n n' => ∀ v, J _ Eq (Eval.assign false v n) (Eval.assign false v n'))
          rest rest' := by
        cases hrest with
        | none => exact .none
        | some hr =>
          refine .some fun v => ih _ ?_ hr false v
          simp [Node.childList, Node.children, Children.toList]
      rw [Eval.assign, Eval.assign, ← hts.length_eq]
      refine hJ.assigning h ?_
      split
      · refine hJ.andThenEq (hJ.checkCount ht hts hrest v) fun _ => ?_
        refine hJ.andThenEq (hJ.assignEach heach _) fun _ => ?_
        exact hJ.andThenEq (hJ.assignRest hlast _) fun _ => hJ.yield rfl
      · refine hJ.andThenEq (hJ.assignEach heach _) fun _ => ?_
        exact hJ.andThenEq (hJ.assignRest hlast _) fun _ => hJ.yield rfl
    | other hn hn' hk hm =>
      rw [Eval.assign_of_not_isTarget hn, Eval.assign_of_not_isTarget hn', ← hk]
      exact hJ.assigning h (hJ.misuse hm)

theorem destructure (hJ : Sequential L J) (htarget : ∀ n n', L.target n n' → L.Assigns n n')
    {ts ts' : List Node} (hts : List.Forall₂ L.target ts ts') {rest rest' : Option Node}
    (hrest : Option.Rel L.target rest rest') (v : Value) :
    J _ Eq (Eval.destructure ts rest v) (Eval.destructure ts' rest' v) := by
  have heach := hts.imp fun n n' h v => hJ.assign htarget h false v
  unfold Eval.destructure
  rw [← hts.length_eq]
  refine hJ.andThenEq (hJ.assignEach heach _) fun _ => hJ.assignRest ?_ _
  cases hrest with
  | none => exact .none
  | some h => exact .some fun v => hJ.assign htarget h false v

/-! ## Evaluation -/

/-- **One step** of a node that neither jumps, nor receives jumps, nor has to do with scopes. -/
theorem step {fuel fuel' : Nat} (hJ : Sequential L J)
    (htarget : ∀ n n', L.target n n' → L.Assigns n n')
    (hev : ∀ n n', L.node n n' → J _ Eq (ev n) (ev' n')) {n n' : Node}
    (hjumps : n.handlesJumps = false) (hscopes : n.handlesScopes = false) (h : L.Steps n n') :
    J _ Eq (Eval.step fuel ev n) (Eval.step fuel' ev' n') := by
  cases h with
  | nil | bool | int | float | str | symbol => exact hJ.yield rfl
  | dstr hps | dsymbol hps =>
    exact hJ.andThenEq (hJ.interpolate hev hps) fun _ => hJ.yield rfl
  | array hes => exact hJ.andThenEq (hJ.all hev hes) fun _ => hJ.yield rfl
  | literal hm | localAssignOnly hm | multiAssignOnly hm | args hm => exact hJ.misuse hm
  | localVar ht => exact hJ.readLocal _ ht
  | localAssign hv =>
    refine hJ.andThenEq (hev _ _ hv) fun v => ?_
    exact hJ.andThenEq (hJ.assignLocal _ v) fun _ => hJ.yield rfl
  | multiAssign hts hrest hv =>
    refine hJ.andThenEq (hev _ _ hv) fun v => ?_
    exact hJ.andThenEq (hJ.destructure htarget hts hrest v) fun _ => hJ.yield rfl
  | block hns => exact hJ.last hev hns .nil
  | newline hn => exact hev _ _ hn
  | whileLoop | jump | defined => exact absurd hjumps Bool.noConfusion
  | define | call | scope | undef | aliasName => exact absurd hscopes Bool.noConfusion

end Sequential

/-- One step of a node that has nothing to do with scopes. Loops are left to the judgment, for it
may want to count the rounds. -/
theorem Jumping.step {fuel fuel' : Nat} (hJ : Jumping L J)
    (htarget : ∀ n n', L.target n n' → L.Assigns n n')
    (hev : ∀ n n', L.node n n' → J _ Eq (ev n) (ev' n'))
    (hloop : L.loops → ∀ {c c' b b' : Eval Value}, J _ Eq c c' → J _ Eq b b' →
      J _ Eq (Eval.loop c b fuel) (Eval.loop c' b' fuel'))
    {n n' : Node} (hscopes : n.handlesScopes = false) (h : L.Steps n n') :
    J _ Eq (Eval.step fuel ev n) (Eval.step fuel' ev' n') := by
  cases hjumps : n.handlesJumps with
  | false => exact hJ.toSequential.step htarget hev hjumps hscopes h
  | true =>
    cases h with
    | whileLoop hl hc hb => exact hloop hl (hev _ _ hc) (hev _ _ hb)
    | jump hs hn =>
      cases hn with
      | none => exact hJ.jump (hs .nil)
      | some hn => exact hJ.andThenEq (hev _ _ hn) fun v => hJ.jump (hs v)
    | defined hn =>
      refine hJ.andThenEq (hJ.definition (hev _ _ hn)) fun d => ?_
      cases d with
      | none | some _ => exact hJ.yield rfl
    | _ => exact absurd hjumps Bool.noConfusion

/-- Is this a node that undefines a method? -/
def Node.isUndef : Node → Bool
  | .undef .. => true
  | _ => false

section

variable {fuel fuel' : Nat} {n n' : Node}
  (hev : ∀ n n', L.node n n' → J _ Eq (ev n) (ev' n'))
  (hinvoke : ∀ {t t' : Tag} {a b : Method} (vs : List Value), L.tag t t' → L.Methods a b →
    J _ Eq (Eval.invoke ev a t.location vs) (Eval.invoke ev' b t'.location vs))

include hev hinvoke

/-- One step of a node that acts in an open scope, and neither undefines anything nor opens a scope
itself. The calls are left to the judgment, for it may want to count how deep they are. -/
theorem Acting.step (hJ : Acting L J) (hscopes : n.handlesScopes = true)
    (hscope : n.isScope = false) (hundef : n.isUndef = false) (h : L.Steps n n') :
    J _ Eq (Eval.step fuel ev n) (Eval.step fuel' ev' n') := by
  cases h with
  | define ht hp hb =>
    refine hJ.inOpenScope ht id fun s s' hs => ?_
    rw [← hp]
    exact hJ.andThenEq (hJ.define _ _ ht hs hb) fun _ => hJ.yield rfl
  | call ht hns => exact hJ.call ht _ hns hev fun vs hm => hinvoke vs ht hm
  | aliasName ht ha hb =>
    refine hJ.inOpenScope ht id fun s s' hs => ?_
    refine hJ.andThenEq (hJ.resolveName ha hev) fun newName => ?_
    refine hJ.andThenEq (hJ.resolveName hb hev) fun oldName => ?_
    exact hJ.andThenEq (hJ.addAlias newName oldName ht hs) fun _ => hJ.yield rfl
  | scope => exact absurd hscope Bool.noConfusion
  | undef => exact absurd hundef Bool.noConfusion
  | _ => exact absurd hscopes Bool.noConfusion

/-- One step of a node that acts on a scope or opens one, and does not undefine anything. -/
theorem Defining.step (hJ : Defining L J) (hscopes : n.handlesScopes = true)
    (hundef : n.isUndef = false) (h : L.Steps n n') :
    J _ Eq (Eval.step fuel ev n) (Eval.step fuel' ev' n') := by
  cases hscope : n.isScope with
  | false => exact hJ.toActing.step hev hinvoke hscopes hscope hundef h
  | true =>
    cases h with
    | scope ht hb =>
      refine hJ.andThen (hJ.openConstant _ _ ht) fun s s' hs => ?_
      exact hJ.runScope hs hb hev
    | _ => exact absurd hscope Bool.noConfusion

/-- One step of a node that acts on a scope and does not open one itself. -/
theorem Undefining.step (hJ : Undefining L J) (hscopes : n.handlesScopes = true)
    (hscope : n.isScope = false) (h : L.Steps n n') :
    J _ Eq (Eval.step fuel ev n) (Eval.step fuel' ev' n') := by
  cases hundef : n.isUndef with
  | false => exact hJ.toActing.step hev hinvoke hscopes hscope hundef h
  | true =>
    cases h with
    | undef ht hn =>
      -- The fault where no scope is open names the operand as it is spelled.
      rw [Eval.step, Eval.step, ← hn.staticName?_eq]
      refine hJ.inOpenScope ht id fun s s' hs => ?_
      refine hJ.andThenEq (hJ.resolveName hn hev) fun name => ?_
      exact hJ.andThenEq (hJ.undef name ht hs) fun _ => hJ.yield rfl
    | _ => exact absurd hundef Bool.noConfusion

/-- One step of any node that acts on a scope or opens one. -/
theorem Scoping.step (hJ : Scoping L J) (hscopes : n.handlesScopes = true) (h : L.Steps n n') :
    J _ Eq (Eval.step fuel ev n) (Eval.step fuel' ev' n') := by
  cases hundef : n.isUndef with
  | false => exact hJ.toDefining.step hev hinvoke hscopes hundef h
  | true =>
    refine hJ.toUndefining.step hev hinvoke hscopes ?_ h
    cases n with
    | undef => rfl
    | _ => exact absurd hundef Bool.noConfusion

end

/-- One step of any node. -/
theorem Compatible.step {fuel fuel' : Nat} (hJ : Compatible L J)
    (htarget : ∀ n n', L.target n n' → L.Assigns n n')
    (hev : ∀ n n', L.node n n' → J _ Eq (ev n) (ev' n'))
    (hloop : L.loops → ∀ {c c' b b' : Eval Value}, J _ Eq c c' → J _ Eq b b' →
      J _ Eq (Eval.loop c b fuel) (Eval.loop c' b' fuel'))
    (hinvoke : ∀ {t t' : Tag} {a b : Method} (vs : List Value), L.tag t t' → L.Methods a b →
      J _ Eq (Eval.invoke ev a t.location vs) (Eval.invoke ev' b t'.location vs))
    {n n' : Node} (h : L.Steps n n') : J _ Eq (Eval.step fuel ev n) (Eval.step fuel' ev' n') := by
  cases hscopes : n.handlesScopes with
  | false => exact hJ.toJumping.step htarget hev hloop hscopes h
  | true => exact hJ.toScoping.step hev hinvoke hscopes h

/-- A compatible judgment that carries over to whole evaluations, whatever the fuel. -/
structure Congruence (L : Likeness) (J : Judgment) : Prop extends Compatible L J where
  steps : ∀ n n', L.node n n' → L.Steps n n'
  assigns : ∀ n n', L.target n n' → L.Assigns n n'
  runnable : ∀ n n', L.body n n' → L.node n n'
  outOfFuel : J Value Eq Eval.outOfFuel Eval.outOfFuel
  evaluating : ∀ {n n' : Node} {x y : Eval Value}, L.node n n' → J _ Eq x y →
    J _ Eq (Eval.observed .evaluating n x) (Eval.observed .evaluating n' y)
  enterCall : ∀ {t t' : Tag} {x y : Eval Value}, L.tag t t' → J _ Eq x y →
    J _ Eq (Eval.enterCall (some t.location) x) (Eval.enterCall (some t'.location) y)

namespace Congruence

/-- One step of whole evaluations. Both sides have the same fuel, for loops as for everything
else. -/
theorem stepOf (hJ : Congruence L J) {fuel : Nat}
    (hev : ∀ n n', L.node n n' → J _ Eq (evaluate fuel n) (evaluate fuel n')) {n n' : Node}
    (h : L.Steps n n') :
    J _ Eq (Eval.step fuel (evaluate fuel) n) (Eval.step fuel (evaluate fuel) n') := by
  refine hJ.step hJ.assigns hev ?_ ?_ h
  · exact fun _ {c c' b b'} hc hb => hJ.loop (k := 0) hJ.outOfFuel hc hb fuel
  · intro t t' a b vs ht hm
    exact hJ.invoke hJ.toCompatible ht hm (hJ.enterCall ht)
      (fun n n' hn => hev _ _ (hJ.runnable n n' hn)) vs

/-- Induction on the fuel; the bodies that calls run are covered since they are nodes too. -/
theorem evaluate (hJ : Congruence L J) (fuel : Nat) {n n' : Node} (h : L.node n n') :
    J _ Eq (evaluate fuel n) (evaluate fuel n') := by
  induction fuel generalizing n n' with
  | zero => exact hJ.outOfFuel
  | succ fuel ih => exact hJ.evaluating h (hJ.stepOf (fun _ _ hn => ih hn) (hJ.steps n n' h))

theorem probing (hJ : Congruence L J) (fuel : Nat) {n n' : Node} (h : L.node n n') :
    J _ (Probe.Like Eq L.signal) (probe fuel n) (probe fuel n') :=
  hJ.toCompatible.probe (hJ.evaluate fuel h)

theorem definition (hJ : Congruence L J) (fuel : Nat) {n n' : Node} (h : L.node n n') :
    J _ Eq (definition? fuel n) (definition? fuel n') :=
  hJ.toCompatible.definition (hJ.evaluate fuel h)

theorem resolveName (hJ : Congruence L J) (fuel : Nat) {n n' : Node} (h : L.Operands n n') :
    J _ Eq (resolveName fuel n) (resolveName fuel n') :=
  hJ.toCompatible.resolveName h fun _ _ hn => hJ.evaluate fuel hn

/-- A whole program: what it makes of a jump that nothing received is left to the judgment. -/
theorem run (hJ : Congruence L J) (fuel : Nat) {n n' : Node} (h : L.node n n')
    (hjump : ∀ s s', L.signal s s' → ∀ c,
      J Value Eq (Eval.fault c (s.location <|> some n.location))
        (Eval.fault c (s'.location <|> some n'.location))) :
    J _ Eq (run fuel n) (run fuel n') := by
  refine hJ.receive (hJ.evaluate fuel h) (fun _ _ hv => hJ.yield hv) fun s s' hs => ?_
  obtain ⟨hk, hv⟩ := L.received hs
  dsimp only
  rw [← hk, ← hv]
  cases s.keyword with
  | ret => exact hJ.yield rfl
  | brk | next => exact hjump s s' hs _

end Congruence

/-- What a whole program makes of the way its tree ended; the machine is the tree's. -/
def Outcome.received (root : Node) : Outcome Value → Outcome Value
  | .jump ⟨.ret, v, _⟩ => .value v
  | .jump ⟨keyword, _, l⟩ =>
    .error (.fault (.unexpectedJump keyword.name) (l <|> some root.location))
  | o => o

theorem run_eq (fuel : Nat) (root : Node) (m : Machine) :
    run fuel root m = ((evaluate fuel root m).1.received root, (evaluate fuel root m).2) := by
  show Eval.andThen (Eval.probe (evaluate fuel root)) _ m = _
  unfold Eval.andThen Eval.probe
  rcases evaluate fuel root m with ⟨o, m'⟩
  cases o with
  | value v => rfl
  | error e => rfl
  | outOfFuel => rfl
  | jump s =>
    obtain ⟨keyword, v, l⟩ := s
    cases keyword <;> rfl

end Treewalk
