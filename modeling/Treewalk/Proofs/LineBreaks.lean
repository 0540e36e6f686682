import Treewalk.Proofs.Converse
import Treewalk.Proofs.Fuel
import Treewalk.Proofs.Bodies
import Treewalk.Proofs.Termination

/-!
# Line breaks make no difference

`Node.eraseBreaks` takes the line breaks out of a tree: each is replaced by the statement in it. The
tree without them does what the tree does, on a machine whose stored bodies were treated alike:
`lineBreaks_transparent`.

That is so because evaluation passes through a line break and comes to the statement. Where a part
is told by its kind instead, as a target or as the name of a method that is spelled out, a line
break around it would be taken for what it is. `Node.KindsBare` excludes just these places.

The two runs do not use up the same fuel, for a line break costs some. The tree without line breaks
gets by with the fuel of the tree. The other way round, fuel for one node has to do for all the
line breaks around it as well, so there has to be a bound on how many these can be; sizes of trees
give one, as they do for programs without loops.
-/

set_option autoImplicit false

namespace Treewalk

namespace Node

mutual

/-- The tree with a statement in the place of every line break around it. -/
def eraseBreaks : Node → Node
  | .newline _ statement => eraseBreaks statement
  | .block t statements => .block t (eraseBreaksList statements)
  | .dstr t parts => .dstr t (eraseBreaksList parts)
  | .dsymbol t parts => .dsymbol t (eraseBreaksList parts)
  | .array t elements => .array t (eraseBreaksList elements)
  | .localAssign t name value => .localAssign t name (eraseBreaksOption value)
  | .multiAssign t targets rest value =>
    .multiAssign t (eraseBreaksList targets) (eraseBreaksOption rest) (eraseBreaksOption value)
  | .whileLoop t condition body => .whileLoop t (eraseBreaks condition) (eraseBreaks body)
  | .jump t keyword value => .jump t keyword (eraseBreaksOption value)
  | .defined t expression => .defined t (eraseBreaks expression)
  | .define t name params body => .define t name params (eraseBreaksOption body)
  | .call t name operands => .call t name (eraseBreaksList operands)
  | .scope t sort name body => .scope t sort name (eraseBreaksOption body)
  | .undef t name => .undef t (eraseBreaks name)
  | .aliasName t newName oldName => .aliasName t (eraseBreaks newName) (eraseBreaks oldName)
  | .nil t => .nil t
  | .bool t value => .bool t value
  | .int t value whole => .int t value whole
  | .float t value => .float t value
  | .str t text => .str t text
  | .symbol t name => .symbol t name
  | .literal t name => .literal t name
  | .localVar t name => .localVar t name
  | .args params => .args params

def eraseBreaksList : List Node → List Node
  | [] => []
  | n :: ns => eraseBreaks n :: eraseBreaksList ns

def eraseBreaksOption : Option Node → Option Node
  | none => none
  | some n => some (eraseBreaks n)

end

theorem eraseBreaksList_eq (ns : List Node) : eraseBreaksList ns = ns.map eraseBreaks := by
  induction ns with
  | nil => rfl
  | cons n ns ih => rw [eraseBreaksList, ih, List.map_cons]

/-- The parts that are told by their kind: targets, and names of methods. -/
def kindParts : Node → List Node
  | .multiAssign _ targets rest _ => targets ++ rest.toList
  | .undef _ name => [name]
  | .aliasName _ newName oldName => [newName, oldName]
  | _ => []

/-- No line break stands around a part that is told by its kind, anywhere in the tree. -/
def KindsBare (n : Node) : Prop :=
  ∀ d : Node, d.Occurs n → ∀ c ∈ d.kindParts, c.kind ≠ .newline

/-- A walk over the tree settles it. -/
instance (n : Node) : Decidable n.KindsBare :=
  decidable_of_iff (∀ v ∈ n.visits, ∀ c ∈ v.node.kindParts, c.kind ≠ .newline)
    (forall_visits_iff (P := fun d => ∀ c ∈ d.kindParts, c.kind ≠ .newline))

theorem KindsBare.child {c n : Node} (h : n.KindsBare) (hc : c ∈ n.childList) : c.KindsBare :=
  fun d hd => h d (.inChild hc hd)

/-! ## What is left where there is no line break -/

theorem exists_eq_newline {n : Node} (h : n.kind = .newline) : ∃ t c, n = .newline t c := by
  cases n with
  | newline t c => exact ⟨t, c, rfl⟩
  | bool t value => cases value <;> exact absurd h (by simp [kind])
  | jump t keyword value => cases keyword <;> exact absurd h (by simp [kind, Keyword.kind])
  | scope t sort name body => cases sort <;> exact absurd h (by simp [kind, ScopeSort.kind])
  | _ => exact absurd h (by simp [kind])

variable {n : Node}

theorem tag_eraseBreaks (h : n.kind ≠ .newline) : n.eraseBreaks.tag = n.tag := by
  cases n with
  | newline => exact absurd rfl h
  | _ => rfl

theorem staticName?_eraseBreaks (h : n.kind ≠ .newline) :
    n.eraseBreaks.staticName? = n.staticName? := by
  cases n with
  | newline => exact absurd rfl h
  | _ => rfl

/-! ## Trees of a bounded size -/

/-- Trees that are no larger than the bound, and have no line break where kinds are looked at. -/
structure Erasable (size : Nat) (n : Node) : Prop where
  bare : n.KindsBare
  sizeOf_le : sizeOf n ≤ size

theorem Erasable.child {size : Nat} {c : Node} (h : n.Erasable size) (hc : c ∈ n.childList) :
    c.Erasable size :=
  ⟨h.bare.child hc, Nat.le_of_lt (Nat.lt_of_lt_of_le (sizeOf_lt_of_mem_childList hc) h.sizeOf_le)⟩

theorem Erasable.kind_ne {size : Nat} {c : Node} (h : n.Erasable size) (hc : c ∈ n.kindParts) :
    c.kind ≠ .newline :=
  h.bare n .here c hc

end Node

/-! ## The relation of the two machines -/

/-- The right machine has the stored bodies of the left one without their line breaks. Bodies within
reach are of a bounded size. The journals may be any. -/
structure Machine.Erased (S : ScopeId → Prop) (size : Nat) (m m' : Machine) : Prop where
  within : m.Within S (Node.Erasable size)
  context : m'.context = m.context
  heap : m'.heap = m.heap.mapBodies Node.eraseBreaks

/-- The right run is that of the tree without line breaks. -/
def erasing (S : ScopeId → Prop) (size : Nat) : Simulation := ⟨Machine.Erased S size, Eq, Eq, True⟩

/-- Nodes are like those without line breaks. Targets are no line breaks themselves. -/
def Likeness.erased (S : ScopeId → Prop) (size : Nat) : Likeness where
  node n n' := n.Erasable size ∧ n.eraseBreaks = n'
  body n n' := n.Erasable size ∧ n.eraseBreaks = n'
  target n n' := n.kind ≠ .newline ∧ n.Erasable size ∧ n.eraseBreaks = n'
  tag := Eq
  scope s s' := s = s' ∧ S s
  signal := Eq
  misuse _ := True
  loops := True
  stray := True
  received := received_of_eq

section

variable {S : ScopeId → Prop} {size : Nat}

theorem Machine.Erased.record {m m' : Machine} (h : m.Erased S size m')
    (entry entry' : Context → Heap → Event) :
    (m.record entry).Erased S size (m'.record entry') :=
  ⟨h.within, h.context, h.heap⟩

theorem optionRel_eraseBreaks {o : Option Node} (h : ∀ c ∈ o, c.Erasable size) :
    Option.Rel (Likeness.erased S size).node o (Node.eraseBreaksOption o) := by
  cases o with
  | none => exact .none
  | some c => exact .some ⟨h c rfl, rfl⟩

theorem forall₂_eraseBreaks {ns : List Node} (h : ∀ c ∈ ns, c.Erasable size) :
    List.Forall₂ (Likeness.erased S size).node ns (Node.eraseBreaksList ns) := by
  induction ns with
  | nil => exact .nil
  | cons n ns ih =>
    exact .cons ⟨h n List.mem_cons_self, rfl⟩ (ih fun c hc => h c (List.mem_cons_of_mem n hc))

/-- Bodies stay within reach and bounded. What they are makes no difference to an update. -/
theorem renoding_erasing :
    Renoding Node.eraseBreaks S (Node.Erasable size) (erasing S size) (.erased S size) where
  scope := Iff.rfl
  body := Iff.rfl
  signal := rfl
  stray := trivial
  misuse _ := rfl
  fault c t t' ht := by
    obtain rfl : t = t' := ht
    rfl
  within hm := hm.within
  context hm := by rw [hm.context]
  heap hm := hm.heap
  updated {m m'} hm c h hwarnings hwithin := by
    refine ⟨hwithin, ?_, rfl⟩
    dsimp only
    rw [hm.context, ← hwarnings]
  warn {m m' t t'} message ht hm := by
    obtain rfl : t = t' := ht
    obtain ⟨warnings, hw⟩ := Context.exists_warn_eq m.context message (some t.location)
    rw [hm.context, hw]
    exact ⟨hm.within, rfl, hm.heap⟩
  started _ hm := hm.record _ _
  ended _ _ hm := hm.record _ _
  entered hm := hm.record _ _

theorem erasing_stable : (erasing S size).Stable (.erased S size) := renoding_erasing.stable

/-! ## Steps -/

theorem erased_operands {n : Node} (h : n.Erasable size) (hkind : n.kind ≠ .newline) :
    (Likeness.erased S size).Operands n n.eraseBreaks := by
  cases hname : n.staticName? with
  | some name => exact .spelledOut hname (by rw [Node.staticName?_eraseBreaks hkind, hname])
  | none =>
    refine .computed hname (by rw [Node.staticName?_eraseBreaks hkind, hname]) ⟨h, rfl⟩ ?_
    exact (Node.tag_eraseBreaks hkind).symm

/-- Where a part is told by its kind, it is no line break, so it is of that kind still. -/
theorem erased_targets {t : Tag} {targets : List Node} {rest own : Option Node}
    (h : (Node.multiAssign t targets rest own).Erasable size) :
    List.Forall₂ (Likeness.erased S size).target targets (Node.eraseBreaksList targets) ∧
      Option.Rel (Likeness.erased S size).target rest (Node.eraseBreaksOption rest) := by
  have hparts : ∀ c, c ∈ targets ∨ c ∈ rest →
      (Likeness.erased S size).target c c.eraseBreaks := by
    intro c hc
    refine ⟨h.kind_ne ?_, h.child ?_, rfl⟩
    · exact List.mem_append.mpr (hc.imp_right Option.mem_toList.mpr)
    · refine List.mem_append_left _ (List.mem_append.mpr ?_)
      exact hc.imp_right Option.mem_toList.mpr
  refine ⟨?_, ?_⟩
  · rw [Node.eraseBreaksList_eq]
    exact List.forall₂_map_right_iff.mpr (List.forall₂_same.mpr fun c hc => hparts c (.inl hc))
  · cases rest with
    | none => exact .none
    | some c => exact .some (hparts c (.inr rfl))

theorem erased_assigns : ∀ n n' : Node, (Likeness.erased S size).target n n' →
    (Likeness.erased S size).Assigns n n' := by
  rintro n _ ⟨hkind, hn, rfl⟩
  cases n with
  | localAssign => exact .localAssign
  | multiAssign => exact .multiAssign rfl (erased_targets hn).1 (erased_targets hn).2
  | newline => exact absurd rfl hkind
  | _ => exact .other rfl rfl rfl trivial

/-- Every node but a line break takes the same step without the line breaks in it. -/
theorem erased_steps {n : Node} (h : n.Erasable size) (hkind : n.kind ≠ .newline) :
    (Likeness.erased S size).Steps n n.eraseBreaks := by
  cases n with
  | newline => exact absurd rfl hkind
  | nil => exact .nil
  | bool => exact .bool
  | int => exact .int
  | float => exact .float
  | str => exact .str
  | dstr => exact .dstr (forall₂_eraseBreaks fun c hc => h.child hc)
  | symbol => exact .symbol
  | dsymbol => exact .dsymbol (forall₂_eraseBreaks fun c hc => h.child hc)
  | literal => exact .literal trivial
  | array => exact .array (forall₂_eraseBreaks fun c hc => h.child hc)
  | localVar => exact .localVar rfl
  | localAssign t name own =>
    cases own with
    | none => exact .localAssignOnly trivial
    | some v => exact .localAssign ⟨h.child (List.mem_singleton_self v), rfl⟩
  | multiAssign t targets rest own =>
    cases own with
    | none => exact .multiAssignOnly trivial
    | some v =>
      refine .multiAssign (erased_targets h).1 (erased_targets h).2 ⟨h.child ?_, rfl⟩
      exact List.mem_append_right _ (List.mem_singleton_self v)
  | block => exact .block (forall₂_eraseBreaks fun c hc => h.child hc)
  | whileLoop t c b =>
    refine .whileLoop trivial ⟨h.child List.mem_cons_self, rfl⟩ ⟨h.child ?_, rfl⟩
    exact List.mem_cons_of_mem _ (List.mem_singleton_self b)
  | jump t keyword own =>
    refine .jump (fun _ => rfl) (optionRel_eraseBreaks fun c hc => h.child ?_)
    cases hc
    exact List.mem_singleton_self c
  | defined t e => exact .defined ⟨h.child (List.mem_singleton_self e), rfl⟩
  | args => exact .args trivial
  | define t name params b =>
    refine .define rfl rfl (optionRel_eraseBreaks (S := S) fun c hc => h.child ?_)
    exact List.mem_cons_of_mem _ (Option.mem_toList.mpr hc)
  | call => exact .call rfl (forall₂_eraseBreaks fun c hc => h.child hc)
  | scope t sort name b =>
    refine .scope rfl (optionRel_eraseBreaks fun c hc => h.child ?_)
    cases hc
    exact List.mem_singleton_self c
  | undef t c =>
    have hc : c ∈ [c] := List.mem_singleton_self c
    exact .undef rfl (erased_operands (h.child hc) (h.kind_ne hc))
  | aliasName t a b =>
    have ha : a ∈ [a, b] := List.mem_cons_self
    have hb : b ∈ [a, b] := List.mem_cons_of_mem _ (List.mem_singleton_self b)
    exact .aliasName rfl (erased_operands (h.child ha) (h.kind_ne ha))
      (erased_operands (h.child hb) (h.kind_ne hb))

/-! ## Both directions -/

/-- On either side, evaluation passes through a line break. -/
theorem erasing_newline {fuel : Nat} {t : Tag} {c : Node} {y : Eval Value}
    (h : (erasing S size).judgment _ Eq (evaluate fuel c) y) :
    (erasing S size).judgment _ Eq (evaluate (fuel + 1) (.newline t c)) y := by
  intro m m' hm
  have hstart : (m.record (.started .evaluating (.newline t c))).Erased S size m' :=
    ⟨hm.within, hm.context, hm.heap⟩
  rcases h _ m' hstart with hlax | ⟨hs, ho⟩
  · exact .inl hlax
  · exact .inr ⟨⟨hs.within, hs.context, hs.heap⟩, ho⟩

theorem erasing_converse_newline {fuel : Nat} {t : Tag} {c : Node} {x : Eval Value}
    (h : (erasing S size).converse.judgment _ Eq x (evaluate fuel c)) :
    (erasing S size).converse.judgment _ Eq x (evaluate (fuel + 1) (.newline t c)) := by
  intro m' m hm
  have hstart : (m.record (.started .evaluating (.newline t c))).Erased S size m' :=
    ⟨hm.within, hm.context, hm.heap⟩
  rcases h m' _ hstart with hlax | ⟨hs, ho⟩
  · exact .inl hlax
  · exact .inr ⟨⟨hs.within, hs.context, hs.heap⟩, ho⟩

/-- The tree without line breaks gets by with the fuel of the tree. Induction on that fuel: below a
line break the left side has less of it, and the right side need not. -/
theorem erasing_evaluate (fuel k : Nat) {n : Node} (h : n.Erasable size) :
    (erasing S size).judgment _ Eq (evaluate fuel n) (evaluate (fuel + k) n.eraseBreaks) := by
  have hK : (erasing S size).Stable (.erased S size) := erasing_stable
  induction fuel generalizing n k with
  | zero => exact Simulation.starved trivial
  | succ fuel ih =>
    by_cases hkind : n.kind = .newline
    · obtain ⟨t, c, rfl⟩ := Node.exists_eq_newline hkind
      rw [Nat.succ_add_eq_add_succ]
      exact erasing_newline (ih (k + 1) (h.child (List.mem_singleton_self c)))
    · rw [Nat.succ_add]
      refine hK.like_observed ⟨h, rfl⟩ ?_
      refine hK.step (.inl trivial) erased_assigns (fun _ _ hb => hb) ?_ (erased_steps h hkind)
      rintro c _ ⟨hc, rfl⟩
      exact ih k hc

/-- A node with the line breaks around it, given how to evaluate other nodes. Induction on the line
breaks, each of which costs the right side a unit of fuel. -/
theorem erasing_converse_step {fuel : Nat}
    (hev : ∀ {fuel' : Nat} {c : Node}, c.Erasable size → fuel * (size + 1) ≤ fuel' →
      (erasing S size).converse.judgment _ Eq (evaluate fuel c.eraseBreaks) (evaluate fuel' c))
    {fuel' : Nat} {n : Node} (h : n.Erasable size)
    (hfuel : fuel * (size + 1) + sizeOf n < fuel') :
    (erasing S size).converse.judgment _ Eq (evaluate (fuel + 1) n.eraseBreaks)
      (evaluate fuel' n) := by
  have hK : (erasing S size).converse.Stable (Likeness.erased S size).converse :=
    erasing_stable.converse
  induction n using Node.induction generalizing fuel' with
  | step n ih =>
    obtain ⟨rest, rfl⟩ := Nat.exists_eq_add_of_lt hfuel
    by_cases hkind : n.kind = .newline
    · obtain ⟨t, c, rfl⟩ := Node.exists_eq_newline hkind
      have hc : c ∈ (Node.newline t c).childList := List.mem_singleton_self c
      have hsize := Node.sizeOf_lt_of_mem_childList hc
      exact erasing_converse_newline (ih c hc (h.child hc) (by omega))
    · have hle : fuel ≤ fuel * (size + 1) := Nat.le_mul_of_pos_right fuel (Nat.succ_pos size)
      obtain ⟨k, hk⟩ : ∃ k, fuel * (size + 1) + sizeOf n + rest = fuel + k :=
        Nat.exists_eq_add_of_le (by omega)
      rw [hk]
      refine hK.like_observed ⟨h, rfl⟩ ?_
      refine hK.step (.inl trivial) (fun c c' hc => (erased_assigns c' c hc).converse)
        (fun _ _ hb => hb) ?_ (erased_steps h hkind).converse
      rintro _ c ⟨hc, rfl⟩
      exact hev hc (by omega)

/-- The tree needs more fuel: for each node one unit more than the bound on sizes, which is a bound
on the line breaks around it. -/
theorem erasing_converse_evaluate (fuel : Nat) {fuel' : Nat} {n : Node} (h : n.Erasable size)
    (hfuel : fuel * (size + 1) ≤ fuel') :
    (erasing S size).converse.judgment _ Eq (evaluate fuel n.eraseBreaks) (evaluate fuel' n) := by
  induction fuel generalizing n fuel' with
  | zero => exact Simulation.starved trivial
  | succ fuel ih =>
    refine erasing_converse_step ih h ?_
    have hbound := h.sizeOf_le
    rw [Nat.succ_mul] at hfuel
    omega

end

/-! ## Trees with and without line breaks -/

/-- Stored bodies are bounded in size, the stores being finite. -/
theorem Machine.StoresOnly.erasable {m : Machine} (h : m.StoresOnly Node.KindsBare) {size : Nat}
    (hsize : sizeOf m.heap.scopes ≤ size) : m.StoresOnly (Node.Erasable size) :=
  fun s b hs hb =>
    ⟨h s b hs hb, Nat.le_trans (Nat.le_of_lt (Scopes.sizeOf_lt_of_stores hb)) hsize⟩

/-- The machine with the line breaks taken out of every stored body. -/
def Machine.eraseBreaks (m : Machine) : Machine :=
  { m with heap := m.heap.mapBodies Node.eraseBreaks }

/-- **Line breaks are transparent.** If none stands around a part that is told by its kind, in the
tree and in the bodies that are stored within reach, the tree and the one without line breaks end
alike, each where the other one ends: in the same way, with the same context, the same environments
and, but for the line breaks in stored bodies, the same tables of methods. -/
theorem lineBreaks_transparent {t : Node} {m : Machine} (ht : t.KindsBare)
    (hm : m.StoresOnly Node.KindsBare) (o : Outcome Value) :
    (∀ m₁, t.EndsWith m o m₁ → ∃ m₂, t.eraseBreaks.EndsWith m.eraseBreaks o m₂ ∧
      m₂.context = m₁.context ∧ m₂.heap = m₁.heap.mapBodies Node.eraseBreaks) ∧
    ∀ m₂, t.eraseBreaks.EndsWith m.eraseBreaks o m₂ → ∃ m₁, t.EndsWith m o m₁ ∧
      m₂.context = m₁.context ∧ m₂.heap = m₁.heap.mapBodies Node.eraseBreaks := by
  let size := sizeOf t + sizeOf m.heap.scopes
  have hn : t.Erasable size := ⟨ht, Nat.le_add_right ..⟩
  have hstored : m.StoresOnly (Node.Erasable size) := hm.erasable (Nat.le_add_left ..)
  have hstart : m.Erased (fun s => m.Reachable s ∨ m.heap.scopes.size ≤ s) size m.eraseBreaks :=
    ⟨hstored.within, rfl, rfl⟩
  refine ⟨fun m₁ h => ?_, fun m₂ h => ?_⟩
  · obtain ⟨fuel, hrun⟩ := h.exists_evaluate
    rcases erasing_evaluate fuel 0 hn m m.eraseBreaks hstart with ⟨-, ho⟩ | ⟨hs, ho⟩
    · rw [hrun] at ho
      exact absurd h.1 (by simp [show o = .outOfFuel from ho, Outcome.isFinal])
    · rw [hrun] at hs ho
      refine ⟨(evaluate (fuel + 0) t.eraseBreaks m.eraseBreaks).2, ?_, hs.context, hs.heap⟩
      exact Node.endsWith_of_evaluate (Prod.ext ho.eq.symm rfl) h.1
  · obtain ⟨fuel, hrun⟩ := h.exists_evaluate
    rcases erasing_converse_evaluate fuel hn (Nat.le_refl _) m.eraseBreaks m hstart with
      ⟨-, ho⟩ | ⟨hs, ho⟩
    · rw [hrun] at ho
      exact absurd h.1 (by simp [show o = .outOfFuel from ho, Outcome.isFinal])
    · rw [hrun] at hs ho
      refine ⟨(evaluate (fuel * (size + 1)) t m).2, ?_, hs.context, hs.heap⟩
      exact Node.endsWith_of_evaluate (Prod.ext ho.converse.eq rfl) h.1

/-- Calls the method `f` and then undefines it, with line breaks around everything but names. -/
def wrappedCall : Node :=
  .newline .sample (.block .sample
    [.newline .sample (.newline .sample (.localAssign .sample "x" (some
      (.newline .sample (.call .sample "f" []))))),
    .newline .sample (.undef .sample (.symbol .sample "f")),
    .newline .sample (.localVar .sample "x")])

/-- Returns a value; there are line breaks around both. -/
def wrappedReturn : Node :=
  .newline .sample (.jump .sample .ret (some (.newline .sample (.nil .sample))))

/-- The call returns, and yields a value with line breaks and without them. -/
theorem wrappedCall_transparent :
    let m := Machine.oneMethod .default wrappedReturn
    wrappedCall.KindsBare ∧ m.StoresOnly Node.KindsBare ∧
      ∃ v m₁ m₂, wrappedCall.EndsWith m (.value v) m₁ ∧
        wrappedCall.eraseBreaks.EndsWith m.eraseBreaks (.value v) m₂ ∧
        m₂.context = m₁.context ∧ m₂.heap = m₁.heap.mapBodies Node.eraseBreaks := by
  intro m
  have ht : wrappedCall.KindsBare := by decide +kernel
  have hm : m.StoresOnly Node.KindsBare := Machine.storesOnly_oneMethod (by decide +kernel)
  have hvalue : (evaluate 12 wrappedCall m).1.isValue = true := by decide +kernel
  obtain ⟨v, hv⟩ := Outcome.exists_value hvalue
  have hends : wrappedCall.EndsWith m (.value v) (evaluate 12 wrappedCall m).2 :=
    Node.endsWith_of_evaluate (Prod.ext hv rfl) rfl
  obtain ⟨m₂, hends₂, hcontext, hheap⟩ := (lineBreaks_transparent ht hm (.value v)).1 _ hends
  exact ⟨ht, hm, v, _, m₂, hends, hends₂, hcontext, hheap⟩

end Treewalk
