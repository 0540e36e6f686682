import Treewalk.Proofs.Bodies
import Treewalk.Proofs.Fuel
import Treewalk.Proofs.Reach
import Treewalk.Proofs.Sample

/-!
# Where nodes stand makes no difference

Trees that are equal but for the tags of their nodes mean the same: `repositioning_inert`. They end
alike on machines whose stored bodies are equal but for tags, and what they leave behind is alike.
Only what names a place can tell them apart: where an error or a jump is placed, and the start of
a warning. So moving nodes, in a tree or in stored bodies, changes no meaning.

Two such trees have a third in common, with one and the same tag on all its nodes. Each of the two
is compared with that one, and so their shapes never have to be compared with each other.
-/

set_option autoImplicit false

namespace Treewalk

/-! ## Equal but for tags -/

namespace Node

/-- The tree with one tag on all its nodes. -/
def untagged (n : Node) : Node := n.mapTags fun _ => .sample

/-- Trees that are equal but for where their nodes stand and which these are. -/
def SameButTags (n n' : Node) : Prop := n.untagged = n'.untagged

theorem tag_untagged (n : Node) : n.untagged.tag = .sample := by
  cases n <;> rfl

theorem staticName?_untagged (n : Node) : n.untagged.staticName? = n.staticName? := by
  cases n <;> rfl

theorem mapTags_mapTags (f g : Tag → Tag) (n : Node) :
    (n.mapTags f).mapTags g = n.mapTags (g ∘ f) := by
  induction n using Node.induction with
  | step n ih =>
    have hlist : ∀ ns : List Node, (∀ c ∈ ns, c ∈ n.childList) →
        mapTagsList g (mapTagsList f ns) = mapTagsList (g ∘ f) ns := by
      intro ns hns
      simp only [mapTagsList_eq, List.map_map]
      exact List.map_congr_left fun c hc => ih c (hns c hc)
    have hoption : ∀ o : Option Node, (∀ c ∈ o, c ∈ n.childList) →
        mapTagsOption g (mapTagsOption f o) = mapTagsOption (g ∘ f) o := by
      intro o ho
      simp only [mapTagsOption_eq, Option.map_map]
      exact Option.map_congr fun c hc => ih c (ho c hc)
    cases n with
    | _ => simp_all [mapTags, childList, children, Children.toList, Children.ofOption]

/-- Whatever happens to the tags of a tree, the rest of it stays. -/
theorem sameButTags_mapTags (f : Tag → Tag) (n : Node) : (n.mapTags f).SameButTags n :=
  mapTags_mapTags f _ n

theorem sameButTags_reposition (id : Nat) (l : Location) (n : Node) :
    (n.reposition id l).SameButTags n :=
  sameButTags_mapTags _ n

end Node

/-- Jumps that whatever receives them cannot tell apart. -/
structure Signal.SameButPlace (s s' : Signal) : Prop where
  keyword : s.keyword = s'.keyword
  value : s.value = s'.value

/-- The same error, or one with the same cause that is placed elsewhere. The class, the detail and
the missing name go with the cause. -/
inductive Error.SameButPlace : Error → Error → Prop
  | same (e : Error) : SameButPlace e e
  | fault (cause : Fault) (l l' : Option Location) :
    SameButPlace (.fault cause l) (.fault cause l')

/-- The same warning, or one with the same message about another place. -/
inductive SameWarning : String → String → Prop
  | same (text : String) : SameWarning text text
  | placed (l l' : Location) (message : String) :
    SameWarning (l.warning message) (l'.warning message)

abbrev Outcome.SameButPlace : Outcome Value → Outcome Value → Prop :=
  Outcome.Rel Eq Signal.SameButPlace Error.SameButPlace

/-- Machines that are equal but for the tags in stored bodies, and the places that warnings name.
The journals may be any. -/
structure Machine.SameButPlaces (m m' : Machine) : Prop where
  context : m.context = { m'.context with warnings := m.context.warnings }
  environments : m.heap.environments = m'.heap.environments
  tables : m.heap.scopes.mapBodies Node.untagged = m'.heap.scopes.mapBodies Node.untagged
  warnings : List.Forall₂ SameWarning m.context.warnings m'.context.warnings

theorem Machine.sameButPlaces_reposition (id : Nat) (l : Location) (m : Machine) :
    { m with heap := m.heap.reposition id l }.SameButPlaces m := by
  have hcomp : Node.untagged ∘ Node.reposition id l = Node.untagged :=
    funext (Node.sameButTags_reposition id l)
  refine ⟨rfl, rfl, ?_, List.forall₂_same.mpr fun text _ => .same text⟩
  rw [Heap.reposition, Scopes.mapBodies_mapBodies, hcomp]

/-- Two runs that end alike, or end neither. -/
structure SameEnd (p q : Outcome Value × Machine) : Prop where
  outcome : p.1.SameButPlace q.1
  machine : p.2.SameButPlaces q.2

/-! ## A tree beside the one without its tags -/

/-- The right machine has the bodies of the left one without their tags. Since the start, when the
left one had received the given texts, the two received the same messages. -/
structure Machine.Untagged (before messages : List String) (m m' : Machine) : Prop where
  context : m'.context = { m.context with warnings := messages.map Location.sample.warning }
  heap : m'.heap = m.heap.mapBodies Node.untagged
  warnings : ∃ texts, m.context.warnings = before ++ texts ∧
    List.Forall₂ (fun text message => ∃ l : Location, text = l.warning message) texts messages

/-- The right run is that of the tree without its tags. -/
def untagging (before : List String) : Simulation where
  state m m' := ∃ messages, m.Untagged before messages m'
  signal := Signal.SameButPlace
  error := Error.SameButPlace
  lax := False

/-- Nodes are like those without tags. -/
def Likeness.untagged : Likeness where
  node n n' := n.untagged = n'
  body n n' := n.untagged = n'
  target n n' := n.untagged = n'
  tag _ t' := t' = .sample
  scope := Eq
  signal := Signal.SameButPlace
  misuse _ := True
  loops := True
  stray := True
  received h := ⟨h.keyword, h.value⟩

section

variable {before : List String}

/-- No update of the machine looks at a tag. -/
theorem renoding_untagging :
    Renoding Node.untagged (fun _ => True) (fun _ => True) (untagging before) .untagged where
  scope := (and_iff_left trivial).symm
  body := (and_iff_right trivial).symm
  signal := rfl
  stray := trivial
  misuse _ := .same _
  fault c _ _ _ := .fault c _ _
  within _ := .any ..
  context hm := by
    obtain ⟨messages, hm⟩ := hm
    rw [hm.context]
  heap hm := by
    obtain ⟨messages, hm⟩ := hm
    exact hm.heap
  updated {m m'} hm c h hwarnings _ := by
    obtain ⟨messages, hm⟩ := hm
    refine ⟨messages, ?_, rfl, ?_⟩
    · rw [hm.context]
    · simp only [hwarnings]
      exact hm.warnings
  warn {m m' t t'} message ht hm := by
    obtain ⟨messages, hm⟩ := hm
    cases ht
    simp only [Context.warn_eq, hm.context]
    split
    · obtain ⟨texts, htexts, hall⟩ := hm.warnings
      refine ⟨messages ++ [message], ?_, hm.heap, texts ++ [t.location.warning message], ?_, ?_⟩
      · simp [Tag.sample]
      · simp [htexts]
      · exact List.rel_append hall (.cons ⟨_, rfl⟩ .nil)
    · exact ⟨messages, rfl, hm.heap, hm.warnings⟩
  started _ hm := by
    obtain ⟨messages, hm⟩ := hm
    exact ⟨messages, hm.context, hm.heap, hm.warnings⟩
  ended _ _ hm := by
    obtain ⟨messages, hm⟩ := hm
    exact ⟨messages, hm.context, hm.heap, hm.warnings⟩
  entered hm := by
    obtain ⟨messages, hm⟩ := hm
    exact ⟨messages, hm.context, hm.heap, hm.warnings⟩

/-! ## Steps -/

theorem operands_untagged (n : Node) : Likeness.untagged.Operands n n.untagged := by
  have hname : n.untagged.staticName? = n.staticName? := n.staticName?_untagged
  cases h : n.staticName? with
  | none => exact .computed h (by rw [hname, h]) rfl n.tag_untagged
  | some name => exact .spelledOut h (by rw [hname, h])

theorem forall₂_untagged (ns : List Node) :
    List.Forall₂ Likeness.untagged.node ns (Node.mapTagsList (fun _ => .sample) ns) := by
  rw [Node.mapTagsList_eq]
  exact List.forall₂_map_right_iff.mpr (List.forall₂_same.mpr fun _ _ => rfl)

theorem optionRel_untagged (o : Option Node) :
    Option.Rel Likeness.untagged.node o (Node.mapTagsOption (fun _ => .sample) o) := by
  rw [Node.mapTagsOption_eq]
  exact optionRel_renoded Node.untagged o

theorem assigns_untagged : ∀ n n' : Node, n.untagged = n' → Likeness.untagged.Assigns n n' := by
  rintro n _ rfl
  cases n with
  | localAssign => exact .localAssign
  | multiAssign => exact .multiAssign rfl (forall₂_untagged _) (optionRel_untagged _)
  | _ => exact .other rfl rfl rfl trivial

theorem steps_untagged : ∀ n n' : Node, n.untagged = n' → Likeness.untagged.Steps n n' := by
  rintro n _ rfl
  cases n with
  | nil => exact .nil
  | bool => exact .bool
  | int => exact .int
  | float => exact .float
  | str => exact .str
  | dstr => exact .dstr (forall₂_untagged _)
  | symbol => exact .symbol
  | dsymbol => exact .dsymbol (forall₂_untagged _)
  | literal => exact .literal trivial
  | array => exact .array (forall₂_untagged _)
  | localVar => exact .localVar rfl
  | localAssign t name own =>
    cases own with
    | none => exact .localAssignOnly trivial
    | some v => exact .localAssign rfl
  | multiAssign t targets rest own =>
    cases own with
    | none => exact .multiAssignOnly trivial
    | some v => exact .multiAssign (forall₂_untagged _) (optionRel_untagged _) rfl
  | block => exact .block (forall₂_untagged _)
  | newline => exact .newline rfl
  | whileLoop => exact .whileLoop trivial rfl rfl
  | jump t keyword own => exact .jump (fun _ => ⟨rfl, rfl⟩) (optionRel_untagged own)
  | defined => exact .defined rfl
  | args => exact .args trivial
  | define t name params b => exact .define rfl rfl (optionRel_untagged b)
  | call => exact .call rfl (forall₂_untagged _)
  | scope t sort name b => exact .scope rfl (optionRel_untagged b)
  | undef t operand => exact .undef rfl (operands_untagged operand)
  | aliasName t a b => exact .aliasName rfl (operands_untagged a) (operands_untagged b)

theorem untagging_evaluate (fuel : Nat) (n : Node) :
    (untagging before).judgment _ Eq (evaluate fuel n) (evaluate fuel n.untagged) := by
  have hcongruence : Congruence .untagged (untagging before).judgment :=
    renoding_untagging.stable.congruence steps_untagged assigns_untagged fun _ _ h => h
  exact hcongruence.evaluate fuel rfl

end

/-! ## Two trees beside the same one -/

/-- The machine without tags that both are compared with; it received nothing yet. -/
def Machine.untagged (m : Machine) : Machine :=
  { m with
    context := { m.context with warnings := [] }
    heap := m.heap.mapBodies Node.untagged }

theorem Location.warning_injective (l : Location) : Function.Injective l.warning := by
  intro a b h
  simpa [Location.warning, toString] using h

/-- Texts with the same messages in them. -/
theorem sameWarning_of_messages {texts texts' messages : List String}
    (h : List.Forall₂ (fun text message => ∃ l : Location, text = l.warning message) texts messages)
    (h' : List.Forall₂ (fun text message => ∃ l : Location, text = l.warning message) texts'
      messages) : List.Forall₂ SameWarning texts texts' := by
  induction h generalizing texts' with
  | nil =>
    cases h'
    exact .nil
  | cons htext _ ih =>
    obtain _ | ⟨htext', hrest⟩ := h'
    obtain ⟨l, rfl⟩ := htext
    obtain ⟨l', rfl⟩ := htext'
    exact .cons (.placed l l' _) (ih hrest)

namespace Machine

variable {m m' u : Machine} {before before' messages messages' : List String}

theorem untagged_self (m : Machine) : m.Untagged m.context.warnings [] m.untagged :=
  ⟨rfl, rfl, [], by simp, .nil⟩

theorem SameButPlaces.untagged (h : m.SameButPlaces m') :
    m'.Untagged m'.context.warnings [] m.untagged := by
  refine ⟨?_, ?_, [], by simp, .nil⟩
  · rw [Machine.untagged, h.context]
    rfl
  · rw [Machine.untagged, Heap.mapBodies, h.environments, h.tables]
    rfl

/-- Two machines beside the same one, if what they received before was alike. -/
theorem Untagged.sameButPlaces (h : m.Untagged before messages u)
    (h' : m'.Untagged before' messages' u) (hbefore : List.Forall₂ SameWarning before before') :
    m.SameButPlaces m' := by
  have hcontext := h.context.symm.trans h'.context
  have hheap := h.heap.symm.trans h'.heap
  have hmessages : messages = messages' :=
    (List.map_injective_iff.mpr Location.sample.warning_injective)
      (congrArg Context.warnings hcontext)
  subst hmessages
  obtain ⟨texts, htexts, hall⟩ := h.warnings
  obtain ⟨texts', htexts', hall'⟩ := h'.warnings
  obtain ⟨henvironments, htables⟩ := Heap.mk.inj hheap
  refine ⟨?_, henvironments, htables, ?_⟩
  · exact congrArg (fun c => { c with warnings := m.context.warnings }) hcontext
  · rw [htexts, htexts']
    exact List.rel_append hbefore (sameWarning_of_messages hall hall')

end Machine

namespace Outcome.SameButPlace

variable {o o' o'' : Outcome Value}

theorem symm (h : o.SameButPlace o') : o'.SameButPlace o := by
  cases h with
  | value h => exact .value h.symm
  | jump h => exact .jump ⟨h.keyword.symm, h.value.symm⟩
  | error h =>
    cases h with
    | same => exact .error (.same _)
    | fault cause l l' => exact .error (.fault cause l' l)
  | outOfFuel => exact .outOfFuel

theorem trans (h : o.SameButPlace o') (h' : o'.SameButPlace o'') : o.SameButPlace o'' := by
  cases h with
  | value h =>
    cases h
    exact h'
  | jump h =>
    obtain _ | h' | _ | _ := h'
    exact .jump ⟨h.keyword.trans h'.keyword, h.value.trans h'.value⟩
  | error h =>
    cases h with
    | same => exact h'
    | fault cause l l' =>
      obtain _ | _ | h' | _ := h'
      cases h' with
      | same => exact .error (.fault cause l l')
      | fault _ _ l'' => exact .error (.fault cause l l'')
  | outOfFuel => exact h'

theorem isFinal_eq (h : o.SameButPlace o') : o.isFinal = o'.isFinal := by
  cases h <;> rfl

/-- A program makes the same of them, a place for its own failure apart. -/
theorem received (h : o.SameButPlace o') (t t' : Node) :
    (o.received t).SameButPlace (o'.received t') := by
  cases h with
  | value h => exact .value h
  | error h => exact .error h
  | outOfFuel => exact .outOfFuel
  | @jump s s' h =>
    obtain ⟨keyword, v, l⟩ := s
    obtain ⟨keyword', v', l'⟩ := s'
    obtain ⟨rfl, rfl⟩ := h
    cases keyword with
    | ret => exact .value rfl
    | brk | next => exact .error (.fault _ _ _)

end Outcome.SameButPlace

section

variable {t t' : Node} {m m' : Machine}

theorem sameEnd_evaluate (ht : t.SameButTags t') (hm : m.SameButPlaces m') (fuel : Nat) :
    SameEnd (evaluate fuel t m) (evaluate fuel t' m') := by
  rcases untagging_evaluate fuel t m m.untagged ⟨[], m.untagged_self⟩ with h | ⟨⟨_, hs⟩, ho⟩
  · exact absurd h.1 id
  rcases untagging_evaluate fuel t' m' m.untagged ⟨[], hm.untagged⟩ with h | ⟨⟨_, hs'⟩, ho'⟩
  · exact absurd h.1 id
  rw [← ht] at hs' ho'
  exact ⟨Outcome.SameButPlace.trans ho (Outcome.SameButPlace.symm ho'),
    hs.sameButPlaces hs' hm.warnings⟩

theorem sameEnd_run (ht : t.SameButTags t') (hm : m.SameButPlaces m') (fuel : Nat) :
    SameEnd (run fuel t m) (run fuel t' m') := by
  have h := sameEnd_evaluate ht hm fuel
  rw [run_eq, run_eq]
  exact ⟨h.outcome.received t t', h.machine⟩

/-- **Where nodes stand makes no difference.** Trees that are equal but for tags, on machines that
are equal but for tags and places, end alike or not at all: with the same value, the same jump or
an error with the same cause, and with machines that are again equal but for tags and places. So do
programs. -/
theorem repositioning_inert (ht : t.SameButTags t') (hm : m.SameButPlaces m') :
    (∀ o m₁, t.EndsWith m o m₁ → ∃ o' m₁', t'.EndsWith m' o' m₁' ∧ SameEnd (o, m₁) (o', m₁')) ∧
    (∀ o' m₁', t'.EndsWith m' o' m₁' → ∃ o m₁, t.EndsWith m o m₁ ∧ SameEnd (o, m₁) (o', m₁')) ∧
    ∀ fuel, SameEnd (run fuel t m) (run fuel t' m') := by
  refine ⟨fun o m₁ h => ?_, fun o' m₁' h => ?_, sameEnd_run ht hm⟩
  · obtain ⟨fuel, hrun⟩ := h.exists_evaluate
    have hend := sameEnd_evaluate ht hm fuel
    rw [hrun] at hend
    have hfinal : (evaluate fuel t' m').1.isFinal = true := hend.outcome.isFinal_eq ▸ h.1
    exact ⟨_, _, Node.endsWith_of_isFinal hfinal, hend⟩
  · obtain ⟨fuel, hrun⟩ := h.exists_evaluate
    have hend := sameEnd_evaluate ht hm fuel
    rw [hrun] at hend
    have hfinal : (evaluate fuel t m).1.isFinal = true := hend.outcome.isFinal_eq.symm ▸ h.1
    exact ⟨_, _, Node.endsWith_of_isFinal hfinal, hend⟩

end

/-- Undefines a method that is warned about, and yields a value after that. -/
def warnedUndef : Node :=
  .scope .sample .klass "B" (some (.block .sample
    [.define .sample "object_id" ⟨.sample, []⟩ none,
    .undef ⟨1, .sample⟩ (.symbol .sample "object_id"), .symbol .sample "done"]))

/-- Does so itself and then calls a method `f`. -/
def warnedTwice : Node := .block .sample [warnedUndef, .call .sample "f" []]

/-- The statement that is warned about is moved, in the program and in the method that it calls. -/
theorem warnedTwice_inert :
    let m := Machine.oneMethod .default warnedUndef
    let m' := { m with heap := m.heap.reposition 1 .elsewhere }
    let t' := warnedTwice.reposition 1 .elsewhere
    t'.SameButTags warnedTwice ∧ m'.SameButPlaces m ∧
      ∃ v m₁ m₂, t'.EndsWith m' (.value v) m₁ ∧ warnedTwice.EndsWith m (.value v) m₂ ∧
        m₁.SameButPlaces m₂ := by
  intro m m' t'
  have ht : t'.SameButTags warnedTwice := Node.sameButTags_reposition ..
  have hm : m'.SameButPlaces m := Machine.sameButPlaces_reposition ..
  have hvalue : (evaluate 9 t' m').1.isValue = true := by decide +kernel
  obtain ⟨v, hv⟩ := Outcome.exists_value hvalue
  have hends : t'.EndsWith m' (.value v) (evaluate 9 t' m').2 :=
    Node.endsWith_of_evaluate (Prod.ext hv rfl) rfl
  obtain ⟨o, m₂, hends₂, houtcome, hmachine⟩ := (repositioning_inert ht hm).1 _ _ hends
  obtain ⟨rfl⟩ | _ | _ | _ := houtcome
  exact ⟨ht, hm, v, _, m₂, hends, hends₂, hmachine⟩

end Treewalk
