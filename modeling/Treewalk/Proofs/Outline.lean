import Treewalk.Proofs.Addresses
import Treewalk.Proofs.Delimiters
import Treewalk.Proofs.NumberText
import Treewalk.Proofs.Occurs
import Treewalk.Proofs.Sample
import Treewalk.Syntax.Debug

/-!
# What debug text says of a tree

The debug text of a tree says what its skeleton is, and nothing else: `debugText_eq_iff`. The
skeleton of a line break is empty; that of another node has its kind, its name, its line and the
skeletons of its children in it. So the text tells which children a node has, and which of them are
line breaks, since those leave an empty item behind.

Names are written as they are, and a blank ends them: this is said of trees in whose names there is
no blank. The delimiters of the text itself, commas and parentheses, may stand in names.
-/

set_option autoImplicit false

namespace Treewalk

/-- What is shown of a tree. -/
inductive Skeleton where
  | hidden
  | shown (kind : Kind) (name : Option String) (line : String) (children : List Skeleton)

namespace Node

def skeleton (n : Node) : Skeleton :=
  if n.kind.isInvisible then .hidden
  else .shown n.kind n.name? n.location.line.text
    (n.childList.attach.map fun ⟨c, _⟩ => skeleton c)
termination_by sizeOf n
decreasing_by exact sizeOf_lt_of_mem_childList ‹_›

theorem skeleton_eq (n : Node) :
    n.skeleton = if n.kind.isInvisible then .hidden
      else .shown n.kind n.name? n.location.line.text (n.childList.map skeleton) := by
  rw [skeleton]
  simp

/-- There is no blank in the names of a tree. -/
def NamesWithoutBlanks (n : Node) : Prop :=
  ∀ d : Node, d.Occurs n → ∀ name, d.name? = some name → ' ' ∉ name.toList

theorem namesWithoutBlanks_iff {n : Node} :
    n.NamesWithoutBlanks ↔
      (∀ name, n.name? = some name → ' ' ∉ name.toList) ∧
        ∀ c ∈ n.childList, c.NamesWithoutBlanks :=
  forall_occurs_iff (P := fun d => ∀ name, d.name? = some name → ' ' ∉ name.toList)

/-! ## Headings -/

/-- The name of a node, behind a colon. -/
def nameChars : Option String → List Char
  | none => []
  | some name => ':' :: name.toList

theorem nameChars_injective {o o' : Option String} (h : nameChars o = nameChars o') : o = o' := by
  match o, o' with
  | none, none => rfl
  | some _, some _ => rw [String.toList_inj.mp (List.cons.inj h).2]

theorem toList_heading (n : Node) :
    n.heading.toList =
      (n.kind.name.toList ++ nameChars n.name?) ++ ' ' :: n.location.line.chars := by
  rw [heading, String.toList_append, String.toList_append, String.toList_append,
    Double.toList_text, List.append_assoc]
  cases n.name? with
  | none => rfl
  | some name =>
    rw [String.toList_append]
    rfl

theorem not_mem_kindName (k : Kind) : ':' ∉ k.name.toList ∧ ' ' ∉ k.name.toList := by
  cases k <;> decide

/-- Kinds and names are told apart by their texts, since no kind has a colon in it. -/
theorem eq_of_kindName_append {k k' : Kind} {o o' : Option String}
    (h : k.name.toList ++ nameChars o = k'.name.toList ++ nameChars o') : k = k' ∧ o = o' := by
  have hfree : ∀ k : Kind, ∀ c ∈ k.name.toList, c ∉ [':'] := by
    rintro k c hc hcolon
    rw [List.mem_singleton.mp hcolon] at hc
    exact (not_mem_kindName k).1 hc
  have hfollows : ∀ o : Option String, Text.Follows [':'] (nameChars o) := by
    intro o
    cases o with
    | none => exact Text.follows_nil
    | some name => exact Text.follows_cons.mpr List.mem_cons_self
  obtain ⟨hkind, hname⟩ :=
    Text.tellApart_of_free (hfree k) (hfree k') _ _ (hfollows o) (hfollows o') h
  exact ⟨Kind.name_injective (String.toList_inj.mp hkind), nameChars_injective hname⟩

theorem tellApart_heading {n n' : Node} (hn : n.NamesWithoutBlanks)
    (hn' : n'.NamesWithoutBlanks) :
    Text.TellApart [',', ')'] n.heading.toList n'.heading.toList
      ((n.kind = n'.kind ∧ n.name? = n'.name?) ∧
        n.location.line.text = n'.location.line.text) := by
  have hfree : ∀ n : Node, n.NamesWithoutBlanks →
      ∀ c ∈ n.kind.name.toList ++ nameChars n.name?, c ∉ [' '] := by
    rintro n hn c hc hblank
    rw [List.mem_singleton.mp hblank] at hc
    rcases List.mem_append.mp hc with hc | hc
    · exact (not_mem_kindName n.kind).2 hc
    · cases hname : n.name? with
      | none =>
        rw [hname] at hc
        exact List.not_mem_nil hc
      | some name =>
        rw [hname, nameChars, List.mem_cons] at hc
        exact (namesWithoutBlanks_iff.mp hn).1 name hname (hc.resolve_left (by decide))
  have hline := Double.not_delimiter_of_mem_chars
    (by decide : [',', ')'].any Double.isNumberChar = false)
  rw [toList_heading, toList_heading]
  exact ((Text.tellApart_of_free (hfree n hn) (hfree n' hn')).imp eq_of_kindName_append).append_cons
    ((Text.tellApart_of_free (hline _) (hline _)).imp (congrArg String.ofList))

/-! ## Texts of trees -/

def debugChars (n : Node) : List Char := n.debugText.toList

theorem debugChars_eq (n : Node) :
    n.debugChars = if n.kind.isInvisible then []
      else '(' :: (n.heading.toList ++ (Text.items debugChars n.childList ++ [')'])) := by
  rw [debugChars, debugText_eq]
  split
  · rfl
  · have hchildren : (String.join (n.childList.map fun c => ", " ++ debugText c)).toList =
        Text.items debugChars n.childList := by
      rw [String.toList_join, List.flatMap_map, Text.items]
      congr 1
      funext c
      rw [String.toList_append]
      rfl
    rw [String.toList_append, String.toList_append, String.toList_append, hchildren,
      List.append_assoc, List.append_assoc]
    rfl

/-- The text of a tree is told from that of another one, in front of anything that can follow a
child, by their skeletons. By induction on the first tree; lists of children are told apart because
their elements are. -/
theorem tellApart_debugChars {n n' : Node} (hn : n.NamesWithoutBlanks)
    (hn' : n'.NamesWithoutBlanks) :
    Text.TellApart [',', ')'] n.debugChars n'.debugChars (n.skeleton = n'.skeleton) := by
  induction n using Node.induction generalizing n' with
  | step n ih =>
    intro r s hr hs heq
    -- Nothing that is shown starts with what can follow a node that is not.
    have hopen : ∀ {cs s : List Char}, Text.Follows [',', ')'] s → '(' :: cs ≠ s := by
      rintro cs s hs rfl
      exact absurd (Text.follows_cons.mp hs) (by decide)
    rw [debugChars_eq, debugChars_eq] at heq
    rw [skeleton_eq, skeleton_eq]
    by_cases hv : n.kind.isInvisible = true
    · by_cases hv' : n'.kind.isInvisible = true
      · rw [if_pos hv, if_pos hv'] at heq ⊢
        exact ⟨rfl, heq⟩
      · rw [if_pos hv, if_neg hv'] at heq
        exact absurd heq.symm (hopen hr)
    · by_cases hv' : n'.kind.isInvisible = true
      · rw [if_neg hv, if_pos hv'] at heq
        exact absurd heq (hopen hs)
      · rw [if_neg hv, if_neg hv'] at heq ⊢
        simp only [List.cons_append, List.cons.injEq, true_and, List.append_assoc,
          List.nil_append] at heq
        obtain ⟨⟨⟨hkind, hname⟩, hline⟩, hrest⟩ :=
          tellApart_heading hn hn' _ _ Text.follows_items Text.follows_items heq
        obtain ⟨hchildren, hr⟩ := Text.map_eq_of_items (by decide) (fun c hc c' hc' =>
          ih c hc ((namesWithoutBlanks_iff.mp hn).2 c hc)
            ((namesWithoutBlanks_iff.mp hn').2 c' hc')) hrest
        rw [hkind, hname, hline, hchildren]
        exact ⟨rfl, hr⟩

/-! ## What the text tells of each node -/

/-- What the text tells of a node that is shown, and of a node that is not. -/
structure Resembles (d d' : Node) : Prop where
  kind : d.kind = d'.kind
  name : d.kind.isInvisible = false → d.name? = d'.name?
  line : d.kind.isInvisible = false → d.location.line.text = d'.location.line.text
  children : d.kind.isInvisible = false → d.childList.length = d'.childList.length

theorem kind_eq_newline {n : Node} (h : n.kind.isInvisible = true) : n.kind = .newline :=
  of_decide_eq_true h

/-- Nodes with the same skeleton are shown alike, and their children have the same skeletons. -/
theorem resembles_of_skeleton_eq {n n' : Node} (h : n.skeleton = n'.skeleton) :
    n.Resembles n' ∧ (n.kind.isInvisible = false →
      n.childList.map skeleton = n'.childList.map skeleton) := by
  rw [skeleton_eq, skeleton_eq] at h
  split at h
  · next hv =>
    split at h
    · next hv' =>
      refine ⟨⟨?_, ?_, ?_, ?_⟩, ?_⟩
      · rw [kind_eq_newline hv, kind_eq_newline hv']
      all_goals exact fun hshown => absurd (hv.symm.trans hshown) (by decide)
    · exact absurd h nofun
  · split at h
    · exact absurd h nofun
    · injection h with hkind hname hline hchildren
      have hlength := congrArg List.length hchildren
      rw [List.length_map, List.length_map] at hlength
      exact ⟨⟨hkind, fun _ => hname, fun _ => hline, fun _ => hlength⟩, fun _ => hchildren⟩

/-- Lists with the same skeletons have them in the same places. -/
theorem rel_getElem? {ns ns' : List Node} (h : ns.map skeleton = ns'.map skeleton) (i : Nat) :
    Option.Rel (fun c c' => c.skeleton = c'.skeleton) ns[i]? ns'[i]? := by
  have hi := congrArg (·[i]?) h
  simp only [List.getElem?_map] at hi
  cases hc : ns[i]? <;> cases hc' : ns'[i]? <;> simp only [hc, hc', Option.map_some,
    Option.map_none, reduceCtorEq, Option.some.injEq] at hi
  · exact .none
  · exact .some hi

/-- The address is below no node that is not shown. -/
def InSight (n : Node) (a : Address) : Prop :=
  ∀ b, b <+: a → b ≠ a → ∀ d, n.at? b = some d → d.kind.isInvisible = false

theorem InSight.child {n c : Node} {i : Nat} {a : Address} (h : n.InSight (i :: a))
    (hc : n.childList[i]? = some c) : c.InSight a := by
  intro b hb hne d hd
  exact h (i :: b) (List.cons_prefix_cons.mpr ⟨rfl, hb⟩) (by simpa using hne) d
    (at?_cons_eq_some_iff.mpr ⟨c, hc, hd⟩)

/-- Trees with the same skeleton have nodes with the same skeleton at each address in sight. -/
theorem rel_at? {n n' : Node} (h : n.skeleton = n'.skeleton) {a : Address} (ha : n.InSight a) :
    Option.Rel (fun d d' => d.skeleton = d'.skeleton) (n.at? a) (n'.at? a) := by
  induction a generalizing n n' with
  | nil => exact .some h
  | cons i a ih =>
    have hshown : n.kind.isInvisible = false :=
      ha [] List.nil_prefix (List.cons_ne_nil _ _).symm n rfl
    have hchild := rel_getElem? ((resembles_of_skeleton_eq h).2 hshown) i
    rw [at?_cons, at?_cons]
    match hc : n.childList[i]?, hc' : n'.childList[i]?, hchild with
    | none, none, _ => exact .none
    | some c, some c', .some hsame => exact ih hsame (ha.child hc)

/-- The text depends on the skeleton alone. -/
theorem debugText_congr {n n' : Node} (h : n.skeleton = n'.skeleton) :
    n.debugText = n'.debugText := by
  induction n using Node.induction generalizing n' with
  | step n ih =>
    obtain ⟨hnode, hchildren⟩ := resembles_of_skeleton_eq h
    rw [debugText_eq, debugText_eq, ← hnode.kind]
    cases hv : n.kind.isInvisible with
    | true => rfl
    | false =>
      have htexts : n.childList.map debugText = n'.childList.map debugText := by
        refine List.ext_getElem? fun i => ?_
        rw [List.getElem?_map, List.getElem?_map]
        match hc : n.childList[i]?, hc' : n'.childList[i]?, rel_getElem? (hchildren hv) i with
        | none, none, _ => rfl
        | some c, some c', .some hsame =>
          exact congrArg some (ih c (List.mem_of_getElem? hc) hsame)
      have hheading : n.heading = n'.heading := by
        rw [heading, heading, hnode.kind, hnode.name hv, hnode.line hv]
      have hitems : ∀ m : Node, (m.childList.map fun c => ", " ++ debugText c) =
          (m.childList.map debugText).map (", " ++ ·) := fun m => List.map_map.symm
      rw [hheading, hitems, hitems, htexts]

end Node

/-- **Debug text tells the skeleton of a tree**, and depends on nothing else. So where texts agree,
the same addresses have nodes, as far as nothing that is not shown stands above them, and these
nodes have the same kinds, names and lines and as many children. -/
theorem debugText_eq_iff {n n' : Node} (hn : n.NamesWithoutBlanks) (hn' : n'.NamesWithoutBlanks) :
    (n.debugText = n'.debugText ↔ n.skeleton = n'.skeleton) ∧
    (n.debugText = n'.debugText → ∀ a, n.InSight a →
      Option.Rel Node.Resembles (n.at? a) (n'.at? a)) := by
  have hiff : n.debugText = n'.debugText ↔ n.skeleton = n'.skeleton :=
    ⟨fun h => (Node.tellApart_debugChars hn hn').of_eq (congrArg String.toList h),
      Node.debugText_congr⟩
  refine ⟨hiff, fun h a ha => ?_⟩
  match n.at? a, n'.at? a, Node.rel_at? (hiff.mp h) ha with
  | none, none, _ => exact .none
  | some d, some d', .some hsame => exact .some (Node.resembles_of_skeleton_eq hsame).1

/-- A block with a line break in it is told from an empty block; what the line break wraps is not
shown. -/
theorem debugText_eq_iff_block :
    (Node.block .sample []).debugText ≠
      (Node.block .sample [.newline .sample (.nil .sample)]).debugText ∧
    (Node.block .sample [.newline .sample (.nil .sample)]).debugText =
      (Node.block .sample [.newline .sample (.symbol .sample "a,b")]).debugText := by
  have hblock : ∀ {cs : List Node}, (∀ c ∈ cs, c.NamesWithoutBlanks) →
      (Node.block .sample cs).NamesWithoutBlanks :=
    fun hcs => Node.namesWithoutBlanks_iff.mpr ⟨nofun, hcs⟩
  have hbreak : ∀ {c : Node}, c.NamesWithoutBlanks →
      (Node.block .sample [.newline .sample c]).NamesWithoutBlanks := fun hc =>
    hblock (List.forall_mem_singleton.mpr
      (Node.namesWithoutBlanks_iff.mpr ⟨nofun, List.forall_mem_singleton.mpr hc⟩))
  have hnil : (Node.nil .sample).NamesWithoutBlanks :=
    Node.namesWithoutBlanks_iff.mpr ⟨nofun, nofun⟩
  have hsymbol : (Node.symbol .sample "a,b").NamesWithoutBlanks := by
    refine Node.namesWithoutBlanks_iff.mpr
      ⟨fun name h => ?_, fun c hc => absurd hc List.not_mem_nil⟩
    rw [← Option.some.inj h]
    decide
  refine ⟨fun h => ?_, (debugText_eq_iff (hbreak hnil) (hbreak hsymbol)).1.mpr ?_⟩
  · have hsame := (debugText_eq_iff (hblock (List.forall_mem_nil _)) (hbreak hnil)).1.mp h
    exact absurd ((Node.resembles_of_skeleton_eq hsame).1.children rfl) (by decide)
  · have hhidden : ∀ c : Node, (Node.newline .sample c).skeleton = .hidden :=
      fun c => Node.skeleton_eq _
    simp only [Node.skeleton_eq (.block _ _), Node.kind, Node.name?, Node.location, Node.tag,
      Node.childList, Node.children, Children.toList, List.map_cons, List.map_nil, hhidden]

end Treewalk
