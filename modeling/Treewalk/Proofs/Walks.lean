import Treewalk.Proofs.Addresses

/-!
# What a walk enters, and with which ancestors

A callback is asked about each node that a walk meets, and may answer that the walk is not to go
on below that node. `walk_exact` says which nodes it is asked about, in which order and with which
ancestors: those at the addresses on whose way it did not answer so, in the order of addresses.

Children are the nodes that a node has in its fields. That none is missing among them is stated
without them: a node is what is left of it when its fields are emptied, and those fields,
`Node.fill_bare`.
-/

set_option autoImplicit false

namespace Treewalk.Node

/-! ## Fields -/

/-- The fields of a node that hold nodes, in source order. -/
def fields : Node → List Children
  | .nil _ | .bool .. | .int .. | .float .. | .str .. | .symbol .. | .literal .. | .localVar ..
  | .args _ => []
  | .dstr _ parts => [.many parts]
  | .dsymbol _ parts => [.many parts]
  | .array _ elements => [.many elements]
  | .localAssign _ _ value => [.ofOption value]
  | .multiAssign _ targets rest value => [.many targets, .ofOption rest, .ofOption value]
  | .block _ statements => [.many statements]
  | .newline _ statement => [.single statement]
  | .whileLoop _ condition body => [.single condition, .single body]
  | .jump _ _ value => [.ofOption value]
  | .defined _ expression => [.single expression]
  | .define _ _ params body => [.single (.args params), .ofOption body]
  | .call _ _ operands => [.many operands]
  | .scope _ _ _ body => [.ofOption body]
  | .undef _ name => [.single name]
  | .aliasName _ newName oldName => [.single newName, .single oldName]

theorem childList_eq (n : Node) : n.childList = n.fields.flatMap Children.toList := by
  cases n with
  | multiAssign t targets rest value =>
    cases rest with
    | none => cases value <;> simp [childList, children, fields, Children.ofOption, Children.toList]
    | some r => cases value <;> simp [childList, children, fields, Children.ofOption, Children.toList]
  | define t name params body =>
    cases body <;> simp [childList, children, fields, Children.ofOption, Children.toList]
  | _ => simp [childList, children, fields, Children.toList]

/-- The node with its fields emptied; what cannot be empty is the nil literal, or no parameters. -/
def bare : Node → Node
  | .nil t => .nil t
  | .bool t value => .bool t value
  | .int t value whole => .int t value whole
  | .float t value => .float t value
  | .str t text => .str t text
  | .symbol t name => .symbol t name
  | .literal t name => .literal t name
  | .localVar t name => .localVar t name
  | .args params => .args params
  | .dstr t _ => .dstr t []
  | .dsymbol t _ => .dsymbol t []
  | .array t _ => .array t []
  | .localAssign t name _ => .localAssign t name none
  | .multiAssign t _ _ _ => .multiAssign t [] none none
  | .block t _ => .block t []
  | .newline t _ => .newline t (.nil t)
  | .whileLoop t _ _ => .whileLoop t (.nil t) (.nil t)
  | .jump t keyword _ => .jump t keyword none
  | .defined t _ => .defined t (.nil t)
  | .define t name _ _ => .define t name ⟨t, []⟩ none
  | .call t name _ => .call t name []
  | .scope t sort name _ => .scope t sort name none
  | .undef t _ => .undef t (.nil t)
  | .aliasName t _ _ => .aliasName t (.nil t) (.nil t)

/-- The node with these fields in the place of its own. -/
def fill : Node → List Children → Node
  | .dstr t _, [parts] => .dstr t parts.toList
  | .dsymbol t _, [parts] => .dsymbol t parts.toList
  | .array t _, [elements] => .array t elements.toList
  | .localAssign t name _, [value] => .localAssign t name value.toList.head?
  | .multiAssign t _ _ _, [targets, rest, value] =>
    .multiAssign t targets.toList rest.toList.head? value.toList.head?
  | .block t _, [statements] => .block t statements.toList
  | .newline t _, [.single statement] => .newline t statement
  | .whileLoop t _ _, [.single condition, .single body] => .whileLoop t condition body
  | .jump t keyword _, [value] => .jump t keyword value.toList.head?
  | .defined t _, [.single expression] => .defined t expression
  | .define t name _ _, [.single (.args params), body] =>
    .define t name params body.toList.head?
  | .call t name _, [operands] => .call t name operands.toList
  | .scope t sort name _, [body] => .scope t sort name body.toList.head?
  | .undef t _, [.single name] => .undef t name
  | .aliasName t _ _, [.single newName, .single oldName] => .aliasName t newName oldName
  | n, _ => n

theorem fill_bare (n : Node) : n.bare.fill n.fields = n := by
  cases n with
  | localAssign t name o | jump t keyword o | scope t sort name o | define t name params o =>
    cases o <;> rfl
  | multiAssign t targets rest value => cases rest <;> cases value <;> rfl
  | _ => rfl

/-- The fields leave nothing out: what is the same without them and has the same is the same. -/
theorem eq_of_fields {n n' : Node} (hbare : n.bare = n'.bare) (hfields : n.fields = n'.fields) :
    n = n' := by
  rw [← n.fill_bare, ← n'.fill_bare, hbare, hfields]

/-! ## Walks -/

/-- If no node that a walk meets is shut, then the walk meets every node. -/
theorem all_entered {descend : Visit → Bool} {root : Node} {as : List Address}
    (hvisits : List.Forall₂ (Visit.StandsAt root) as (root.walk descend))
    (hmem : ∀ a, a ∈ as ↔ (root.at? a).isSome ∧
      ∀ b, b <+: a → b ≠ a → ∀ u, u.StandsAt root b → descend u = true)
    (hall : ∀ v ∈ root.walk descend, descend v = true) {a : Address} (ha : (root.at? a).isSome) :
    a ∈ as := by
  -- Induction on the length: an address is met if those on the way to it are.
  induction h : a.length using Nat.strongRecOn generalizing a with
  | ind k ih =>
    refine (hmem a).mpr ⟨ha, fun b hb hne u hu => ?_⟩
    have hlt : b.length < k := by
      have hle := hb.length_le
      have hlength : b.length ≠ a.length := fun he => hne (hb.eq_of_length he)
      omega
    have hbmem := ih b.length hlt (isSome_at?_above hb ha) rfl
    obtain ⟨v, hv, hstands⟩ := exists_of_forall₂_of_mem hvisits hbmem
    rw [hu.unique hstands]
    exact hall v hv

end Treewalk.Node

namespace Treewalk

/-- **A walk goes down first, and keeps its path.** Each answer of the callback is to go on or not,
or nothing, which means to go on. It is asked once about each occurrence of a node in the tree that
is below none it shut, in the order of addresses and with the nodes on the way there; if it shuts
none that it is asked about, then about all occurrences. What is below a node is below its children,
and these are all that stands in its fields, in their order. -/
theorem walk_exact :
    (∀ (enter : Visit → Option Bool) (root : Node), ∃ as : List Address,
      as.Pairwise Address.Before ∧
      List.Forall₂ (Visit.StandsAt root) as (root.walk fun v => enter v ≠ some false) ∧
      (∀ a, a ∈ as ↔ (root.at? a).isSome ∧
        ∀ b, b <+: a → b ≠ a → ∀ u, u.StandsAt root b → enter u ≠ some false) ∧
      ((∀ v ∈ root.walk fun v => enter v ≠ some false, enter v ≠ some false) →
        ∀ a, a ∈ as ↔ (root.at? a).isSome)) ∧
    (∀ n : Node, n.childList = n.fields.flatMap Children.toList) ∧
    ∀ n n' : Node, n.bare = n'.bare → n.fields = n'.fields → n = n' := by
  refine ⟨fun enter root => ?_, Node.childList_eq, fun n n' => Node.eq_of_fields⟩
  obtain ⟨as, has, hvisits, hmem⟩ :=
    Node.exists_addresses (fun v => decide (enter v ≠ some false)) root
  refine ⟨as, has, hvisits, fun a => ?_, fun hall a => ?_⟩
  · rw [hmem]
    simp only [decide_eq_true_eq]
  · constructor
    · exact fun ha => ((hmem a).mp ha).1
    · exact Node.all_entered hvisits hmem fun v hv => decide_eq_true (hall v hv)

end Treewalk
