import Mathlib.Data.List.Forall2
import Mathlib.Data.List.Induction
import Treewalk.Syntax.Walk

/-!
# Addresses in a tree

A node may stand in several places of a tree. Its occurrences are told apart by their addresses:
which child to take at each node on the way down from the root. The order of a walk is the
lexicographic order of addresses, in which a node stands before all that is below it, and all that
is below one child before the children that follow it.

`Node.Reaches` says of a walk that it meets a visit at an address, one step down at a time. Its
addresses are those of the nodes under no node that is not entered, `reaches_iff`, and a walk lists
them in their order, each once: `exists_addresses`.
-/

set_option autoImplicit false

namespace Treewalk

/-- The way from a node to one below it: which child to take, at each node on the way. -/
abbrev Address : Type := List Nat

/-- First a node, then what is below its first child, then what is below the next. -/
abbrev Address.Before : Address → Address → Prop := List.Lex (· < ·)

namespace Node

/-- The node at an address. -/
def at? (n : Node) : Address → Option Node
  | [] => some n
  | i :: a => n.childList[i]?.bind fun c => c.at? a

@[simp] theorem at?_nil (n : Node) : n.at? [] = some n := rfl

theorem at?_cons (n : Node) (i : Nat) (a : Address) :
    n.at? (i :: a) = n.childList[i]?.bind fun c => c.at? a := rfl

theorem at?_append (n : Node) (a b : Address) : n.at? (a ++ b) = (n.at? a).bind (·.at? b) := by
  induction a generalizing n with
  | nil => rfl
  | cons i a ih =>
    rw [List.cons_append, at?_cons, at?_cons, Option.bind_assoc]
    congr 1
    funext c
    exact ih c

/-- There is a node at every address on the way to a node. -/
theorem isSome_at?_above {n : Node} {a b : Address} (h : b <+: a) (ha : (n.at? a).isSome) :
    (n.at? b).isSome := by
  obtain ⟨c, rfl⟩ := h
  rw [at?_append] at ha
  exact Option.isSome_of_isSome_bind ha

theorem at?_cons_eq_some_iff {n d : Node} {i : Nat} {a : Address} :
    n.at? (i :: a) = some d ↔ ∃ c, n.childList[i]? = some c ∧ c.at? a = some d := by
  rw [at?_cons, Option.bind_eq_some_iff]

end Node

/-- The visit is that of the node at an address, with the nodes on the way there. -/
structure Visit.StandsAt (root : Node) (a : Address) (v : Visit) : Prop where
  node : root.at? a = some v.node
  ancestors : v.ancestors.map some = (List.range a.length).map fun k => root.at? (a.take k)

theorem Visit.StandsAt.unique {root : Node} {a : Address} {u v : Visit} (hu : u.StandsAt root a)
    (hv : v.StandsAt root a) : u = v := by
  obtain ⟨n, path⟩ := u
  obtain ⟨n', path'⟩ := v
  have hnode : n = n' := Option.some.inj (hu.node.symm.trans hv.node)
  have hancestors : path.reverse.map some = path'.reverse.map some :=
    hu.ancestors.trans hv.ancestors.symm
  have hpath : path.reverse = path'.reverse :=
    (List.map_inj_right fun _ _ => Option.some.inj).mp hancestors
  rw [hnode, List.reverse_injective hpath]

/-! ## What a walk meets -/

/-- A walk of the node, which is reached by the path, meets the visit at the address. -/
inductive Node.Reaches (descend : Visit → Bool) : List Node → Node → Address → Visit → Prop
  | root (path : List Node) (n : Node) : Reaches descend path n [] ⟨n, path⟩
  | child {path : List Node} {n c : Node} {i : Nat} {a : Address} {v : Visit} :
      descend ⟨n, path⟩ = true → n.childList[i]? = some c → Reaches descend (n :: path) c a v →
      Reaches descend path n (i :: a) v

namespace Node

variable {descend : Visit → Bool} {path : List Node} {n : Node} {a b : Address} {v : Visit}

theorem Reaches.at?_eq (h : n.Reaches descend path a v) : n.at? a = some v.node := by
  induction h with
  | root => rfl
  | child _ hc _ ih => exact at?_cons_eq_some_iff.mpr ⟨_, hc, ih⟩

/-- The path to a visit is the path to where the walk began and the nodes met on the way. -/
theorem Reaches.ancestors_eq (h : n.Reaches descend path a v) :
    v.ancestors.map some =
      path.reverse.map some ++ (List.range a.length).map fun k => n.at? (a.take k) := by
  induction h with
  | root path n => simp [Visit.ancestors]
  | @child path n c i a v _ hc _ ih =>
    have hbelow : ∀ k, c.at? (a.take k) = n.at? ((i :: a).take (k + 1)) := by
      intro k
      rw [List.take_succ_cons, at?_cons, hc, Option.bind_some]
    simp only [ih, hbelow, List.length_cons, List.range_succ_eq_map, List.map_cons, List.map_map,
      Function.comp_def, List.reverse_cons, List.map_append, List.append_assoc, List.map_nil,
      List.singleton_append, List.take_zero, at?_nil]

/-- The nodes on the way to what a walk meets are met, and entered. -/
theorem Reaches.entered (h : n.Reaches descend path a v) (hb : b <+: a) (hne : b ≠ a) :
    ∃ u, n.Reaches descend path b u ∧ descend u = true := by
  induction h generalizing b with
  | root => exact absurd (List.prefix_nil.mp hb) hne
  | @child path n c i a v hdescend hc _ ih =>
    cases b with
    | nil => exact ⟨_, .root path n, hdescend⟩
    | cons j b =>
      obtain ⟨rfl, hprefix⟩ := List.cons_prefix_cons.mp hb
      obtain ⟨u, hu, hentered⟩ := ih hprefix (fun h => hne (by rw [h]))
      exact ⟨u, .child hdescend hc hu, hentered⟩

/-- Where all nodes on the way are entered, a walk meets what is there. -/
theorem exists_reaches (path : List Node) {d : Node} (hd : n.at? a = some d)
    (h : ∀ b u, b <+: a → b ≠ a → n.Reaches descend path b u → descend u = true) :
    ∃ v, n.Reaches descend path a v := by
  induction a generalizing n path with
  | nil => exact ⟨_, .root path n⟩
  | cons i a ih =>
    obtain ⟨c, hc, hd⟩ := at?_cons_eq_some_iff.mp hd
    have hdescend : descend ⟨n, path⟩ = true :=
      h [] _ List.nil_prefix (by simp) (.root path n)
    obtain ⟨v, hv⟩ := ih (n :: path) hd fun b u hb hne hu =>
      h (i :: b) u (List.cons_prefix_cons.mpr ⟨rfl, hb⟩) (by simpa using hne)
        (.child hdescend hc hu)
    exact ⟨v, .child hdescend hc hv⟩

theorem Reaches.standsAt {root : Node} (h : root.Reaches descend [] a v) : v.StandsAt root a where
  node := h.at?_eq
  ancestors := by
    rw [h.ancestors_eq]
    rfl

/-- A walk meets what stands at an address if it enters all nodes on the way. -/
theorem reaches_iff {root : Node} :
    root.Reaches descend [] a v ↔ v.StandsAt root a ∧
      ∀ b, b <+: a → b ≠ a → ∀ u, u.StandsAt root b → descend u = true := by
  constructor
  · intro h
    refine ⟨h.standsAt, fun b hb hne u hu => ?_⟩
    obtain ⟨u', hu', hentered⟩ := h.entered hb hne
    rw [hu.unique hu'.standsAt]
    exact hentered
  · rintro ⟨hv, h⟩
    obtain ⟨v', hv'⟩ := exists_reaches [] hv.node fun b u hb hne hu =>
      h b hb hne u hu.standsAt
    rw [hv.unique hv'.standsAt]
    exact hv'

/-! ## A walk as a list of addresses -/

/-- The visits are those that a relation has at some address, in the order of their addresses. -/
def Enumerates (R : Address → Visit → Prop) (vs : List Visit) : Prop :=
  ∃ as : List Address, as.Pairwise Address.Before ∧ List.Forall₂ R as vs ∧ ∀ a v, R a v → a ∈ as

theorem exists_of_forall₂_of_mem {R : Address → Visit → Prop} {as : List Address} {vs : List Visit}
    (h : List.Forall₂ R as vs) (ha : a ∈ as) : ∃ v ∈ vs, R a v := by
  induction h with
  | nil => exact absurd ha List.not_mem_nil
  | cons hr _ ih =>
    rcases List.mem_cons.mp ha with rfl | ha
    · exact ⟨_, List.mem_cons_self, hr⟩
    · obtain ⟨v, hv, hr⟩ := ih ha
      exact ⟨v, List.mem_cons_of_mem _ hv, hr⟩

/-- The walks of some nodes, one after the other; by induction on their number, since the number of
those before a node is the index of that node. -/
theorem enumerates_flatMap {cs : List Node}
    (h : ∀ c ∈ cs, Enumerates (c.Reaches descend path) (c.walkFrom descend path)) :
    Enumerates (fun a v => ∃ i c b, a = i :: b ∧ cs[i]? = some c ∧ c.Reaches descend path b v)
      (cs.flatMap (walkFrom descend path)) := by
  induction cs using List.reverseRecOn with
  | nil => exact ⟨[], .nil, .nil, by simp⟩
  | append_singleton cs c ih =>
    obtain ⟨as, has, hasvs, hall⟩ := ih fun d hd => h d (List.mem_append_left _ hd)
    obtain ⟨bs, hbs, hbsvs, hall'⟩ := h c (List.mem_append_right _ (List.mem_singleton_self c))
    have hlast : (cs ++ [c])[cs.length]? = some c := by simp
    refine ⟨as ++ bs.map (cs.length :: ·), ?_, ?_, ?_⟩
    · rw [List.pairwise_append, List.pairwise_map]
      refine ⟨has, hbs.imp List.Lex.cons, ?_⟩
      intro a ha b hb
      obtain ⟨v, -, i, d, a', rfl, hd, -⟩ := exists_of_forall₂_of_mem hasvs ha
      obtain ⟨b', -, rfl⟩ := List.mem_map.mp hb
      exact .rel (List.getElem?_eq_some_iff.mp hd).1
    · rw [List.flatMap_append, List.flatMap_singleton]
      apply List.rel_append
      · apply hasvs.imp
        rintro a v ⟨i, d, b, rfl, hd, hv⟩
        have hi : i < cs.length := (List.getElem?_eq_some_iff.mp hd).1
        exact ⟨i, d, b, rfl, by rw [List.getElem?_append_left hi, hd], hv⟩
      · rw [List.forall₂_map_left_iff]
        apply hbsvs.imp
        intro b v hv
        exact ⟨cs.length, c, b, rfl, hlast, hv⟩
    · rintro a v ⟨i, d, b, rfl, hd, hv⟩
      by_cases hi : i < cs.length
      · rw [List.getElem?_append_left hi] at hd
        exact List.mem_append_left _ (hall _ v ⟨i, d, b, rfl, hd, hv⟩)
      · rw [List.getElem?_append_right (Nat.le_of_not_lt hi)] at hd
        obtain ⟨hlt, hd⟩ := List.getElem?_eq_some_iff.mp hd
        obtain rfl : c = d := by simpa using hd
        obtain rfl : i = cs.length := by
          rw [List.length_singleton] at hlt
          omega
        exact List.mem_append_right _ (List.mem_map_of_mem (hall' b v hv))

theorem enumerates_walkFrom (descend : Visit → Bool) (path : List Node) (n : Node) :
    Enumerates (n.Reaches descend path) (n.walkFrom descend path) := by
  induction n using Node.induction generalizing path with
  | step n ih =>
    rw [walkFrom_eq]
    by_cases hdescend : descend ⟨n, path⟩ = true
    · obtain ⟨as, has, hasvs, hall⟩ := enumerates_flatMap fun c hc => ih c hc (n :: path)
      rw [if_pos hdescend]
      refine ⟨[] :: as, ?_, .cons (.root path n) (hasvs.imp ?_), ?_⟩
      · rw [List.pairwise_cons]
        refine ⟨fun a ha => ?_, has⟩
        obtain ⟨v, -, i, c, b, rfl, -⟩ := exists_of_forall₂_of_mem hasvs ha
        exact .nil
      · rintro a v ⟨i, c, b, rfl, hc, hv⟩
        exact .child hdescend hc hv
      · intro a v hv
        cases hv with
        | root => exact List.mem_cons_self
        | child _ hc hv => exact List.mem_cons_of_mem _ (hall _ v ⟨_, _, _, rfl, hc, hv⟩)
    · rw [if_neg hdescend]
      refine ⟨[[]], List.pairwise_singleton _ _, .cons (.root path n) .nil, ?_⟩
      intro a v hv
      cases hv with
      | root => exact List.mem_singleton_self _
      | child h => exact absurd h hdescend

/-- A walk meets, in the order of addresses, what stands where all nodes on the way are entered. -/
theorem exists_addresses (descend : Visit → Bool) (root : Node) :
    ∃ as : List Address, as.Pairwise Address.Before ∧
      List.Forall₂ (Visit.StandsAt root) as (root.walk descend) ∧
      ∀ a, a ∈ as ↔ (root.at? a).isSome ∧
        ∀ b, b <+: a → b ≠ a → ∀ u, u.StandsAt root b → descend u = true := by
  obtain ⟨as, has, hasvs, hall⟩ := enumerates_walkFrom descend [] root
  refine ⟨as, has, hasvs.imp fun a v hv => hv.standsAt, fun a => ?_⟩
  constructor
  · intro ha
    obtain ⟨v, -, hv⟩ := exists_of_forall₂_of_mem hasvs ha
    rw [hv.at?_eq]
    exact ⟨rfl, (reaches_iff.mp hv).2⟩
  · rintro ⟨hsome, h⟩
    obtain ⟨d, hd⟩ := Option.isSome_iff_exists.mp hsome
    obtain ⟨v, hv⟩ := exists_reaches [] hd fun b u hb hne hu =>
      h b hb hne u hu.standsAt
    exact hall a v hv

end Node

end Treewalk
