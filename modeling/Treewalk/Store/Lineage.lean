/-!
# Members that descend from older members

A `Lineage` is a growing collection. Its members are identified by the order in which they came,
and each may descend from one that came before it. Because a parent is always older than its
child, every line of descent ends; `Lineage.chain` is the line from a member up to its last
ancestor. Local variables are looked up along such a line, and so are methods.

Changing what a member holds changes no line: `Lineage.chain_update`.
-/

set_option autoImplicit false

namespace Treewalk

/-- One member: what it descends from and what it holds. -/
structure Member (α : Type) where
  parent : Option Nat
  value : α

/-- Members in the order in which they came. -/
structure Lineage (α : Type) where
  members : Array (Member α)
  older : ∀ i p : Nat, members[i]?.bind Member.parent = some p → p < i

namespace Lineage

variable {α β : Type}

def empty : Lineage α := ⟨#[], by simp⟩

instance : Inhabited (Lineage α) := ⟨empty⟩

/-- How many members there are, which is also the identity of the next one. -/
def size (l : Lineage α) : Nat := l.members.size

def parent? (l : Lineage α) (i : Nat) : Option Nat := l.members[i]?.bind Member.parent

/-- What a member holds, if there is one of this identity. -/
def value? (l : Lineage α) (i : Nat) : Option α := l.members[i]?.map Member.value

/-- A member, its parent, its parent's parent and so on. -/
def chain (l : Lineage α) (i : Nat) : List Nat :=
  i :: match _h : l.parent? i with
    | none => []
    | some p => l.chain p
termination_by i
decreasing_by exact l.older i p _h

/-- The lineage with one more member. Its parent must be a member already. -/
def add (l : Lineage α) (parent : Option Nat) (value : α) : Lineage α where
  members := l.members.push ⟨parent.filter (· < l.members.size), value⟩
  older := by
    intro i p h
    rw [Array.getElem?_push] at h
    split at h
    · next e =>
      simp only [Option.bind_some, Option.filter_eq_some_iff, decide_eq_true_eq] at h
      omega
    · exact l.older i p h

/-- The lineage with what one member holds changed, and all descent as it is. -/
def update (l : Lineage α) (i : Nat) (f : α → α) : Lineage α where
  members := l.members.modify i fun m => { m with value := f m.value }
  older := by
    intro j p h
    rw [Array.getElem?_modify] at h
    split at h
    · refine l.older j p ?_
      rw [Option.bind_map] at h
      exact h
    · exact l.older j p h

/-- The lineage with what every member holds changed. -/
def map (f : α → β) (l : Lineage α) : Lineage β where
  members := l.members.map fun m => ⟨m.parent, f m.value⟩
  older := by
    intro i p h
    refine l.older i p ?_
    rw [Array.getElem?_map, Option.bind_map] at h
    exact h

@[simp] theorem parent?_update (l : Lineage α) (i : Nat) (f : α → α) (j : Nat) :
    (l.update i f).parent? j = l.parent? j := by
  unfold parent? update
  rw [Array.getElem?_modify]
  split
  · rw [Option.bind_map]
    rfl
  · rfl

/-- One member holds something else, and the others what they held. -/
theorem value?_update (l : Lineage α) (i : Nat) (f : α → α) (j : Nat) :
    (l.update i f).value? j = if i = j then (l.value? j).map f else l.value? j := by
  unfold value? update
  rw [Array.getElem?_modify]
  split
  · simp [Function.comp_def]
  · rfl

/-- Nothing but the parents of the members up to this one makes its line. -/
theorem chain_congr_upTo {l : Lineage α} {l' : Lineage β} {i : Nat}
    (h : ∀ j ≤ i, l'.parent? j = l.parent? j) : l'.chain i = l.chain i := by
  induction i using Nat.strongRecOn with
  | ind i ih =>
    rw [chain, chain]
    congr 1
    have hp := h i (Nat.le_refl i)
    split <;> split
    · rfl
    · simp_all
    · simp_all
    · next p hp' q hq =>
      obtain rfl : p = q := by
        rw [hp', hq] at hp
        exact Option.some.inj hp
      have hlt := l.older i p hq
      exact ih p hlt fun j hj => h j (Nat.le_trans hj (Nat.le_of_lt hlt))

/-- Lines depend on descent alone, not on what members hold. -/
theorem chain_congr {l : Lineage α} {l' : Lineage β} (h : ∀ i, l'.parent? i = l.parent? i)
    (i : Nat) : l'.chain i = l.chain i :=
  chain_congr_upTo fun j _ => h j

@[simp] theorem chain_update (l : Lineage α) (i : Nat) (f : α → α) (j : Nat) :
    (l.update i f).chain j = l.chain j :=
  chain_congr (parent?_update l i f) j

@[simp] theorem size_update (l : Lineage α) (i : Nat) (f : α → α) :
    (l.update i f).size = l.size := by
  simp [size, update]

@[simp] theorem size_add (l : Lineage α) (parent : Option Nat) (value : α) :
    (l.add parent value).size = l.size + 1 := by
  simp [size, add]

theorem parent?_add (l : Lineage α) (parent : Option Nat) (value : α) (i : Nat) :
    (l.add parent value).parent? i =
      if i = l.size then parent.filter (· < l.size) else l.parent? i := by
  unfold parent? add size
  rw [Array.getElem?_push]
  split <;> rfl

/-- A new member takes the next identity, so what the others hold is not disturbed. -/
theorem value?_add (l : Lineage α) (parent : Option Nat) (value : α) (i : Nat) :
    (l.add parent value).value? i = if i = l.size then some value else l.value? i := by
  unfold value? add size
  rw [Array.getElem?_push]
  split <;> rfl

/-- An identity that is not given out yet descends from nothing. -/
theorem parent?_eq_none (l : Lineage α) {i : Nat} (h : l.size ≤ i) : l.parent? i = none := by
  unfold parent?
  rw [Array.getElem?_eq_none h]
  rfl

theorem value?_eq_none (l : Lineage α) {i : Nat} (h : l.size ≤ i) : l.value? i = none := by
  unfold value?
  rw [Array.getElem?_eq_none h]
  rfl

/-- Every identity given out has a member. -/
theorem exists_value? {l : Lineage α} {i : Nat} (h : i < l.size) : ∃ a, l.value? i = some a := by
  have hmember : l.members[i]? = some l.members[i] := Array.getElem?_eq_getElem h
  exact ⟨l.members[i].value, by rw [value?, hmember]; rfl⟩

/-- A new member makes no difference to the lines of the members that were there. -/
theorem chain_add (l : Lineage α) (parent : Option Nat) (value : α) {i : Nat} (hi : i < l.size) :
    (l.add parent value).chain i = l.chain i := by
  refine chain_congr_upTo fun j hj => ?_
  rw [parent?_add, if_neg (Nat.ne_of_lt (Nat.lt_of_le_of_lt hj hi))]

/-- Without a parent a line is its first member alone. -/
theorem chain_of_root {l : Lineage α} {i : Nat} (h : l.parent? i = none) : l.chain i = [i] := by
  rw [chain]
  split
  · rfl
  · next p hp =>
    rw [h] at hp
    exact absurd hp (by simp)

/-! ### Changing what every member holds -/

theorem eq_of_members {l l' : Lineage α} (h : l.members = l'.members) : l = l' := by
  cases l
  cases l'
  cases h
  rfl

/-- What members descend from and what they hold make the lineage. -/
theorem eq_of_views {l l' : Lineage α} (hparent : ∀ i, l.parent? i = l'.parent? i)
    (hvalue : ∀ i, l.value? i = l'.value? i) : l = l' := by
  refine eq_of_members (Array.ext_getElem? fun i => ?_)
  have hp := hparent i
  have hv := hvalue i
  unfold parent? at hp
  unfold value? at hv
  cases h : l.members[i]? with
  | none =>
    rw [h] at hv
    exact (Option.map_eq_none_iff.mp hv.symm).symm
  | some a =>
    rw [h, Option.map_some] at hv
    obtain ⟨a', ha', hvalue⟩ := Option.map_eq_some_iff.mp hv.symm
    rw [h, ha', Option.bind_some, Option.bind_some] at hp
    obtain ⟨parent, value⟩ := a
    obtain ⟨parent', value'⟩ := a'
    cases hp
    cases hvalue
    exact ha'.symm

@[simp] theorem size_map (l : Lineage α) (f : α → β) : (l.map f).size = l.size := by
  simp [size, map]

@[simp] theorem parent?_map (l : Lineage α) (f : α → β) (i : Nat) :
    (l.map f).parent? i = l.parent? i := by
  unfold parent? map
  rw [Array.getElem?_map, Option.bind_map]
  rfl

@[simp] theorem value?_map (l : Lineage α) (f : α → β) (i : Nat) :
    (l.map f).value? i = (l.value? i).map f := by
  unfold value? map
  rw [Array.getElem?_map, Option.map_map, Option.map_map]
  rfl

@[simp] theorem chain_map (l : Lineage α) (f : α → β) (i : Nat) : (l.map f).chain i = l.chain i :=
  chain_congr (parent?_map l f) i

theorem map_map {γ : Type} (l : Lineage α) (f : α → β) (g : β → γ) :
    (l.map f).map g = l.map (g ∘ f) := by
  apply eq_of_members
  simp [map, Function.comp_def]

/-- Adding a member and changing all of them may be done in either order. -/
theorem map_add (l : Lineage α) (f : α → β) (parent : Option Nat) (value : α) :
    (l.add parent value).map f = (l.map f).add parent (f value) := by
  refine eq_of_members ?_
  unfold map add
  simp only [Array.map_push, Array.size_map]

/-- A change of one member passes through a change of all, where the two changes of a value commute.
-/
theorem map_update (l : Lineage α) (f : α → β) {g : α → α} {h : β → β}
    (hf : ∀ a, f (g a) = h (f a)) (i : Nat) : (l.update i g).map f = (l.map f).update i h := by
  refine eq_of_members (Array.ext_getElem? fun j => ?_)
  unfold map update
  rw [Array.getElem?_map, Array.getElem?_modify, Array.getElem?_modify, Array.getElem?_map]
  split
  · rw [Option.map_map, Option.map_map]
    exact congrArg (Option.map · _) (funext fun m => congrArg (Member.mk m.parent) (hf m.value))
  · rfl

/-- What holds of a member and of the parent of whatever it holds of, holds on the whole line. -/
theorem forall_mem_chain (l : Lineage α) {P : Nat → Prop}
    (hp : ∀ i p, P i → l.parent? i = some p → P p) {i : Nat} (hi : P i) :
    ∀ j ∈ l.chain i, P j := by
  induction i using Nat.strongRecOn with
  | ind i ih =>
    intro j hj
    rw [chain] at hj
    rcases List.mem_cons.mp hj with rfl | hj
    · exact hi
    · split at hj
      · exact absurd hj (by simp)
      · next p h => exact ih p (l.older i p h) (hp i p hi h) j hj

theorem mem_chain_self (l : Lineage α) (i : Nat) : i ∈ l.chain i := by
  rw [chain]
  exact List.mem_cons_self

/-- The line of a parent is part of the line of the child. -/
theorem mem_chain_of_parent? {l : Lineage α} {i p j : Nat} (h : l.parent? i = some p)
    (hj : j ∈ l.chain p) : j ∈ l.chain i := by
  rw [chain]
  refine List.mem_cons_of_mem _ ?_
  split
  · next hn =>
    rw [hn] at h
    exact absurd h (by simp)
  · next q hq =>
    obtain rfl : q = p := Option.some.inj (hq.symm.trans h)
    exact hj

/-- The line of a member on a line is part of it. -/
theorem mem_chain_trans {l : Lineage α} {i j k : Nat} (hj : j ∈ l.chain i) (hk : k ∈ l.chain j) :
    k ∈ l.chain i :=
  forall_mem_chain l (P := fun j => ∀ k ∈ l.chain j, k ∈ l.chain i)
    (fun _ _ h hp k hk => h k (mem_chain_of_parent? hp hk)) (fun _ hk => hk) j hj k hk

end Lineage

end Treewalk
