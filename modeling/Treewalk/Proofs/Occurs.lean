import Treewalk.Syntax.Walk

/-!
# Where nodes stand in a tree

`d.Occurs n` says that `d` is `n` or stands below it. A walk that skips nothing meets exactly the
nodes that occur. Trees without loops are described by what does not occur in them.
-/

set_option autoImplicit false

namespace Treewalk.Node

/-- The node is the tree or stands below its root. -/
inductive Occurs (d : Node) : Node → Prop
  | here : Occurs d d
  | inChild {c n : Node} : c ∈ n.childList → Occurs d c → Occurs d n

variable {d n : Node}

theorem occurs_iff : d.Occurs n ↔ d = n ∨ ∃ c ∈ n.childList, d.Occurs c := by
  constructor
  · intro h
    cases h with
    | here => exact .inl rfl
    | inChild hc hd => exact .inr ⟨_, hc, hd⟩
  · rintro (rfl | ⟨c, hc, hd⟩)
    · exact .here
    · exact .inChild hc hd

theorem Occurs.child {c : Node} (h : d.Occurs n) (hc : c ∈ d.childList) : c.Occurs n := by
  induction h with
  | here => exact .inChild hc .here
  | inChild hmem _ ih => exact .inChild hmem ih

/-- What holds of every node that occurs is what holds at the root and below. -/
theorem forall_occurs_iff {P : Node → Prop} :
    (∀ d, d.Occurs n → P d) ↔ P n ∧ ∀ c ∈ n.childList, ∀ d, d.Occurs c → P d := by
  constructor
  · exact fun h => ⟨h n .here, fun c hc d hd => h d (.inChild hc hd)⟩
  · rintro ⟨hn, hc⟩ d hd
    rcases occurs_iff.mp hd with rfl | ⟨c, hmem, hd⟩
    · exact hn
    · exact hc c hmem d hd

theorem exists_visit_iff (path : List Node) :
    (∃ v ∈ n.walkFrom (fun _ => true) path, v.node = d) ↔ d.Occurs n := by
  induction n using Node.induction generalizing path with
  | step n ih =>
    rw [walkFrom_eq, if_pos rfl, occurs_iff]
    constructor
    · rintro ⟨v, hv, rfl⟩
      rcases List.mem_cons.mp hv with rfl | hv
      · exact .inl rfl
      · obtain ⟨c, hc, hv⟩ := List.mem_flatMap.mp hv
        exact .inr ⟨c, hc, (ih c hc _).mp ⟨v, hv, rfl⟩⟩
    · rintro (rfl | ⟨c, hc, hd⟩)
      · exact ⟨_, List.mem_cons_self, rfl⟩
      · obtain ⟨v, hv, hd⟩ := (ih c hc (n :: path)).mpr hd
        exact ⟨v, List.mem_cons_of_mem _ (List.mem_flatMap.mpr ⟨c, hc, hv⟩), hd⟩

/-- A property of visited nodes holds on a whole walk if it holds of every node that occurs. -/
theorem forall_visits_iff {P : Node → Prop} :
    (∀ v ∈ n.visits, P v.node) ↔ ∀ d, d.Occurs n → P d := by
  constructor
  · intro h d hd
    obtain ⟨v, hv, rfl⟩ := (exists_visit_iff []).mpr hd
    exact h v hv
  · intro h v hv
    exact h v.node ((exists_visit_iff []).mp ⟨v, hv, rfl⟩)

/-! ## Trees without loops -/

/-- No loop occurs in the tree. -/
def LoopFree (n : Node) : Prop := ∀ d : Node, d.Occurs n → d.kind ≠ .whileLoop

theorem loopFree_iff : n.LoopFree ↔ n.kind ≠ .whileLoop ∧ ∀ c ∈ n.childList, c.LoopFree :=
  forall_occurs_iff (P := fun d => d.kind ≠ .whileLoop)

end Treewalk.Node
