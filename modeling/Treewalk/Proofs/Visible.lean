import Treewalk.Proofs.Evaluable
import Treewalk.Proofs.Fuel
import Treewalk.Proofs.Occurs
import Treewalk.Proofs.OutsideDefinition

/-!
# What runs can be seen

Whatever is evaluated or assigned to while a tree is evaluated is met on a walk over the tree, or on
a walk over a body that was stored within reach; and that is where every failure and every jump is
placed: `evaluation_visible`.

Evaluation gets at nodes by itself and through tables of methods, a walk by `Node.childList`. The
two agree since no node has a part that is not one of its children, and since a body gets into a
table as the child of a definition. So what is visible is closed under everything that evaluation
does to get from one node to another. Failures are placed at the node that is evaluated or, where a
method is named by a value that is no name, at the operand; both are visible.
-/

set_option autoImplicit false

namespace Treewalk

/-- The node is met on a walk over the tree or over a body that is stored within reach. -/
def Machine.Visible (m : Machine) (t d : Node) : Prop :=
  (∃ v ∈ t.visits, v.node = d) ∨
    ∃ s b, m.Reachable s ∧ m.heap.scopes.Stores s b ∧ ∃ v ∈ b.visits, v.node = d

/-- If a program may have brought the error about, then it is placed at one of these nodes. -/
def Error.PlacedIn (V : Node → Prop) (e : Error) : Prop :=
  e.IsRuntime → ∃ cause d, V d ∧ e = .fault cause (some d.location)

theorem Error.placedIn_fault {V : Node → Prop} {d : Node} (hd : V d) (cause : Fault) :
    PlacedIn V (.fault cause (some d.location)) :=
  fun _ => ⟨cause, d, hd, rfl⟩

theorem Error.placedIn_misuse (V : Node → Prop) (cause : Misuse) : PlacedIn V (.misuse cause) := by
  rintro ⟨hruntime, -⟩
  cases cause <;> exact absurd hruntime Bool.noConfusion

namespace Machine

variable {m : Machine} {t c d : Node}

theorem visible_child (h : m.Visible t d) (hc : c ∈ d.childList) : m.Visible t c := by
  have hbelow : ∀ n : Node, (∃ v ∈ n.visits, v.node = d) → ∃ v ∈ n.visits, v.node = c := by
    intro n hd
    exact (Node.exists_visit_iff []).mpr (((Node.exists_visit_iff []).mp hd).child hc)
  rcases h with h | ⟨s, b, hs, hb, h⟩
  · exact .inl (hbelow t h)
  · exact .inr ⟨s, b, hs, hb, hbelow b h⟩

theorem visible_root (m : Machine) (t : Node) : m.Visible t t :=
  .inl ((Node.exists_visit_iff []).mpr .here)

theorem storesOnly_visible (m : Machine) (t : Node) : m.StoresOnly (m.Visible t) :=
  fun s b hs hb => .inr ⟨s, b, hs, hb, (Node.exists_visit_iff []).mpr .here⟩

/-- Nothing is within reach of a new context. -/
theorem not_reachable_fresh (h : Heap) (o : Options) {s : ScopeId} :
    ¬ (fresh h o).Reachable s := by
  intro hs
  induction hs with
  | opened hs => exact absurd hs List.not_mem_nil
  | constant hs => exact absurd hs (by simp [fresh, Heap.newContext, Context.initial, Table.get?,
      Table.empty])
  | superclass _ _ ih => exact ih
  | owner _ _ ih => exact ih

theorem visible_fresh_iff (h : Heap) (o : Options) :
    (fresh h o).Visible t d ↔ ∃ v ∈ t.visits, v.node = d := by
  refine ⟨fun hd => hd.resolve_right ?_, .inl⟩
  rintro ⟨s, b, hs, -⟩
  exact not_reachable_fresh h o hs

end Machine

/-! ## The contract -/

/-- Evaluations that are about some nodes and are placed at them. -/
def seeing (V : Node → Prop) : Storing where
  counted _ _ es := ∀ e ∈ es, ∀ n, n ∈ e.evaluated? ∨ n ∈ e.assigned? → V n
  error := Error.PlacedIn V
  signal s := ∃ d, V d ∧ s.location = some d.location
  starves := True

/-- The nodes take part, and places that they are at. -/
def Roles.seen (V : Node → Prop) (S : ScopeId → Prop) : Roles :=
  ⟨V, V, V, fun t => ∃ d, V d ∧ d.location = t.location, S, True, True⟩

section

variable {V : Node → Prop} {S : ScopeId → Prop}

theorem tag_seen {n : Node} (hn : V n) :
    (((seeing V).contract S V).likeness (.seen V S)).tag n.tag n.tag :=
  ⟨rfl, n, hn, rfl⟩

/-- What leads from nodes to their children leads nowhere else. -/
theorem seeing_closed (hV : ∀ {n c : Node}, V n → c ∈ n.childList → V c) :
    ((seeing V).contract S V).Closed (.seen V S) := by
  refine Storing.closed_placed rfl rfl trivial ?fault id ?note trivial (fun _ h => h) ?steps
    ?assigns
  case fault =>
    rintro cause t - ⟨d, hd, hplace⟩
    exact hplace ▸ Error.placedIn_fault hd cause
  case note =>
    intro o d es e hevaluated hassigned hes e' he' n hn
    rcases List.mem_append.mp he' with he' | he'
    · exact hes e' he' n hn
    · cases List.mem_singleton.mp he'
      exact hn.elim (hevaluated n) (hassigned n)
  case steps =>
    intro n hn
    have hpart : ∀ c ∈ n.parts, V c := fun c hc => hV hn (Node.mem_childList_of_mem_parts hc)
    refine .refl_of_tag n (tag_seen hn) (fun c hc => tag_seen (hpart c hc))
      (Error.placedIn_misuse V) ?_ (fun _ => trivial) (fun c hc => ⟨rfl, hpart c hc⟩)
      (fun b hb => ⟨rfl, hV hn (Node.mem_childList_of_stored hb)⟩) fun c hc => ⟨rfl, hpart c hc⟩
    rintro t keyword own rfl v
    exact ⟨rfl, _, hn, rfl⟩
  case assigns =>
    intro n hn
    exact .refl_of_tag n (tag_seen hn) (Error.placedIn_misuse V) fun c hc => ⟨rfl, hV hn hc⟩

end

/-! ## Whole evaluations -/

/-- A jump that nothing received becomes a failure where the jump was raised. -/
theorem Outcome.placedIn_received {V : Node → Prop} {root : Node} {o : Outcome Value}
    (ho : ((seeing V).contract (fun _ => True) V).Allows (fun _ => True) o) {e : Error}
    (h : o.received root = .error e) : e.PlacedIn V := by
  cases o with
  | value v => exact absurd h (by simp [received])
  | outOfFuel => exact absurd h (by simp [received])
  | error e' =>
    cases h
    exact ho
  | jump s =>
    obtain ⟨keyword, v, l⟩ := s
    obtain ⟨d, hd, rfl⟩ := ho
    cases keyword with
    | ret => exact absurd h (by simp [received])
    | brk | next =>
      cases h
      exact Error.placedIn_fault hd _

/-- **Nothing runs that a walk does not see**, and every failure and every jump that leaves an
evaluation is placed at a node that it sees. In a new context that is a node of the tree. -/
theorem evaluation_visible (t : Node) :
    (∀ (fuel : Nat) (m : Machine),
      (∀ activity n c hp,
        .started activity n c hp ∈ (evaluate fuel t m.watched).2.entries → m.Visible t n) ∧
      (∀ e, (evaluate fuel t m).1 = .error e → e.PlacedIn (m.Visible t)) ∧
      (∀ s, (evaluate fuel t m).1 = .jump s →
        ∃ d, m.Visible t d ∧ s.location = some d.location) ∧
      ∀ e, (run fuel t m).1 = .error e → e.PlacedIn (m.Visible t)) ∧
    ∀ (h : Heap) (o : Options) (d : Node),
      (Machine.fresh h o).Visible t d ↔ ∃ v ∈ t.visits, v.node = d := by
  refine ⟨fun fuel m => ?_, fun h o _ => Machine.visible_fresh_iff h o⟩
  have hclosed := seeing_closed (S := fun s => m.Reachable s ∨ m.heap.scopes.size ≤ s)
    (V := m.Visible t) Machine.visible_child
  have hstart : ∀ e ∈ m.watched.entries, ∀ n, n ∈ e.evaluated? ∨ n ∈ e.assigned? →
      m.Visible t n := fun e he => absurd he List.not_mem_nil
  obtain ⟨hstep, ho⟩ := hclosed.evaluate fuel (m.visible_root t) m.watched
    ⟨(m.storesOnly_visible t).within, hstart⟩
  have hsame : (evaluate fuel t m.watched).1 = (evaluate fuel t m).1 :=
    (evaluate_journal fuel t m (some [])).1
  rw [hsame] at ho
  refine ⟨fun activity n c hp hmem => ?_, fun e he => ?_, fun s hs => ?_, fun e he => ?_⟩
  · refine hstep.inv.2 _ hmem n ?_
    cases activity with
    | evaluating => exact .inl rfl
    | assigning => exact .inr rfl
  · rw [he] at ho
    exact ho
  · rw [hs] at ho
    exact ho
  · rw [run_eq] at he
    exact Outcome.placedIn_received ho he

/-- Reads a variable there. -/
def strayRead : Node := .localVar ⟨1, .elsewhere⟩ "x"

/-- As the body of a method that is called, it fails where it stands, and is seen in the store. -/
theorem strayRead_visible :
    let root : Node := .call .sample "f" []
    let m := Machine.oneMethod .default strayRead
    let e : Error := .fault (.unboundLocal "x") (some .elsewhere)
    (evaluate 9 root m).1 = .error e ∧ e.IsRuntime ∧
      (∃ cause d, m.Visible root d ∧ e = .fault cause (some d.location)) ∧
      m.Visible root strayRead := by
  intro root m e
  obtain ⟨before, c, hp, after, hentries⟩ : ∃ before c hp after,
      (evaluate 9 root m.watched).2.entries =
        before ++ .started .evaluating strayRead c hp :: after :=
    ⟨[_, _], _, _, _, by with_unfolding_all rfl⟩
  have hfails : (evaluate 9 root m).1 = .error e := by with_unfolding_all rfl
  have hruntime : e.IsRuntime := Error.isRuntime_fault _ _
  obtain ⟨hruns, herror, -, -⟩ := (evaluation_visible root).1 9 m
  refine ⟨hfails, hruntime, herror e hfails hruntime, hruns .evaluating strayRead c hp ?_⟩
  rw [hentries]
  exact List.mem_append_right _ List.mem_cons_self

end Treewalk
