import Treewalk.Proofs.Evaluable

/-!
# What destructuring assigns

To take a value apart over a pattern is to assign a list of names, one after the other, each with
its piece of the value: `Node.bindings`. Nothing is evaluated for it, and nothing else changes:
`destructuring_flattens`.

A tree that is no pattern has something in it that is no target. It stands among the names in
`Node.placements`; what comes before it is assigned and then all of it fails. The number of elements
is a matter of the top only, and is looked at before anything is assigned.
-/

set_option autoImplicit false

namespace Treewalk

/-- Where a piece of a value is to go: under a name, or to a node that is no target. -/
inductive Placement where
  | bind (name : String) (v : Value)
  | refuse (n : Node)

namespace Placement

def pair? : Placement → Option (String × Value)
  | .bind name v => some (name, v)
  | .refuse _ => none

/-- The names that come before anything that is refused. -/
def before : List Placement → List (String × Value)
  | .bind name v :: ps => (name, v) :: before ps
  | _ => []

/-- The first node that is refused. -/
def refused? : List Placement → Option Node
  | [] => none
  | .bind _ _ :: ps => refused? ps
  | .refuse n :: _ => some n

end Placement

namespace Node

mutual

/-- Where the pieces of a value go, from left to right. -/
def placements (v : Value) : Node → List Placement
  | .localAssign _ name _ => [.bind name v]
  | .multiAssign _ targets rest _ =>
    placementsEach v.elements targets ++ placementsRest (v.elements.drop targets.length) rest
  | n => [.refuse n]

/-- Nodes take one value each, and nil where there is none left. -/
def placementsEach (vs : List Value) : List Node → List Placement
  | [] => []
  | n :: ns => placements (vs.headD .nil) n ++ placementsEach vs.tail ns

def placementsRest (vs : List Value) : Option Node → List Placement
  | none => []
  | some n => placements (.list vs) n

end

/-- The names of a pattern, each with its piece of the value. -/
def bindings (v : Value) (n : Node) : List (String × Value) :=
  (n.placements v).filterMap Placement.pair?

end Node

/-- The machine with some names assigned in its environment, one after the other. -/
def Machine.assignAll (m : Machine) (pairs : List (String × Value)) : Machine :=
  { m with heap := { m.heap with
    environments := pairs.foldl (fun s p => s.assign m.context.environment p.1 p.2)
      m.heap.environments } }

/-- The machine with more entries in its journal, if it keeps one. -/
def Machine.logged (m : Machine) (added : List Event) : Machine :=
  { m with journal := m.journal.map (· ++ added) }

/-- The entry is about an assignment: nothing is evaluated and no call is entered. -/
def Event.IsAssignment (e : Event) : Prop := e.assigned?.isSome = true

/-- Whatever the machine, the computation assigns these names in its environment and does nothing
else, and then it ends in this way. -/
def Eval.OnlyAssigns {α : Type} (x : Eval α) (pairs : List (String × Value)) (o : Outcome α) :
    Prop :=
  ∀ m : Machine, ∃ added, (∀ e ∈ added, e.IsAssignment) ∧
    x m = (o, (m.assignAll pairs).logged added)

/-! ## The pieces -/

namespace Placement

variable {ps qs : List Placement}

theorem filterMap_of_refused?_eq_none (h : refused? ps = none) :
    ps.filterMap pair? = before ps := by
  induction ps with
  | nil => rfl
  | cons p ps ih =>
    cases p with
    | bind name v => exact congrArg ((name, v) :: ·) (ih h)
    | refuse n => exact absurd h nofun

theorem split_of_refused? {d : Node} (h : refused? ps = some d) :
    ∃ after, ps = (before ps).map (fun p => .bind p.1 p.2) ++ .refuse d :: after := by
  induction ps with
  | nil => exact absurd h nofun
  | cons p ps ih =>
    cases p with
    | bind name v =>
      obtain ⟨after, hps⟩ := ih h
      exact ⟨after, congrArg (bind name v :: ·) hps⟩
    | refuse n =>
      cases h
      exact ⟨ps, rfl⟩

theorem refused?_append : refused? (ps ++ qs) = (refused? ps).or (refused? qs) := by
  induction ps with
  | nil => rfl
  | cons p ps ih =>
    cases p with
    | bind name v => exact ih
    | refuse n => rfl

theorem before_append :
    before (ps ++ qs) = before ps ++ if (refused? ps).isNone then before qs else [] := by
  induction ps with
  | nil => rfl
  | cons p ps ih =>
    cases p with
    | bind name v => exact congrArg ((name, v) :: ·) ih
    | refuse n => rfl

end Placement

namespace Node

variable {n : Node} {v : Value}

theorem placements_of_not_isTarget (h : n.isTarget = false) (v : Value) :
    n.placements v = [.refuse n] := by
  cases n with
  | localAssign | multiAssign => exact absurd h (by simp [isTarget])
  | _ => rfl

/-- Targets by their place, and elements by theirs. -/
theorem pairs_placementsEach (vs : List Value) (ns : List Node) :
    (placementsEach vs ns).filterMap Placement.pair? =
      (ns.mapIdx fun i n => n.bindings (vs[i]?.getD .nil)).flatten := by
  induction ns generalizing vs with
  | nil => rfl
  | cons n ns ih =>
    rw [placementsEach, List.filterMap_append, ih, List.mapIdx_cons, List.flatten_cons]
    cases vs with
    | nil => simp [bindings]
    | cons v vs => simp [bindings]

theorem bindings_localAssign (t : Tag) (name : String) (own : Option Node) (v : Value) :
    (Node.localAssign t name own).bindings v = [(name, v)] := rfl

/-- The elements go to the targets, and what is left of them to the rest. -/
theorem bindings_multiAssign (t : Tag) (targets : List Node) (rest own : Option Node) (v : Value) :
    (Node.multiAssign t targets rest own).bindings v =
      (targets.mapIdx fun i n => n.bindings (v.elements[i]?.getD .nil)).flatten ++
        rest.toList.flatMap fun n => n.bindings (.list (v.elements.drop targets.length)) := by
  rw [bindings, placements, List.filterMap_append, pairs_placementsEach]
  cases rest with
  | none => rfl
  | some n => simp [placementsRest, bindings]

/-- Induction on what a value can be taken apart over, with everything else as one more case. -/
theorem targetInduction {P : Node → Prop}
    (localAssign : ∀ t name own, P (.localAssign t name own))
    (multiAssign : ∀ t targets rest own, (∀ n ∈ targets, P n) → (∀ n ∈ rest, P n) →
      P (.multiAssign t targets rest own))
    (other : ∀ n, n.isTarget = false → P n) (n : Node) : P n := by
  induction n using Node.induction with
  | step n ih =>
    cases htarget : n.isTarget with
    | false => exact other n htarget
    | true =>
      cases n with
      | localAssign t name own => exact localAssign t name own
      | multiAssign t targets rest own =>
        refine multiAssign t targets rest own (fun n hn => ih n ?_) (fun n hn => ih n ?_)
        · simp [childList, children, Children.toList, hn]
        · cases hn
          simp [childList, children, Children.toList]
      | _ => exact absurd htarget (by simp [isTarget])

theorem mem_placementsEach {p : Placement} {vs : List Value} {ns : List Node}
    (h : p ∈ placementsEach vs ns) : ∃ n ∈ ns, ∃ v, p ∈ n.placements v := by
  induction ns generalizing vs with
  | nil => exact absurd h List.not_mem_nil
  | cons n ns ih =>
    rcases List.mem_append.mp h with h | h
    · exact ⟨n, List.mem_cons_self, _, h⟩
    · obtain ⟨c, hc, v, hv⟩ := ih h
      exact ⟨c, List.mem_cons_of_mem n hc, v, hv⟩

/-- What is refused is no target. -/
theorem isTarget_of_refuse_mem (n : Node) (v : Value) {d : Node}
    (h : .refuse d ∈ n.placements v) : d.isTarget = false := by
  induction n using targetInduction generalizing v with
  | localAssign t name own => exact absurd (List.mem_singleton.mp h) nofun
  | multiAssign t targets rest own htargets hrest =>
    rcases List.mem_append.mp h with h | h
    · obtain ⟨n, hn, w, hw⟩ := mem_placementsEach h
      exact htargets n hn w hw
    · cases rest with
      | none => exact absurd h List.not_mem_nil
      | some n => exact hrest n rfl _ h
  | other n hn =>
    rw [placements_of_not_isTarget hn] at h
    cases List.mem_singleton.mp h
    exact hn

theorem refused?_placementsEach {ns : List Node}
    (h : ∀ n ∈ ns, ∀ v, Placement.refused? (n.placements v) = none ↔ n.Pattern)
    (vs : List Value) :
    Placement.refused? (placementsEach vs ns) = none ↔ ∀ n ∈ ns, n.Pattern := by
  induction ns generalizing vs with
  | nil => exact ⟨fun _ _ h => absurd h List.not_mem_nil, fun _ => rfl⟩
  | cons n ns ih =>
    rw [List.forall_mem_cons] at h ⊢
    rw [placementsEach, Placement.refused?_append, Option.or_eq_none_iff, h.1, ih h.2]

/-- Nothing is refused where there are only targets. -/
theorem refused?_placements (n : Node) (v : Value) :
    Placement.refused? (n.placements v) = none ↔ n.Pattern := by
  induction n using targetInduction generalizing v with
  | localAssign t name own => exact ⟨fun _ => .localAssign, fun _ => rfl⟩
  | multiAssign t targets rest own htargets hrest =>
    have hleft : ∀ vs, Placement.refused? (placementsRest vs rest) = none ↔
        ∀ n ∈ rest, n.Pattern := by
      intro vs
      cases rest with
      | none => exact ⟨fun _ _ h => absurd h nofun, fun _ => rfl⟩
      | some n =>
        rw [placementsRest, hrest n rfl]
        exact ⟨fun hn c hc => by cases hc; exact hn, fun hn => hn n rfl⟩
    rw [placements, Placement.refused?_append, Option.or_eq_none_iff,
      refused?_placementsEach htargets, hleft]
    refine ⟨fun h => .multiAssign h.1 h.2, fun h => ?_⟩
    cases h with
    | multiAssign hts hr => exact ⟨hts, hr⟩
  | other n hn =>
    rw [placements_of_not_isTarget hn]
    refine ⟨nofun, fun h => ?_⟩
    cases h with
    | localAssign | multiAssign => exact absurd hn (by simp [isTarget])

end Node

/-! ## Assigning them -/

namespace Machine

variable {m : Machine} {pairs more : List (String × Value)} {added after : List Event}

theorem assignAll_append : m.assignAll (pairs ++ more) = (m.assignAll pairs).assignAll more := by
  rw [assignAll, List.foldl_append]
  rfl

theorem logged_logged : (m.logged added).logged after = m.logged (added ++ after) := by
  unfold logged
  simp [Function.comp_def]

theorem logged_nil : m.logged [] = m := by
  unfold logged
  simp

theorem assignAll_logged : (m.logged added).assignAll pairs = (m.assignAll pairs).logged added :=
  rfl

end Machine

/-- How assigning ends if nothing is left to be done but to yield this. -/
def Placement.outcome {α : Type} (a : α) (ps : List Placement) : Outcome α :=
  match refused? ps with
  | none => .value a
  | some d => .error (.misuse (.notAssignable d.kind))

/-- The computation puts the pieces where they go, up to the first that is refused. -/
abbrev Eval.Places {α : Type} (x : Eval α) (a : α) (ps : List Placement) : Prop :=
  x.OnlyAssigns (Placement.before ps) (Placement.outcome a ps)

namespace Eval.Places

variable {α β : Type} {x : Eval α} {a : α} {b : β} {ps qs : List Placement}

/-- What records nothing. -/
theorem of_silent (h : ∀ m, x m = (Placement.outcome a ps, m.assignAll (Placement.before ps))) :
    x.Places a ps :=
  fun m => ⟨[], fun _ he => absurd he List.not_mem_nil, by rw [h m, Machine.logged_nil]⟩

theorem yield (a : α) : (pure a : Eval α).Places a [] := of_silent fun _ => rfl

theorem andThen {f : α → Eval β} (hx : x.Places a ps) (hf : (f a).Places b qs) :
    (x >>= f).Places b (ps ++ qs) := by
  intro m
  obtain ⟨added, hadded, hxm⟩ := hx m
  cases hrefused : Placement.refused? ps with
  | none =>
    -- The entries of the first part do not matter to what the second part assigns.
    have hvalue : (x m).1 = .value a := by rw [hxm, Placement.outcome, hrefused]
    obtain ⟨after, hafter, hfm⟩ := hf (x m).2
    refine ⟨added ++ after, fun e he => (List.mem_append.mp he).elim (hadded e) (hafter e), ?_⟩
    have hbefore : Placement.before (ps ++ qs) = Placement.before ps ++ Placement.before qs := by
      rw [Placement.before_append, hrefused]
      rfl
    rw [Eval.bind_of_value hvalue, hfm, hxm, Machine.assignAll_logged, Machine.logged_logged,
      ← Machine.assignAll_append, ← hbefore, Placement.outcome, Placement.outcome,
      Placement.refused?_append, hrefused, Option.none_or]
  | some d =>
    have herror : (x m).1 = .error (.misuse (.notAssignable d.kind)) := by
      rw [hxm, Placement.outcome, hrefused]
    refine ⟨added, hadded, ?_⟩
    have hends : Placement.outcome b (ps ++ qs) = .error (.misuse (.notAssignable d.kind)) := by
      rw [Placement.outcome, Placement.refused?_append, hrefused, Option.some_or]
    have hbefore : Placement.before (ps ++ qs) = Placement.before ps := by
      rw [Placement.before_append, hrefused]
      exact List.append_nil _
    rw [Eval.bind_of_error herror, hxm, hends, hbefore]

theorem thenYield (hx : x.Places a ps) (b : β) : (x >>= fun _ => pure b).Places b ps := by
  have hthen := andThen (f := fun _ => pure b) hx (yield b)
  rw [List.append_nil] at hthen
  exact hthen

theorem assignLocal (name : String) (v : Value) :
    (Eval.assignLocal name v).Places () [.bind name v] := of_silent fun _ => rfl

theorem refuse (a : α) (n : Node) :
    (Eval.misuse (.notAssignable n.kind) : Eval α).Places a [.refuse n] := of_silent fun _ => rfl

/-- An assignment writes an entry before it starts and one when it ends. -/
theorem observed {x : Eval Value} {v : Value} (n : Node) (hx : x.Places v ps) :
    (Eval.observed .assigning n x).Places v ps := by
  intro m
  have hrecord : ∀ (m : Machine) (entry : Context → Heap → Event),
      m.record entry = m.logged [entry m.context m.heap] := fun _ _ => rfl
  obtain ⟨added, hadded, hxm⟩ := hx (m.record (.started .assigning n))
  rw [observed_eq, hxm, hrecord, hrecord, Machine.assignAll_logged, Machine.logged_logged,
    Machine.logged_logged]
  refine ⟨_, fun e he => ?_, rfl⟩
  rcases List.mem_append.mp he with he | he
  · rcases List.mem_append.mp he with he | he
    · cases List.mem_singleton.mp he
      rfl
    · exact hadded e he
  · cases List.mem_singleton.mp he
    rfl

theorem assignEach {ns : List Node}
    (h : ∀ n ∈ ns, ∀ v, (Eval.assign false v n).Places v (n.placements v)) (vs : List Value) :
    (Eval.assignEach vs ns).Places () (Node.placementsEach vs ns) := by
  induction ns generalizing vs with
  | nil => exact yield ()
  | cons n ns ih =>
    rw [List.forall_mem_cons] at h
    exact andThen (h.1 (vs.headD .nil)) (ih h.2 vs.tail)

/-- Induction on the tree: targets below the top are assigned to in the same way. -/
theorem assign (v : Value) (n : Node) : (Eval.assign false v n).Places v (n.placements v) := by
  induction n using Node.targetInduction generalizing v with
  | localAssign t name own =>
    rw [Eval.assign]
    exact observed _ (thenYield (assignLocal name v) v)
  | multiAssign t targets rest own htargets hrest =>
    have hleft : ∀ vs, (Eval.assignRest vs rest).Places () (Node.placementsRest vs rest) := by
      intro vs
      cases rest with
      | none => exact yield ()
      | some n => exact thenYield (hrest n rfl (.list vs)) ()
    rw [Eval.assign]
    exact observed _ (andThen (assignEach htargets v.elements) (thenYield (hleft _) v))
  | other n hn =>
    rw [Eval.assign_of_not_isTarget hn, Node.placements_of_not_isTarget hn]
    exact observed n (refuse v n)

end Eval.Places

/-! ## The number of elements -/

/-- Is this a node at the top of which the number of elements counts, and is it another one? -/
def Node.miscounts (v : Value) : Node → Bool
  | .multiAssign _ targets none _ => v.elements.length != targets.length
  | _ => false

namespace Eval

theorem assign_of_not_miscounts {n : Node} {v : Value} (h : n.miscounts v = false) :
    assign true v n = assign false v n := by
  cases htarget : n.isTarget with
  | false => rw [assign_of_not_isTarget htarget, assign_of_not_isTarget htarget]
  | true =>
    cases n with
    | localAssign t name own => rw [assign, assign]
    | multiAssign t targets rest own =>
      have hcount : checkCount t targets rest v = pure () := by
        unfold checkCount
        cases rest with
        | none =>
          rw [Node.miscounts] at h
          rw [h]
          rfl
        | some n => rfl
      rw [assign, assign, hcount]
      rfl
    | _ => exact absurd htarget (by simp [Node.isTarget])

/-- The number is looked at first, so nothing is assigned. -/
theorem assign_of_miscounts (t : Tag) {targets : List Node} (own : Option Node) {v : Value}
    (h : v.elements.length ≠ targets.length) :
    (assign true v (.multiAssign t targets none own)).OnlyAssigns []
      (.error (.fault (.arity (.ofNat v.elements.length) (.ofNat targets.length))
        (some t.location))) := by
  intro m
  let n : Node := .multiAssign t targets none own
  have hcount : checkCount t targets none v =
      fault (.arity (.ofNat v.elements.length) (.ofNat targets.length)) (some t.location) := by
    unfold checkCount
    rw [if_pos (by simpa using h)]
  let start : Event := .started .assigning n m.context m.heap
  have hlog : ∀ last, (m.logged [start]).logged [last] = m.logged [start, last] :=
    fun _ => Machine.logged_logged
  rw [assign, hcount]
  refine ⟨[start, .ended .assigning n _ m.context m.heap], fun e he => ?_,
    Prod.ext rfl (hlog _)⟩
  rcases List.mem_pair.mp he with rfl | rfl <;> rfl

end Eval

/-- **Destructuring assigns its flattened bindings.** The names of a pattern are assigned in order,
each with its piece of the value; no node is evaluated, and nothing else is done. Where a tree is no
pattern, what comes before the first node that is no target is assigned, and then the assignment
fails. If the number of elements is checked, then an assignment that needs another number fails
before it has done anything; otherwise the check makes no difference. -/
theorem destructuring_flattens :
    (∀ t name own v, (Node.localAssign t name own).bindings v = [(name, v)]) ∧
    (∀ t targets rest own v, (Node.multiAssign t targets rest own).bindings v =
      (targets.mapIdx fun i n => n.bindings (v.elements[i]?.getD .nil)).flatten ++
        rest.toList.flatMap fun n => n.bindings (.list (v.elements.drop targets.length))) ∧
    (∀ n : Node, n.Pattern → ∀ v,
      (Eval.assign false v n).OnlyAssigns (n.bindings v) (.value v)) ∧
    (∀ n : Node, ¬ n.Pattern → ∀ v, ∃ pairs d after,
      n.placements v = pairs.map (fun p => .bind p.1 p.2) ++ .refuse d :: after ∧
      d.isTarget = false ∧
      (Eval.assign false v n).OnlyAssigns pairs (.error (.misuse (.notAssignable d.kind)))) ∧
    (∀ n v, n.miscounts v = false → Eval.assign true v n = Eval.assign false v n) ∧
    ∀ t targets own v, v.elements.length ≠ targets.length →
      (Eval.assign true v (.multiAssign t targets none own)).OnlyAssigns []
        (.error (.fault (.arity (.ofNat v.elements.length) (.ofNat targets.length))
          (some t.location))) := by
  refine ⟨Node.bindings_localAssign, Node.bindings_multiAssign, fun n hn v => ?_, fun n hn v => ?_,
    fun n v => Eval.assign_of_not_miscounts, fun t targets own v => Eval.assign_of_miscounts t own⟩
  · have hplaces := Eval.Places.assign v n
    have hnone := (n.refused?_placements v).mpr hn
    have hbindings : n.bindings v = Placement.before (n.placements v) :=
      Placement.filterMap_of_refused?_eq_none hnone
    rw [Eval.Places, Placement.outcome, hnone, ← hbindings] at hplaces
    exact hplaces
  · have hplaces := Eval.Places.assign v n
    obtain ⟨d, hd⟩ := Option.ne_none_iff_exists'.mp (mt (n.refused?_placements v).mp hn)
    obtain ⟨after, hsplit⟩ := Placement.split_of_refused? hd
    rw [Eval.Places, Placement.outcome, hd] at hplaces
    have hmem : Placement.refuse d ∈ n.placements v := by
      rw [hsplit]
      exact List.mem_append_right _ List.mem_cons_self
    exact ⟨_, d, after, hsplit, n.isTarget_of_refuse_mem v hmem, hplaces⟩

/-- Takes a list apart over a name, a nested pattern of two, the same name again and a rest. The
value that the name carries itself plays no part. -/
def nestedPattern : Node :=
  .multiAssign .sample
    [.localAssign .sample "a" (some (.literal .sample "x")),
      .multiAssign .sample [.localAssign .sample "b" none, .localAssign .sample "c" none] none none,
      .localAssign .sample "a" none]
    (some (.localAssign .sample "d" none)) none

/-- The same with a literal in the place of the second target. -/
def brokenPattern : Node :=
  .multiAssign .sample
    [.localAssign .sample "a" none, .nil .sample, .localAssign .sample "b" none] none none

/-- One element is missing in the nested pattern and none is left for the rest; the broken pattern
gets as far as its first target, unless the elements are counted. -/
theorem nestedPattern_flattens :
    let v : Value := .list [.bool true, .bool false]
    nestedPattern.Pattern ∧
      (Eval.assign false v nestedPattern).OnlyAssigns
        [("a", .bool true), ("b", .bool false), ("c", .nil), ("a", .nil), ("d", .list [])]
        (.value v) ∧
      nestedPattern.miscounts v = false ∧
      Eval.assign true v nestedPattern = Eval.assign false v nestedPattern ∧
      ¬ brokenPattern.Pattern ∧
      (Eval.assign false v brokenPattern).OnlyAssigns [("a", .bool true)]
        (.error (.misuse (.notAssignable .nilLit))) ∧
      v.elements.length ≠ 3 ∧
      (Eval.assign true v brokenPattern).OnlyAssigns []
        (.error (.fault (.arity (.ofNat 2) (.ofNat 3)) (some Tag.sample.location))) := by
  intro v
  obtain ⟨-, -, hpattern, hbroken, hsame, hcount⟩ := destructuring_flattens
  have hnested : nestedPattern.Pattern :=
    (nestedPattern.refused?_placements .nil).mp rfl
  have hno : ¬ brokenPattern.Pattern :=
    fun h => absurd ((brokenPattern.refused?_placements .nil).mpr h) nofun
  obtain ⟨pairs, d, after, hsplit, hd, hassigns⟩ := hbroken brokenPattern hno v
  -- The list of placements starts with one name, which a refusal follows.
  rcases pairs with _ | ⟨⟨name, w⟩, _ | ⟨p, ps⟩⟩ <;> cases hsplit
  exact ⟨hnested, hpattern _ hnested v, rfl, hsame _ v rfl, hno, hassigns, by decide,
    hcount .sample _ none v (by decide)⟩

end Treewalk
