import Treewalk.Proofs.Fuel
import Treewalk.Proofs.Occurs
import Treewalk.Proofs.Reach
import Treewalk.Proofs.Sample

/-!
# Programs without loops end

A tree without loops ends, on every machine that stores no loops within reach, whatever its
methods call and redefine: `loopFree_ends`. No tree decreases along a call, since a body comes out
of a table that the program itself writes. What decreases is first the room that is left for
calls, and then the size of the tree that is evaluated. The trees that can come up are those that
were stored at the start and parts of the program, so there is a bound on their sizes, and with it
one on the fuel.

The room for calls is never overdrawn, loops or not: `withinDepth_closed`.
-/

set_option autoImplicit false

namespace Treewalk

/-! ## Stored bodies have bounded sizes -/

theorem Scopes.sizeOf_lt_of_stores {scopes : Scopes} {s : ScopeId} {b : Node}
    (h : scopes.Stores s b) : sizeOf b < sizeOf scopes := by
  obtain ⟨name, method, hslot, hbody⟩ := h
  obtain ⟨scope, hscope, hget⟩ := Option.bind_eq_some_iff.mp hslot
  obtain ⟨member, hmember, rfl⟩ := Option.map_eq_some_iff.mp hscope
  have h₁ := Array.sizeOf_lt_of_mem (Array.mem_of_getElem? hmember)
  have h₂ := List.sizeOf_lt_of_mem (Table.get?_eq_some_iff.mp hget)
  -- Down from the members through a scope, its table, a slot and the method in it.
  obtain ⟨members, older⟩ := scopes
  obtain ⟨parent, called, ⟨entries, nodup⟩, frozen⟩ := member
  obtain ⟨called', params, body, owner⟩ := method
  cases hbody
  simp only [Member.mk.sizeOf_spec, Scope.mk.sizeOf_spec, Table.mk.sizeOf_spec,
    Prod.mk.sizeOf_spec, Slot.defined.sizeOf_spec, Method.mk.sizeOf_spec,
    Option.some.sizeOf_spec, Lineage.mk.sizeOf_spec] at *
  omega

/-! ## The contract of ending -/

/-- Fewer than `d` more calls can be entered. At zero no machine is like that, so a call that the
limit refuses leaves nothing to be shown about its inside. -/
def room (d : Nat) : Storing :=
  ⟨fun o depth _ => o.maxCallDepth - depth < d, fun _ => True, fun _ => True, False⟩

/-- Bodies without loops, no larger than the bound. -/
def Node.Bounded (size : Nat) (n : Node) : Prop := n.LoopFree ∧ sizeOf n ≤ size

theorem Node.Bounded.child {size : Nat} {c n : Node} (h : n.Bounded size)
    (hc : c ∈ n.childList) : c.Bounded size :=
  ⟨(Node.loopFree_iff.mp h.1).2 c hc,
    Nat.le_of_lt (Nat.lt_of_lt_of_le (sizeOf_lt_of_mem_childList hc) h.2)⟩

/-- What takes part in a run that has so much fuel left. -/
def Roles.bounded (S : ScopeId → Prop) (size d fuel : Nat) : Roles :=
  ⟨fun n => n.Bounded size ∧ sizeOf n + d * (size + 1) < fuel, Node.Bounded size,
    fun _ => True, fun _ => True, S, False, True⟩

section

variable {S : ScopeId → Prop} {size d fuel : Nat}

abbrev boundedLikeness (S : ScopeId → Prop) (size d fuel : Nat) : Likeness :=
  ((room d).contract S (Node.Bounded size)).likeness (.bounded S size d fuel)

theorem room_stable (d' : Nat) :
    ((room d).contract S (Node.Bounded size)).Stable (.bounded S size d' fuel) :=
  Storing.stable rfl rfl trivial (fun _ _ _ => trivial) fun _ _ h => h

theorem Node.Bounded.steps {n : Node} (h : n.Bounded size)
    (hfuel : sizeOf n + d * (size + 1) < fuel + 1) :
    (boundedLikeness S size d fuel).Steps n n := by
  refine .refl n (fun _ => ⟨rfl, trivial⟩) (fun _ => trivial) (fun _ _ _ _ _ => ⟨rfl, trivial⟩)
    (fun hk => (Node.loopFree_iff.mp h.1).1 hk) (fun c hc => ?_)
    (fun b hb => ⟨rfl, h.child (mem_childList_of_stored hb)⟩) fun _ _ => ⟨rfl, trivial⟩
  have hc := mem_childList_of_mem_parts hc
  have := Node.sizeOf_lt_of_mem_childList hc
  exact ⟨rfl, h.child hc, by omega⟩

/-- A call that is entered leaves less room inside, and the same room as before when it is left. -/
theorem room_enterCall {x : Eval Value} {A : Value → Prop} {l : Option Location}
    (hx : ((room d).contract S (Node.Bounded size)).Meets A x) :
    ((room (d + 1)).contract S (Node.Bounded size)).Meets A (Eval.enterCall l x) := by
  refine Contract.meets_enterCall hx trivial (fun m hm hl => ⟨hm.1, ?_⟩)
    fun m m' o _ hs ho => ⟨Storing.step_of_inv ⟨hs.inv.1, ?_⟩, ho⟩
  · have hroom : m.context.options.maxCallDepth - m.context.depth < d + 1 := hm.2
    have hlimit : ¬ m.context.options.maxCallDepth ≤ m.context.depth := of_decide_eq_false hl
    show m.context.options.maxCallDepth - (m.context.depth + 1) < d
    omega
  · have hroom : m'.context.options.maxCallDepth - m'.context.depth < d := hs.inv.2
    show m'.context.options.maxCallDepth - (m'.context.depth - 1) < d + 1
    omega

/-- Induction on the fuel. A part has the room of the whole and is smaller; a body that is called
may be as large as any, but there is less room for calls inside. -/
theorem Node.Bounded.meets {n : Node} (hn : n.Bounded size)
    (hfuel : sizeOf n + d * (size + 1) < fuel) :
    ((room d).contract S (Node.Bounded size)).Meets (fun _ => True) (evaluate fuel n) := by
  induction fuel generalizing d n with
  | zero => exact absurd hfuel (Nat.not_lt_zero _)
  | succ fuel ih =>
    cases d with
    | zero => exact fun m hm => absurd hm.2 (Nat.not_lt_zero _)
    | succ d =>
      have outside : ((room (d + 1)).contract S (Node.Bounded size)).Stable
          (.bounded S size (d + 1) fuel) := room_stable (d + 1)
      have inside : ((room d).contract S (Node.Bounded size)).Stable
          (.bounded S size (d + 1) fuel) := room_stable (d + 1)
      have hev : ∀ c c', (boundedLikeness S size (d + 1) fuel).node c c' →
          ((room (d + 1)).contract S (Node.Bounded size)).judgment _ Eq (evaluate fuel c)
            (evaluate fuel c') := by
        rintro c _ ⟨rfl, hc, hlt⟩
        exact (ih hc hlt).imp fun v _ => ⟨v, rfl⟩
      -- A body is any that is stored, which is paid for by the call it takes to get there.
      have hbody : ∀ b b', (boundedLikeness S size (d + 1) fuel).body b b' →
          ((room d).contract S (Node.Bounded size)).judgment _ Eq (evaluate fuel b)
            (evaluate fuel b') := by
        rintro b _ ⟨rfl, hb⟩
        refine (ih hb ?_).imp fun v _ => ⟨v, rfl⟩
        have := hb.2
        rw [Nat.succ_mul] at hfuel
        omega
      have hassigns : ∀ c c', (boundedLikeness S size (d + 1) fuel).target c c' →
          (boundedLikeness S size (d + 1) fuel).Assigns c c' := by
        rintro c _ ⟨rfl, -⟩
        exact .refl c (fun _ => ⟨rfl, trivial⟩) (fun _ => trivial) fun _ _ => ⟨rfl, trivial⟩
      have hstep : ((room (d + 1)).contract S (Node.Bounded size)).judgment _ Eq
          (Eval.step fuel (evaluate fuel) n) (Eval.step fuel (evaluate fuel) n) :=
        outside.compatible.step hassigns hev (fun h => h.elim)
          (fun vs ht hm =>
            outside.compatible.invoke inside.compatible ht hm room_enterCall hbody vs)
          (hn.steps hfuel)
      exact Contract.observed (hstep.imp fun _ _ => trivial) (fun _ hm => Storing.step_of_inv hm)
        fun _ _ hm => Storing.step_of_inv hm

end

/-- Stored bodies without loops have a bounded size, the stores being finite. -/
theorem Machine.StoresOnly.bounded {m : Machine} (h : m.StoresOnly Node.LoopFree) {size : Nat}
    (hsize : sizeOf m.heap.scopes ≤ size) : m.StoresOnly (Node.Bounded size) :=
  fun s b hs hb =>
    ⟨h s b hs hb, Nat.le_trans (Nat.le_of_lt (Scopes.sizeOf_lt_of_stores hb)) hsize⟩

theorem ends_of_loopFree {n : Node} {m : Machine} (hn : n.LoopFree)
    (hm : m.StoresOnly Node.LoopFree) : ∃ o m', n.EndsWith m o m' := by
  -- One call more than the options allow is the one that is refused.
  let d := m.context.options.maxCallDepth + 1
  let size := sizeOf n + sizeOf m.heap.scopes
  have hstored : m.StoresOnly (Node.Bounded size) := hm.bounded (Nat.le_add_left ..)
  have hinv : ((room d).contract _ (Node.Bounded size)).inv m :=
    ⟨hstored.within, Nat.lt_succ_of_le (Nat.sub_le ..)⟩
  have hmeets := Node.Bounded.meets ⟨hn, Nat.le_add_right ..⟩ (Nat.lt_succ_self _) m hinv
  exact ⟨_, _, Node.endsWith_of_isFinal (Contract.isFinal_of_allows id hmeets.2)⟩

/-! ## The depth of calls -/

/-- With given options, no more calls are entered than they allow, and never were. -/
def withinDepth (o : Options) : Contract where
  inv m := m.context.options = o ∧ m.context.depth ≤ o.maxCallDepth ∧
    ∀ e ∈ m.entries, e.context.depth ≤ o.maxCallDepth
  change _ _ := True
  error _ := True
  signal _ := True
  starves := True
  refl _ := trivial
  trans _ _ := trivial

section

variable {o : Options} {m : Machine}

theorem withinDepth_record (h : (withinDepth o).inv m) {entry : Context → Heap → Event}
    (hentry : ∀ c hp, (entry c hp).context = c) : (withinDepth o).Step m (m.record entry) := by
  refine ⟨⟨h.1, h.2.1, fun e he => ?_⟩, trivial⟩
  rcases Machine.mem_entries_record he with he | rfl
  · exact h.2.2 e he
  · rw [hentry]
    exact h.2.1

theorem withinDepth_closed : (withinDepth o).Closed .any where
  fault _ _ _ _ := trivial
  stray _ _ := trivial
  currentScope _ _ := trivial
  constant _ _ := trivial
  method _ _ _ := ⟨trivial, fun _ _ => trivial⟩
  startAssigning _ hm := withinDepth_record hm fun _ _ => rfl
  endAssigning _ _ hm := withinDepth_record hm fun _ _ => rfl
  assignLocal _ _ hm := ⟨hm, trivial⟩
  define hm _ _ _ := ⟨hm, trivial⟩
  undef hm _ _ := ⟨hm, trivial⟩
  addAlias hm _ _ := ⟨hm, trivial⟩
  warn name l hm _ := by
    obtain ⟨warnings, hw⟩ := Context.exists_warn_eq _ _ l
    rw [hw]
    exact ⟨hm, trivial⟩
  create _ hm _ := ⟨trivial, hm, trivial⟩
  openScope hm _ := hm
  closeScope _ _ h := ⟨h.inv, trivial⟩
  enterEnvironment _ hm := hm
  leaveEnvironment _ _ h := ⟨h.inv, trivial⟩
  steps n _ := Contract.steps_any (fun _ => trivial) (fun _ => trivial) n
  assigns n _ := Contract.assigns_any (fun _ => trivial) n
  runnable _ _ := trivial
  starves := trivial
  startEvaluating _ hm := withinDepth_record hm fun _ _ => rfl
  endEvaluating _ _ hm := withinDepth_record hm fun _ _ => rfl
  enterCall {m} hm hl := by
    have hlimit : ¬ m.context.options.maxCallDepth ≤ m.context.depth := of_decide_eq_false hl
    have hroom : m.context.depth + 1 ≤ o.maxCallDepth := by
      rw [hm.1] at hlimit
      omega
    have hentered : (withinDepth o).inv { m with context := m.context.enter } :=
      ⟨hm.1, hroom, hm.2.2⟩
    exact (withinDepth_record hentered fun _ _ => rfl).inv
  leaveCall _ h := ⟨⟨h.inv.1, Nat.le_trans (Nat.sub_le ..) h.inv.2.1, h.inv.2.2⟩, trivial⟩

end

/-- **Without loops every program ends**, and with or without them no more calls are ever entered
than the options allow: not at any moment that the journal records, entries into calls among them,
and not at the end. -/
theorem loopFree_ends :
    (∀ {n : Node} {m : Machine}, n.LoopFree → m.StoresOnly Node.LoopFree →
      ∃ o m', n.EndsWith m o m') ∧
    ∀ (fuel : Nat) (n : Node) {m : Machine}, m.context.depth ≤ m.context.options.maxCallDepth →
      (∀ e ∈ (evaluate fuel n m.watched).2.entries,
        e.context.depth ≤ m.context.options.maxCallDepth) ∧
      (evaluate fuel n m.watched).2.context.depth ≤ m.context.options.maxCallDepth := by
  refine ⟨ends_of_loopFree, fun fuel n m hm => ?_⟩
  have hstart : (withinDepth m.context.options).inv m.watched :=
    ⟨rfl, hm, fun e he => absurd he (List.not_mem_nil)⟩
  obtain ⟨hstep, -⟩ := withinDepth_closed.evaluate fuel (n := n) trivial _ hstart
  exact ⟨hstep.inv.2.2, hstep.inv.2.1⟩

/-- Calls the method `f`; as the body of `f`, it calls itself. -/
def selfCall : Node := .call .sample "f" []

theorem selfCall_loopFree : selfCall.LoopFree :=
  Node.loopFree_iff.mpr ⟨by decide, fun c hc => absurd hc List.not_mem_nil⟩

/-- A method that calls itself for ever ends, three calls deep and no deeper. -/
theorem selfCall_ends :
    let m := Machine.oneMethod ⟨true, 3, by decide⟩ selfCall
    (∃ o m', selfCall.EndsWith m o m') ∧
      (∀ e ∈ (evaluate 30 selfCall m.watched).2.entries, e.context.depth ≤ 3) ∧
      (evaluate 30 selfCall m.watched).2.entries.any (·.context.depth == 3) = true := by
  intro m
  have hm : m.StoresOnly Node.LoopFree := Machine.storesOnly_oneMethod selfCall_loopFree
  have hdepth := loopFree_ends.2 30 selfCall (m := m) (Nat.zero_le 3)
  exact ⟨loopFree_ends.1 selfCall_loopFree hm, hdepth.1, by decide +kernel⟩

end Treewalk
