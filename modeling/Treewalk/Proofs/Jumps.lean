import Treewalk.Proofs.Fuel
import Treewalk.Proofs.Occurs
import Treewalk.Proofs.Reach
import Treewalk.Proofs.Report
import Treewalk.Proofs.Sample

/-!
# Where jumps get to

`Node.Exposes` says of a tree which jumps stand in it where nothing in the tree receives them. That
is all it can end with, if stored bodies are *loop-closed*: if they expose no `break` and no `next`.
Which jumps a node may end with changes on the way down, at loops and at `defined`, so there is a
contract for each set of keywords and one induction for all of them.

Whatever the tree, the jump that it ends with was raised by a node that the journal shows, and
passed through everything that ended after that: `Signal.RaisedIn`.
-/

set_option autoImplicit false

namespace Treewalk

namespace Node

/-- Is this a node that receives jumps from one of its parts? -/
def receivesJumps : Node → Bool
  | .whileLoop .. | .defined .. => true
  | _ => false

/-- A jump stands in the tree where nothing in the tree receives it. A loop receives `break` and
`next` from its body, not from its condition. No jump leaves what `defined` asks about, and what a
definition stores is a tree of its own. -/
inductive Exposes (keyword : Keyword) : Node → Prop
  | jump {t : Tag} {value : Option Node} : Exposes keyword (.jump t keyword value)
  | condition {t : Tag} {c b : Node} : Exposes keyword c → Exposes keyword (.whileLoop t c b)
  | body {t : Tag} {c b : Node} : keyword = .ret → Exposes keyword b →
      Exposes keyword (.whileLoop t c b)
  | part {c n : Node} : n.receivesJumps = false → c ∈ n.parts → Exposes keyword c →
      Exposes keyword n

/-- Every body that a definition in the tree stores exposes returns only. -/
def StoresClosed (n : Node) : Prop :=
  ∀ d b : Node, d.Occurs n → b ∈ d.stored? → ∀ keyword, b.Exposes keyword → keyword = .ret

/-- Every `break` and `next` stands in the body of a loop or under a `defined`, with no definition
in between. -/
structure LoopClosed (n : Node) : Prop where
  exposes : ∀ keyword, n.Exposes keyword → keyword = .ret
  stores : n.StoresClosed

variable {n c b : Node}

theorem StoresClosed.child (h : n.StoresClosed) (hc : c ∈ n.childList) : c.StoresClosed :=
  fun d b hd hb => h d b (.inChild hc hd) hb

theorem StoresClosed.stored (h : n.StoresClosed) (hb : b ∈ n.stored?) : b.LoopClosed :=
  ⟨h n b .here hb, h.child (mem_childList_of_stored hb)⟩

/-- Without definitions nothing is stored. -/
theorem storesClosed_of_none (h : n.visits.all (·.node.stored?.isNone) = true) :
    n.StoresClosed := by
  have hnone : ∀ d : Node, d.Occurs n → d.stored?.isNone = true :=
    forall_visits_iff.mp fun v hv => List.all_eq_true.mp h v hv
  intro d b hd hb
  have hd := hnone d hd
  rw [hb] at hd
  exact absurd hd Bool.noConfusion

end Node

/-! ## The contracts of jumps -/

theorem Fault.errorClass_ne_localJump {stray : Prop} {c : Fault} (h : c.Arises stray) :
    c.sort.errorClass ≠ .localJump := by
  cases c with
  | unexpectedJump | stated => exact h.elim
  | _ => simp [Fault.sort, FaultSort.errorClass]

theorem Misuse.errorClass_ne_localJump (c : Misuse) : c.errorClass ≠ .localJump := by
  cases c with
  | _ => simp [Misuse.errorClass]

/-- Jumps have certain keywords, and no error is about a jump. -/
def jumpsOnly (K : Keyword → Prop) : Storing :=
  ⟨fun _ _ _ => True, fun e => e.errorClass ≠ .localJump, fun s => K s.keyword, True⟩

/-- Evaluated nodes expose no other jumps. -/
def Roles.exposing (S : ScopeId → Prop) (K : Keyword → Prop) : Roles :=
  ⟨fun n => (∀ keyword, n.Exposes keyword → K keyword) ∧ n.StoresClosed, Node.LoopClosed,
    fun _ => True, fun _ => True, S, True, True⟩

section

variable {S : ScopeId → Prop} {K K' : Keyword → Prop} {α β : Type}

abbrev jumpContract (S : ScopeId → Prop) (K : Keyword → Prop) : Contract :=
  (jumpsOnly K).contract S Node.LoopClosed

theorem jumps_stable : (jumpContract S K).Stable (.exposing S K) :=
  Storing.stable rfl rfl trivial (fun _ _ h => Fault.errorClass_ne_localJump h) fun _ _ h => h

/-- What receives jumps may end with other jumps than the part that it receives them from. -/
theorem jumps_receive {A : α → Prop} {B : β → Prop} {x : Eval α} {f : Probe α → Eval β}
    (hx : (jumpContract S K').Meets A x)
    (hvalue : ∀ a, A a → (jumpContract S K).Meets B (f (.value a)))
    (hjump : ∀ s, K' s.keyword → (jumpContract S K).Meets B (f (.jump s))) :
    (jumpContract S K).Meets B (Eval.probe x >>= f) := by
  intro m hm
  obtain ⟨hx, ho⟩ := hx m hm
  have hstep : (jumpContract S K).Step m (x m).2 := ⟨hx.inv, trivial⟩
  cases h : (x m).1 with
  | value a =>
    rw [h] at ho
    rw [Eval.receive_of_value h]
    exact (hvalue a ho _ hstep.inv).imp_left hstep.trans
  | jump s =>
    rw [h] at ho
    rw [Eval.receive_of_jump h]
    exact (hjump s ho _ hstep.inv).imp_left hstep.trans
  | error e =>
    rw [h] at ho
    rw [Eval.receive_of_error h]
    exact ⟨hstep, ho⟩
  | outOfFuel =>
    rw [Eval.receive_of_outOfFuel h]
    exact ⟨hstep, trivial⟩

theorem jumps_loop {c b : Eval Value} (hc : (jumpContract S K).Meets (fun _ => True) c)
    (hb : (jumpContract S fun k => K k ∨ k ≠ .ret).Meets (fun _ => True) b) (fuel : Nat) :
    (jumpContract S K).Meets (fun _ => True) (Eval.loop c b fuel) := by
  induction fuel with
  | zero => exact Contract.outOfFuel trivial
  | succ fuel ih =>
    rw [Eval.loop]
    refine Contract.andThen hc fun v _ => ?_
    cases v.isTruthy with
    | false => exact Contract.yield trivial
    | true =>
      refine jumps_receive hb (fun _ _ => ih) fun s hs => ?_
      dsimp only
      cases hk : s.keyword with
      | brk => exact Contract.yield trivial
      | next => exact ih
      | ret =>
        refine Contract.jump (hs.resolve_right fun h => h hk)

/-- No jump leaves a loop-closed body: a call receives its returns, and there are no others. -/
theorem jumps_body {ev : Node → Eval Value}
    (hev : ∀ n, n.LoopClosed → (jumpContract S (· = .ret)).Meets (fun _ => True) (ev n))
    {b : Option Node} (hb : ∀ n ∈ b, n.LoopClosed) :
    (jumpContract S K).Meets (fun _ => True) (Eval.body ev b) := by
  cases b with
  | none => exact Contract.yield trivial
  | some n =>
    refine jumps_receive (hev n (hb n rfl)) (fun _ _ => Contract.yield trivial) fun s hs => ?_
    dsimp only
    rw [hs]
    exact Contract.yield trivial

theorem jumps_enterCall {A : α → Prop} {x : Eval α} {l : Option Location}
    (hx : (jumpContract S K).Meets A x) : (jumpContract S K).Meets A (Eval.enterCall l x) := by
  have harises : Fault.tooDeep.Arises True := trivial
  exact Contract.meets_enterCall hx (Fault.errorClass_ne_localJump harises) (fun _ hm _ => hm)
    fun _ _ _ _ h ho => ⟨⟨h.inv, trivial⟩, ho⟩

/-- What is known of parts of any sort: they end with the jumps that they expose. -/
def ExposedOnly (S : ScopeId → Prop) (ev : Node → Eval Value) : Prop :=
  ∀ (K : Keyword → Prop) (n : Node), (∀ keyword, n.Exposes keyword → K keyword) →
    n.StoresClosed → (jumpContract S K).Meets (fun _ => True) (ev n)

/-- A node that receives no jumps from its parts ends with theirs, or with its own. -/
theorem jumps_passed {ev : Node → Eval Value} (hev : ExposedOnly S ev) (fuel : Nat) {n : Node}
    (hreceives : n.receivesJumps = false) (hexposes : ∀ keyword, n.Exposes keyword → K keyword)
    (hstores : n.StoresClosed) :
    (jumpContract S K).Meets (fun _ => True) (Eval.step fuel ev n) := by
  have hJ : Compatible _ (jumpContract S K).judgment := jumps_stable.compatible
  have hassigns : ∀ c c', ((jumpContract S K).likeness (.exposing S K)).target c c' →
      ((jumpContract S K).likeness (.exposing S K)).Assigns c c' := by
    rintro c _ ⟨rfl, -⟩
    exact .refl c (fun _ => ⟨rfl, trivial⟩) Misuse.errorClass_ne_localJump
      fun _ _ => ⟨rfl, trivial⟩
  have hsteps : ((jumpContract S K).likeness (.exposing S K)).Steps n n := by
    refine .refl n (fun _ => ⟨rfl, trivial⟩) Misuse.errorClass_ne_localJump ?_
      (fun _ => trivial) (fun c hc => ⟨rfl, ?_, ?_⟩) (fun b hb => ⟨rfl, hstores.stored hb⟩)
      fun _ _ => ⟨rfl, trivial⟩
    · rintro t keyword own rfl v
      exact ⟨rfl, hexposes keyword .jump⟩
    · exact fun k hk => hexposes k (.part hreceives hc hk)
    · exact hstores.child (Node.mem_childList_of_mem_parts hc)
  have hparts : ∀ c c', ((jumpContract S K).likeness (.exposing S K)).node c c' →
      (jumpContract S K).judgment _ Eq (ev c) (ev c') := by
    rintro c _ ⟨rfl, hc⟩
    exact (hev K c hc.1 hc.2).imp fun v _ => ⟨v, rfl⟩
  have hstep : (jumpContract S K).judgment _ Eq (Eval.step fuel ev n) (Eval.step fuel ev n) := by
    refine hJ.step hassigns hparts ?_ ?_ hsteps
    · exact fun _ _ _ _ _ hc hb => hJ.loop (k := 0) (Contract.outOfFuel trivial) hc hb fuel
    · intro t t' a b vs ht hm
      refine hJ.invokeWith hJ.toActing ht hm jumps_enterCall (fun hb => ?_) vs
      have hclosed := (Contract.body_of_rel hb).2
      exact (jumps_body (fun b hb => hev _ b hb.exposes hb.stores) hclosed).imp fun v _ => ⟨v, rfl⟩
  exact hstep.imp fun _ _ => trivial

theorem jumps_step {ev : Node → Eval Value} (hev : ExposedOnly S ev) (fuel : Nat) {n : Node}
    (hexposes : ∀ keyword, n.Exposes keyword → K keyword) (hstores : n.StoresClosed) :
    (jumpContract S K).Meets (fun _ => True) (Eval.step fuel ev n) := by
  cases n with
  | whileLoop t c b =>
    have hc := hev K c (fun k hk => hexposes k (.condition hk))
      (hstores.child List.mem_cons_self)
    have hb := hev (fun k => K k ∨ k ≠ .ret) b
      (fun k hk => or_iff_not_imp_right.mpr fun hret =>
        hexposes k (.body (not_not.mp hret) hk))
      (hstores.child (List.mem_cons_of_mem _ (List.mem_singleton_self b)))
    exact jumps_loop hc hb fuel
  | defined t e =>
    have he := hev (fun _ => True) e (fun _ _ => trivial)
      (hstores.child (List.mem_singleton_self e))
    have hasked : (jumpContract S K).Meets (fun _ => True) (Eval.definition? ev e) :=
      jumps_receive he (fun _ _ => Contract.yield trivial) fun _ _ => Contract.yield trivial
    refine Contract.andThen hasked fun d _ => ?_
    cases d with
    | none | some _ => exact Contract.yield trivial
  | _ => exact jumps_passed hev fuel rfl hexposes hstores

/-- Induction on the fuel, for all sets of keywords at once: below a loop and below `defined` there
are more of them. -/
theorem jumps_evaluate (fuel : Nat) : ExposedOnly S (evaluate fuel) := by
  induction fuel with
  | zero => exact fun _ _ _ _ => Contract.outOfFuel trivial
  | succ fuel ih =>
    intro K n hexposes hstores
    exact Contract.observed (jumps_step ih fuel hexposes hstores)
      (fun _ hm => Storing.step_of_inv hm) fun _ _ hm => Storing.step_of_inv hm

end

/-! ## Where a jump comes from -/

/-- The entry says that an evaluation or assignment ended with this very jump. -/
def Event.passes (s : Signal) : Event → Prop
  | .ended _ _ (.jump s') _ _ => s' = s
  | _ => False

/-- The last node of the journal that a jump did not merely pass through raised it: a node with
its keyword, which stands where the jump says. -/
def Signal.RaisedIn (s : Signal) (es : List Event) : Prop :=
  ∃ before after t own c h, s.location = some t.location ∧
    es = before ++ .ended .evaluating (.jump t s.keyword own) (.jump s) c h :: after ∧
    ∀ e ∈ after, e.passes s

theorem Signal.RaisedIn.append {s : Signal} {es : List Event} {e : Event} (h : s.RaisedIn es)
    (he : e.passes s) : s.RaisedIn (es ++ [e]) := by
  obtain ⟨before, after, t, own, c, hp, hl, rfl, hafter⟩ := h
  refine ⟨before, after ++ [e], t, own, c, hp, hl, by simp, fun e' he' => ?_⟩
  rcases List.mem_append.mp he' with h | h
  · exact hafter e' h
  · rw [List.mem_singleton.mp h]
    exact he

/-- A value satisfies a predicate, and the journal shows where a jump comes from. -/
def Outcome.RaisedIn {α : Type} (A : α → Prop) (es : List Event) : Outcome α → Prop
  | .value a => A a
  | .jump s => s.RaisedIn es
  | _ => True

/-- Where a journal is kept, it is kept on, and shows where the jump comes from that the
computation ends with. -/
def Eval.Raises {α : Type} (A : α → Prop) (x : Eval α) : Prop :=
  ∀ m : Machine, m.journal.isSome = true →
    (x m).2.journal.isSome = true ∧ (x m).1.RaisedIn A (x m).2.entries

/-- That the journal shows where a jump comes from, as a report. -/
def raisedReport : Report := fun _ o m' => ∀ s, o = .jump s → s.RaisedIn m'.entries

/-- A jump is raised by a node with its keyword, and passes through everything else. -/
theorem raisedReport_lawful : raisedReport.Lawful where
  calm _ hjump s hs := absurd hs (hjump s)
  trans _ _ h := h
  within _ _ h := h
  entered _ s hs := absurd hs (by simp)
  observed {m m' activity n o} _ hkept h s hs := by
    obtain rfl := Outcome.eq_jump_of_manner hs
    rw [Machine.entries_record_of_kept hkept]
    exact (h s rfl).append rfl
  raised {m m' t s own} _ hkept hl _ s' hs := by
    cases hs
    rw [Machine.entries_record_of_kept hkept]
    exact ⟨_, [], t, own, _, _, hl, rfl, fun e he => absurd he List.not_mem_nil⟩

theorem Eval.Raises.evaluate (fuel : Nat) (n : Node) :
    (Treewalk.evaluate fuel n).Raises fun _ => True := by
  intro m hm
  obtain ⟨hkept, hraised, -⟩ := Eval.Reports.evaluate raisedReport_lawful fuel n m hm
  refine ⟨hkept, ?_⟩
  cases h : (Treewalk.evaluate fuel n m).1 with
  | jump s =>
    rw [h] at hraised
    exact hraised s rfl
  | value | error | outOfFuel => trivial

/-! ## Whole programs -/

/-- Whatever the tree and the machine, no error of an evaluation is about a jump. -/
theorem evaluate_ne_localJump (fuel : Nat) (n : Node) (m : Machine) {e : Error}
    (h : (evaluate fuel n m).1 = .error e) : e.errorClass ≠ .localJump := by
  have hclosed : ((jumpsOnly fun _ => True).contract (fun _ => True) fun _ => True).Closed .any :=
    Storing.closed rfl rfl trivial (fun _ _ h => Fault.errorClass_ne_localJump h)
      (fun _ => trivial) (fun _ _ _ => trivial) trivial (fun _ _ => trivial)
      (fun n _ => Contract.steps_any Misuse.errorClass_ne_localJump (fun _ => trivial) n)
      fun n _ => Contract.assigns_any Misuse.errorClass_ne_localJump n
  have hm : m.Within (fun _ => True) fun _ => True :=
    ⟨fun _ _ => trivial, fun _ _ => trivial, fun _ _ _ => trivial, fun _ _ _ _ => trivial,
      fun _ _ _ _ _ => ⟨trivial, fun _ _ => trivial⟩⟩
  have ho := (hclosed.evaluate fuel (n := n) trivial m ⟨hm, trivial⟩).2
  rw [h] at ho
  exact ho

theorem Outcome.received_ne_jump (root : Node) (o : Outcome Value) (s : Signal) :
    o.received root ≠ .jump s := by
  cases o with
  | jump s' =>
    obtain ⟨keyword, v, l⟩ := s'
    cases keyword with
    | brk | next | ret => simp [received]
  | value | error | outOfFuel => simp [received]

/-- A program that fails over a jump ended with that jump. -/
theorem exists_jump_of_run {fuel : Nat} {n : Node} {m : Machine} {e : Error}
    (h : (run fuel n m).1 = .error e) (hclass : e.errorClass = .localJump) :
    ∃ s : Signal, (evaluate fuel n m).1 = .jump s ∧ s.keyword ≠ .ret ∧
      e = .fault (.unexpectedJump s.keyword.name) (s.location <|> some n.location) := by
  rw [run_eq] at h
  cases ho : (evaluate fuel n m).1 with
  | jump s =>
    obtain ⟨keyword, v, l⟩ := s
    rw [ho] at h
    cases keyword with
    | ret => exact absurd h (by simp [Outcome.received])
    | brk | next =>
      cases h
      exact ⟨_, rfl, by simp, rfl⟩
  | error e' =>
    rw [ho] at h
    cases h
    exact absurd hclass (evaluate_ne_localJump fuel n m ho)
  | value | outOfFuel =>
    rw [ho] at h
    exact absurd h (by simp [Outcome.received])

/-- The journal of a program's tree shows where the jump comes from that it ended with. -/
theorem raisedIn_of_jump {fuel : Nat} {n : Node} {m : Machine} {s : Signal}
    (h : (evaluate fuel n m).1 = .jump s) :
    s.RaisedIn (evaluate fuel n m.watched).2.entries := by
  have hwatched : (evaluate fuel n m.watched).1 = .jump s :=
    (evaluate_journal fuel n m (some [])).1.trans h
  have hraised := (Eval.Raises.evaluate fuel n m.watched rfl).2
  rw [hwatched] at hraised
  exact hraised

/-- **Jumps are contained.** A loop-closed tree, on a machine that stores loop-closed bodies within
reach, ends with no `break` and no `next`, and as a program it does not fail over a jump; if no
`return` stands in it outside definitions and `defined` either, it ends with no jump at all. And
whatever the tree and the machine, a program ends with no jump; if it fails over one, the error has
the keyword and the place of the node that raised it. -/
theorem jumps_contained :
    (∀ {n : Node} {m : Machine}, n.LoopClosed → m.StoresOnly Node.LoopClosed → ∀ fuel,
      (∀ s, (evaluate fuel n m).1 = .jump s → s.keyword = .ret) ∧
      (∀ e, (run fuel n m).1 = .error e → e.errorClass ≠ .localJump) ∧
      (¬ n.Exposes .ret → ∀ s, (evaluate fuel n m).1 ≠ .jump s)) ∧
    ∀ (n : Node) (m : Machine) (fuel : Nat),
      (∀ s, (run fuel n m).1 ≠ .jump s) ∧
      ∀ e, (run fuel n m).1 = .error e → e.errorClass = .localJump →
        ∃ s : Signal, (evaluate fuel n m).1 = .jump s ∧ s.keyword ≠ .ret ∧
          e = .fault (.unexpectedJump s.keyword.name) s.location ∧
          s.RaisedIn (evaluate fuel n m.watched).2.entries := by
  refine ⟨fun {n m} hn hm fuel => ?_, fun n m fuel => ⟨fun s => ?_, fun e he hclass => ?_⟩⟩
  · have hexposed : ∀ s, (evaluate fuel n m).1 = .jump s → n.Exposes s.keyword := by
      intro s hs
      have ho := (jumps_evaluate fuel _ n (fun _ hk => hk) hn.stores m ⟨hm.within, trivial⟩).2
      rw [hs] at ho
      exact ho
    have hret : ∀ s, (evaluate fuel n m).1 = .jump s → s.keyword = .ret :=
      fun s hs => hn.exposes _ (hexposed s hs)
    refine ⟨hret, fun e he hclass => ?_, fun hnone s hs => ?_⟩
    · obtain ⟨s, hs, hk, -⟩ := exists_jump_of_run he hclass
      exact hk (hret s hs)
    · exact hnone (hret s hs ▸ hexposed s hs)
  · rw [run_eq]
    exact Outcome.received_ne_jump n _ s
  · obtain ⟨s, hs, hk, rfl⟩ := exists_jump_of_run he hclass
    have hraised := raisedIn_of_jump hs
    refine ⟨s, hs, hk, ?_, hraised⟩
    obtain ⟨before, after, t, own, c, h, hl, -⟩ := hraised
    rw [hl]
    rfl

/-- A loop that the first round leaves. -/
def oneRound : Node := .whileLoop .sample (.bool .sample true) (.jump .sample .brk none)

/-- Asks whether a jump is defined, and calls the method `f`. -/
def askAndCall : Node :=
  .block .sample [.defined .sample (.jump .sample .next none), .call .sample "f" []]

theorem oneRound_loopClosed : oneRound.LoopClosed := by
  constructor
  · intro k hk
    cases hk with
    | condition h =>
      cases h with
      | part _ hc _ => exact absurd hc List.not_mem_nil
    | body hret _ => exact hret
    | part hr _ _ => exact absurd hr Bool.noConfusion
  · exact Node.storesClosed_of_none (by decide +kernel)

theorem askAndCall_not_exposes (k : Keyword) : ¬ askAndCall.Exposes k := by
  intro h
  cases h with
  | part _ hc h =>
    simp only [askAndCall, Node.parts, Node.childList, Node.children, Children.toList,
      List.mem_cons, List.not_mem_nil, or_false] at hc
    rcases hc with rfl | rfl
    · cases h with
      | part hr _ _ => exact absurd hr Bool.noConfusion
    · cases h with
      | part _ hc _ => exact absurd hc List.not_mem_nil

/-- The loop keeps its `break` and `defined` its `next`. A `break` that nothing receives is
reported at its place. -/
theorem askAndCall_contained :
    let m := Machine.oneMethod .default oneRound
    let stray : Node := .jump .sample .brk none
    (evaluate 9 askAndCall m).1.isValue = true ∧
      (∀ s, (evaluate 9 askAndCall m).1 ≠ .jump s) ∧
      (run 9 stray m).1 = .error (.fault (.unexpectedJump "break") (some .sample)) ∧
      ∃ s : Signal, s.location = some .sample ∧
        s.RaisedIn (evaluate 9 stray m.watched).2.entries := by
  intro m stray
  have hclosed : askAndCall.LoopClosed :=
    ⟨fun k hk => absurd hk (askAndCall_not_exposes k),
      Node.storesClosed_of_none (by decide +kernel)⟩
  have hm : m.StoresOnly Node.LoopClosed := Machine.storesOnly_oneMethod oneRound_loopClosed
  have hrun : (run 9 stray m).1 = .error (.fault (.unexpectedJump "break") (some .sample)) := rfl
  obtain ⟨-, -, hcontained⟩ := jumps_contained.1 hclosed hm 9
  obtain ⟨s, -, -, he, hraised⟩ := (jumps_contained.2 stray m 9).2 _ hrun rfl
  refine ⟨by decide +kernel, hcontained (askAndCall_not_exposes .ret), hrun, s, ?_, hraised⟩
  rw [Error.fault.injEq] at he
  exact he.2.symm

end Treewalk
