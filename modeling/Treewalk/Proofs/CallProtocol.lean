import Mathlib.Data.List.Induction
import Treewalk.Proofs.Balance
import Treewalk.Proofs.Locals
import Treewalk.Proofs.Reach

/-!
# The protocol of a call

A call goes through its cases in a strict order. The name is resolved first, in the current scope,
and the method that is found then is the one that is called, whatever the arguments do to the
table. The arguments come next, from left to right, up to the first that yields no value; then
their number is compared with the parameters, then the depth of calls with its limit. Only then
the body runs, on a machine of its own: `Machine.inBody`.

`CallEnds` says this without fuel and without the evaluator's computations, one constructor for
each way in which a call can end. `call_protocol` says that a call ends in these ways and in no
others.
-/

set_option autoImplicit false

namespace Treewalk

/-! ## Tables made of pairs -/

namespace Table

variable {α : Type}

theorem ofPairs_concat (pairs : List (String × α)) (p : String × α) :
    ofPairs (pairs ++ [p]) = (ofPairs pairs).set p.1 p.2 := by
  rw [ofPairs, List.foldl_append]
  rfl

/-- Every name once, in the order in which they first came. -/
theorem keys_ofPairs (pairs : List (String × α)) :
    (ofPairs pairs).keys = (pairs.map Prod.fst).eraseDups := by
  induction pairs using List.reverseRecOn with
  | nil => rfl
  | append_singleton pairs p ih =>
    rw [ofPairs_concat, keys_set, ih, List.map_append, List.eraseDups_append]
    by_cases hmem : p.1 ∈ pairs.map Prod.fst
    · have hold : [p.1].removeAll (pairs.map Prod.fst) = [] := by
        simpa [List.removeAll] using hmem
      rw [if_pos (List.mem_eraseDups.mpr hmem), List.map_singleton, hold]
      exact (List.append_nil _).symm
    · have hnew : [p.1].removeAll (pairs.map Prod.fst) = [p.1] := by
        simpa [List.removeAll] using hmem
      rw [if_neg fun h => hmem (List.mem_eraseDups.mp h), List.map_singleton, hnew]
      rfl

/-- A name stands for the last value that it came with. -/
theorem get?_ofPairs (before after : List (String × α)) {k : String} (v : α)
    (h : k ∉ after.map Prod.fst) : (ofPairs (before ++ (k, v) :: after)).get? k = some v := by
  induction after using List.reverseRecOn with
  | nil => rw [ofPairs_concat, get?_set, if_pos rfl]
  | append_singleton after p ih =>
    rw [List.map_append, List.mem_append, not_or] at h
    have hne : k ≠ p.1 := fun he => h.2 (List.mem_singleton.mpr he)
    rw [← List.cons_append, ← List.append_assoc, ofPairs_concat, get?_set, if_neg hne]
    exact ih h.1

end Table

/-! ## The machine that a body runs on -/

/-- The machine that a method's body runs on. -/
def Machine.inBody (m : Machine) (method : Method) (vs : List Value) : Machine :=
  m.inCall.inScope method.owner (.ofPairs (method.params.zip vs))

/-- What a body finds when its call runs it. -/
structure Machine.Entered (m : Machine) (method : Method) (vs : List Value) (m' : Machine) :
    Prop where
  owner : m'.context.currentScope? = some method.owner
  depth : m'.context.depth = m.context.depth + 1
  new : m'.context.environment = m.heap.environments.size
  parentless : m'.heap.environments.parent? m'.context.environment = none
  names : m'.heap.environments.localNames m'.context.environment = method.params.eraseDups
  /-- A parameter that is listed twice stands for the last of its arguments. -/
  bound : ∀ {before after : List String} {given left : List Value} {p : String} {v : Value},
    method.params = before ++ p :: after → vs = given ++ v :: left →
    before.length = given.length → p ∉ after →
    m'.heap.environments.get? m'.context.environment p = some v
  kept : m.heap.environments.Extends m'.heap.environments
  scopes : m'.heap.scopes = m.heap.scopes
  constants : m'.context.constants = m.context.constants
  warnings : m'.context.warnings = m.context.warnings

theorem Machine.entered_inBody (m : Machine) {method : Method} {vs : List Value}
    (h : vs.length = method.params.length) : m.Entered method vs (m.inBody method vs) := by
  let pairs := method.params.zip vs
  have hroot : (m.inBody method vs).heap.environments.parent? m.heap.environments.size = none := by
    show (m.heap.environments.add none _).parent? _ = _
    rw [Lineage.parent?_add, if_pos rfl]
    rfl
  have hbindings : (m.inBody method vs).heap.environments.bindings m.heap.environments.size =
      .ofPairs pairs := by
    show ((m.heap.environments.add none _).value? _).getD _ = _
    rw [Lineage.value?_add, if_pos rfl]
    rfl
  refine ⟨rfl, rfl, rfl, hroot, ?_, fun {before after given left p v} hp hv hlength hlast => ?_,
    .add _ none _, rfl, rfl, rfl⟩
  · show ((m.inBody method vs).heap.environments.bindings m.heap.environments.size).keys = _
    rw [hbindings, Table.keys_ofPairs, List.map_fst_zip (Nat.le_of_eq h.symm)]
  · have hpairs : pairs = before.zip given ++ (p, v) :: after.zip left := by
      show method.params.zip vs = _
      rw [hp, hv, List.zip_append hlength, List.zip_cons_cons]
    -- Later parameters have other names, so none of them takes this one's place.
    have hlater : p ∉ (after.zip left).map Prod.fst := by
      intro hmem
      obtain ⟨e, he, rfl⟩ := List.mem_map.mp hmem
      exact hlast (List.of_mem_zip he).1
    show (m.inBody method vs).heap.environments.get? m.heap.environments.size p = some v
    rw [Environments.get?_of_root hroot, hbindings, hpairs]
    exact Table.get?_ofPairs _ _ v hlater

/-! ## How calls end -/

/-- The nodes one after the other, each on the machine that the one before left, yield these
values. -/
inductive AllYield : List Node → Machine → List Value → Machine → Prop
  | nil {m : Machine} : AllYield [] m [] m
  | cons {n : Node} {ns : List Node} {v : Value} {vs : List Value} {m m₁ m₂ : Machine} :
      n.EndsWith m (.value v) m₁ → AllYield ns m₁ vs m₂ → AllYield (n :: ns) m (v :: vs) m₂

/-- What a body's ending is to the call: a `return` gives it its value. -/
def Outcome.returned : Outcome Value → Outcome Value
  | .jump ⟨.ret, v, _⟩ => .value v
  | o => o

/-- How a method's body ends. -/
inductive Method.Ends (method : Method) (m : Machine) : Outcome Value → Machine → Prop
  | empty : method.body = none → Ends method m (.value .nil) m
  | body {b : Node} {o : Outcome Value} {m' : Machine} :
      method.body = some b → b.EndsWith m o m' → Ends method m o.returned m'

/-- How a call ends. In all but the first case the method is the one that the name resolves to
before the arguments are evaluated. -/
inductive CallEnds (t : Tag) (name : String) (args : List Node) (m : Machine) :
    Outcome Value → Machine → Prop
  | unresolved : m.callee? name = none →
      CallEnds t name args m
        (.error (.fault (.noMethod name (m.context.currentScope?.map m.heap.scopes.called))
          (some t.location))) m
  | stopped {method : Method} {before after : List Node} {n : Node} {vs : List Value}
      {m₁ m₂ : Machine} {o : Outcome Value} :
      m.callee? name = some method → args = before ++ n :: after → AllYield before m vs m₁ →
      n.EndsWith m₁ o m₂ → o.isValue = false → CallEnds t name args m o m₂
  | miscounted {method : Method} {vs : List Value} {m₁ : Machine} :
      m.callee? name = some method → AllYield args m vs m₁ → vs.length ≠ method.params.length →
      CallEnds t name args m
        (.error (.fault (.arity (.ofNat vs.length) (.ofNat method.params.length))
          (some t.location))) m₁
  | tooDeep {method : Method} {vs : List Value} {m₁ : Machine} :
      m.callee? name = some method → AllYield args m vs m₁ → vs.length = method.params.length →
      m₁.context.options.maxCallDepth ≤ m₁.context.depth →
      CallEnds t name args m (.error (.fault .tooDeep (some t.location))) m₁
  | ran {method : Method} {vs : List Value} {m₁ m₂ : Machine} {o : Outcome Value} :
      m.callee? name = some method → AllYield args m vs m₁ → vs.length = method.params.length →
      m₁.context.depth < m₁.context.options.maxCallDepth →
      method.Ends (m₁.inBody method vs) o m₂ → CallEnds t name args m o (m₂.backIn m₁)

/-! ## Running the arguments -/

namespace Eval

variable {α β γ : Type} {m m₁ : Machine}

theorem bind_assoc (x : Eval α) (f : α → Eval β) (g : β → Eval γ) :
    x >>= f >>= g = x >>= fun a => f a >>= g := by
  funext m
  cases h : (x m).1 with
  | value a =>
    have hf : (x >>= f) m = f a (x m).2 := bind_of_value h f
    rw [bind_of_value h]
    show andThen (x >>= f) g m = andThen (f a) g (x m).2
    rw [andThen, hf, andThen]
  | jump s =>
    have hf : ((x >>= f) m).1 = .jump s := by rw [bind_of_jump h]
    rw [bind_of_jump hf, bind_of_jump h, bind_of_jump h]
  | error e =>
    have hf : ((x >>= f) m).1 = .error e := by rw [bind_of_error h]
    rw [bind_of_error hf, bind_of_error h, bind_of_error h]
  | outOfFuel =>
    have hf : ((x >>= f) m).1 = .outOfFuel := by rw [bind_of_outOfFuel h]
    rw [bind_of_outOfFuel hf, bind_of_outOfFuel h, bind_of_outOfFuel h]

theorem all_cons_bind (ev : Node → Eval Value) (n : Node) (ns : List Node)
    (g : List Value → Eval β) :
    all ev (n :: ns) >>= g = ev n >>= fun v => all ev ns >>= fun vs => g (v :: vs) := by
  rw [all, bind_assoc]
  congr 1
  funext v
  rw [bind_assoc]
  rfl

/-- What yields no value ends what comes after it. -/
theorem bind_of_not_isValue {x : Eval Value} (h : (x m).1.isValue = false)
    (f : Value → Eval Value) : (x >>= f) m = x m := by
  cases ho : (x m).1 with
  | value a =>
    rw [ho] at h
    exact absurd h (by simp [Outcome.isValue])
  | jump s => rw [bind_of_jump ho, ← ho]
  | error e => rw [bind_of_error ho, ← ho]
  | outOfFuel => rw [bind_of_outOfFuel ho, ← ho]

end Eval

variable {m m₁ m₂ : Machine} {ns : List Node} {vs : List Value}

/-- What follows the arguments either goes on with all their values, or the first that yields none
stops it. -/
theorem args_cases (fuel : Nat) (ns : List Node) (g : List Value → Eval Value) (m : Machine) :
    (∃ vs m₁, AllYield ns m vs m₁ ∧ (Eval.all (evaluate fuel) ns >>= g) m = g vs m₁) ∨
    ∃ before n after vs m₁, ns = before ++ n :: after ∧ AllYield before m vs m₁ ∧
      (evaluate fuel n m₁).1.isValue = false ∧
      (Eval.all (evaluate fuel) ns >>= g) m = evaluate fuel n m₁ := by
  induction ns generalizing g m with
  | nil => exact .inl ⟨[], m, .nil, rfl⟩
  | cons n ns ih =>
    rw [Eval.all_cons_bind]
    cases hvalue : (evaluate fuel n m).1.isValue with
    | false => exact .inr ⟨[], n, ns, [], m, rfl, .nil, hvalue, Eval.bind_of_not_isValue hvalue _⟩
    | true =>
      obtain ⟨v, hv⟩ := Outcome.exists_value hvalue
      have hn : n.EndsWith m (.value v) (evaluate fuel n m).2 :=
        Node.endsWith_of_evaluate (Prod.ext hv rfl) rfl
      rw [Eval.bind_of_value hv]
      rcases ih (fun vs => g (v :: vs)) (evaluate fuel n m).2 with h | h
      · obtain ⟨vs, m₁, hall, hg⟩ := h
        exact .inl ⟨v :: vs, m₁, .cons hn hall, hg⟩
      · obtain ⟨before, d, after, vs, m₁, hns, hall, hd, hg⟩ := h
        exact .inr ⟨n :: before, d, after, v :: vs, m₁, by rw [hns]; rfl, .cons hn hall, hd, hg⟩

/-- From some fuel on, arguments that yield these values hand them on. -/
theorem AllYield.exists_all (h : AllYield ns m vs m₁) :
    ∃ least, ∀ fuel, least ≤ fuel → ∀ (after : List Node) (g : List Value → Eval Value),
      (Eval.all (evaluate fuel) (ns ++ after) >>= g) m =
        (Eval.all (evaluate fuel) after >>= fun ws => g (vs ++ ws)) m₁ := by
  induction h with
  | nil => exact ⟨0, fun _ _ _ _ => rfl⟩
  | @cons n ns v vs m m₁ m₂ hn _ ih =>
    obtain ⟨-, least, hn⟩ := hn
    obtain ⟨least', ih⟩ := ih
    refine ⟨max least least', fun fuel hle after g => ?_⟩
    have hv := hn fuel (Nat.le_trans (Nat.le_max_left ..) hle)
    have hall := ih fuel (Nat.le_trans (Nat.le_max_right ..) hle) after fun ws => g (v :: ws)
    rw [List.cons_append, Eval.all_cons_bind, Eval.bind_of_value (congrArg Prod.fst hv), hv]
    exact hall

/-- Arguments leave the frame as they found it, so the depth of calls that is compared with the
limit is the one that the call started with. -/
theorem AllYield.sameFrame (h : AllYield ns m vs m₁) : m.context.SameFrame m₁.context := by
  induction h with
  | nil => exact .refl _
  | @cons n ns v vs m m₁ m₂ hn _ ih =>
    obtain ⟨fuel, hn⟩ := hn.exists_evaluate
    have hframe := (Eval.Nested.evaluate fuel n).balanced m
    rw [hn] at hframe
    exact hframe.trans ih

/-! ## Running the body -/

theorem Eval.body_some_eq (ev : Node → Eval Value) (b : Node) (m : Machine) :
    body ev (some b) m = ((ev b m).1.returned, (ev b m).2) := by
  rw [body]
  cases h : (ev b m).1 with
  | value v => rw [receive_of_value h]; rfl
  | jump s =>
    obtain ⟨keyword, v, l⟩ := s
    rw [receive_of_jump h]
    cases keyword with
    | ret | brk | next => rfl
  | error e => rw [receive_of_error h]; rfl
  | outOfFuel => rw [receive_of_outOfFuel h]; rfl

theorem Outcome.isFinal_returned (o : Outcome Value) : o.returned.isFinal = o.isFinal := by
  cases o with
  | jump s =>
    obtain ⟨keyword, v, l⟩ := s
    cases keyword with
    | ret | brk | next => rfl
  | value | error | outOfFuel => rfl

theorem Method.ends_of_isFinal {method : Method} {fuel : Nat}
    (h : (Eval.body (evaluate fuel) method.body m).1.isFinal = true) :
    method.Ends m (Eval.body (evaluate fuel) method.body m).1
      (Eval.body (evaluate fuel) method.body m).2 := by
  cases hbody : method.body with
  | none => exact .empty hbody
  | some b =>
    rw [hbody, Eval.body_some_eq] at h
    rw [Eval.body_some_eq]
    rw [Outcome.isFinal_returned] at h
    exact .body hbody (Node.endsWith_of_isFinal h)

/-- A body that ends does so from some fuel on. -/
theorem Method.Ends.exists_body {method : Method} {o : Outcome Value}
    (h : method.Ends m o m₁) : o.isFinal = true ∧
      ∃ least, ∀ fuel, least ≤ fuel → Eval.body (evaluate fuel) method.body m = (o, m₁) := by
  cases h with
  | empty hbody => exact ⟨rfl, 0, fun _ _ => by rw [hbody]; rfl⟩
  | @body b o m' hbody hb =>
    obtain ⟨hfinal, least, hb⟩ := hb
    refine ⟨by rw [Outcome.isFinal_returned, hfinal], least, fun fuel hle => ?_⟩
    rw [hbody, Eval.body_some_eq, hb fuel hle]

theorem balanced_body (fuel : Nat) (b : Option Node) :
    (Eval.body (evaluate fuel) b).Balanced := by
  refine Eval.Nested.balanced ?_
  cases b with
  | none => exact .yield _
  | some b =>
    refine .andThen (.receive (.evaluate fuel b)) fun ending => ?_
    cases ending with
    | value v => exact .yield v
    | jump s =>
      obtain ⟨keyword, v, l⟩ := s
      cases keyword with
      | ret => exact .yield v
      | brk | next => exact .jump _

section

variable {method : Method} (fuel : Nat) (l : Location)

theorem invoke_of_miscounted (h : vs.length ≠ method.params.length) (m : Machine) :
    Eval.invoke (evaluate fuel) method l vs m =
      (.error (.fault (.arity (.ofNat vs.length) (.ofNat method.params.length)) (some l)), m) := by
  rw [Eval.invoke, if_neg h]
  rfl

theorem invoke_of_limit (h : vs.length = method.params.length)
    (hlimit : m.context.options.maxCallDepth ≤ m.context.depth) :
    Eval.invoke (evaluate fuel) method l vs m = (.error (.fault .tooDeep (some l)), m) := by
  rw [Eval.invoke, if_pos h, Eval.enterCall_of_limit (decide_eq_true hlimit)]

/-- Whatever the body does, the call is back in its own frame afterwards. -/
theorem invoke_of_room (h : vs.length = method.params.length)
    (hroom : m.context.depth < m.context.options.maxCallDepth) :
    Eval.invoke (evaluate fuel) method l vs m =
      ((Eval.body (evaluate fuel) method.body (m.inBody method vs)).1,
        (Eval.body (evaluate fuel) method.body (m.inBody method vs)).2.backIn m) := by
  have hrun := Eval.withScope_withNewEnvironment (balanced_body fuel method.body) method.owner
    (.ofPairs (method.params.zip vs)) m.inCall
  rw [Eval.invoke, if_pos h, Eval.enterCall_of_room (decide_eq_false (Nat.not_le_of_lt hroom))]
  exact congrArg (fun r : Outcome Value × Machine =>
    (r.1, { r.2 with context := r.2.context.leave })) hrun

end

/-! ## The protocol -/

section

variable {t : Tag} {name : String} {args : List Node} {o : Outcome Value}

/-- What a call with some fuel does, if it ends, is one of the ways in which calls end. -/
theorem callEnds_of_call {fuel : Nat}
    (hcall : Eval.call (evaluate fuel) t.location name args m = (o, m₁))
    (hfinal : o.isFinal = true) : CallEnds t name args m o m₁ := by
  rw [Eval.call_eq] at hcall
  cases hmethod : m.callee? name with
  | none =>
    rw [hmethod] at hcall
    obtain ⟨rfl, rfl⟩ := Prod.mk.inj hcall
    exact .unresolved hmethod
  | some method =>
    rw [hmethod] at hcall
    dsimp only at hcall
    rcases args_cases fuel args (Eval.invoke (evaluate fuel) method t.location) m with hall | hstop
    · obtain ⟨vs, m₂, hall, hrun⟩ := hall
      rw [hrun] at hcall
      by_cases hcount : vs.length = method.params.length
      · by_cases hlimit : m₂.context.options.maxCallDepth ≤ m₂.context.depth
        · rw [invoke_of_limit fuel t.location hcount hlimit] at hcall
          obtain ⟨rfl, rfl⟩ := Prod.mk.inj hcall
          exact .tooDeep hmethod hall hcount hlimit
        · have hroom := Nat.lt_of_not_le hlimit
          rw [invoke_of_room fuel t.location hcount hroom] at hcall
          obtain ⟨rfl, rfl⟩ := Prod.mk.inj hcall
          exact .ran hmethod hall hcount hroom (Method.ends_of_isFinal hfinal)
      · rw [invoke_of_miscounted fuel t.location hcount] at hcall
        obtain ⟨rfl, rfl⟩ := Prod.mk.inj hcall
        exact .miscounted hmethod hall hcount
    · obtain ⟨before, n, after, vs, m₂, hargs, hall, hvalue, hrun⟩ := hstop
      rw [hrun] at hcall
      rw [hcall] at hvalue
      exact .stopped hmethod hargs hall (Node.endsWith_of_evaluate hcall hfinal) hvalue

/-- Every way in which calls end is what a call does with enough fuel. -/
theorem CallEnds.exists_call (h : CallEnds t name args m o m₁) :
    o.isFinal = true ∧
      ∃ fuel, Eval.call (evaluate fuel) t.location name args m = (o, m₁) := by
  have hsettled : ∀ {method : Method}, m.callee? name = some method → ∀ fuel,
      Eval.call (evaluate fuel) t.location name args m =
        (Eval.all (evaluate fuel) args >>= Eval.invoke (evaluate fuel) method t.location) m := by
    intro method hmethod fuel
    rw [Eval.call_eq, hmethod]
  have hinvoked : ∀ {method : Method} {vs : List Value} {m₁ : Machine},
      m.callee? name = some method → AllYield args m vs m₁ →
      ∃ least, ∀ fuel, least ≤ fuel → Eval.call (evaluate fuel) t.location name args m =
        Eval.invoke (evaluate fuel) method t.location vs m₁ := by
    intro method vs m₁ hmethod hall
    obtain ⟨least, hleast⟩ := hall.exists_all
    refine ⟨least, fun fuel hle => ?_⟩
    have hrun := hleast fuel hle [] (Eval.invoke (evaluate fuel) method t.location)
    rw [List.append_nil] at hrun
    rw [hsettled hmethod, hrun]
    show Eval.invoke (evaluate fuel) method t.location (vs ++ []) m₁ = _
    rw [List.append_nil]
  cases h with
  | unresolved hmethod => exact ⟨rfl, 0, by rw [Eval.call_eq, hmethod]; rfl⟩
  | @stopped method before after n vs m₁ m₂ o hmethod hargs hall hn hvalue =>
    -- Fuel for the arguments before it, and for the one that stops the call.
    obtain ⟨least, hall⟩ := hall.exists_all
    obtain ⟨hfinal, least', hn⟩ := hn
    refine ⟨hfinal, max least least', ?_⟩
    have hn := hn _ (Nat.le_max_right least least')
    rw [hsettled hmethod, hargs, hall _ (Nat.le_max_left ..), Eval.all_cons_bind,
      Eval.bind_of_not_isValue (by rw [hn]; exact hvalue), hn]
  | miscounted hmethod hall hcount =>
    obtain ⟨fuel, hrun⟩ := hinvoked hmethod hall
    exact ⟨rfl, fuel, by rw [hrun fuel (Nat.le_refl _), invoke_of_miscounted fuel _ hcount]⟩
  | tooDeep hmethod hall hcount hlimit =>
    obtain ⟨fuel, hrun⟩ := hinvoked hmethod hall
    exact ⟨rfl, fuel, by rw [hrun fuel (Nat.le_refl _), invoke_of_limit fuel _ hcount hlimit]⟩
  | ran hmethod hall hcount hroom hends =>
    obtain ⟨least, hrun⟩ := hinvoked hmethod hall
    obtain ⟨hfinal, least', hbody⟩ := hends.exists_body
    refine ⟨hfinal, max least least', ?_⟩
    rw [hrun _ (Nat.le_max_left ..), invoke_of_room _ _ hcount hroom,
      hbody _ (Nat.le_max_right ..)]

end

/-- **The protocol of a call.** A call ends in the ways that `CallEnds` lists and in no others, on
the machine that records that it started. Its arguments leave the frame as it was, and a body whose
call has as many arguments as parameters finds what `Machine.Entered` says. -/
theorem call_protocol :
    (∀ (t : Tag) (name : String) (args : List Node) (m : Machine) (o : Outcome Value)
      (m' : Machine), (Node.call t name args).EndsWith m o m' ↔
        ∃ m₁, CallEnds t name args (m.record (.started .evaluating (.call t name args))) o m₁ ∧
          m' = m₁.record (.ended .evaluating (.call t name args) o)) ∧
    (∀ {ns : List Node} {m m₁ : Machine} {vs : List Value}, AllYield ns m vs m₁ →
      m.context.SameFrame m₁.context) ∧
    ∀ (m : Machine) {method : Method} {vs : List Value}, vs.length = method.params.length →
      m.Entered method vs (m.inBody method vs) := by
  refine ⟨fun t name args m o m' => ?_, AllYield.sameFrame, fun m => m.entered_inBody⟩
  rw [Node.endsWith_iff_step]
  constructor
  · rintro ⟨hfinal, fuel, k, hcall, rfl⟩
    exact ⟨k, callEnds_of_call hcall hfinal, rfl⟩
  · rintro ⟨k, hends, rfl⟩
    obtain ⟨hfinal, fuel, hcall⟩ := hends.exists_call
    exact ⟨hfinal, fuel, k, hcall, rfl⟩

/-- A call of `f` whose first argument makes `f` a method without parameters. -/
def redefiningArguments : List Node :=
  [.block .sample [.define .sample "f" ⟨.sample, []⟩ none, .bool .sample true],
    .bool .sample false]

/-- The method that was `f` before is called nevertheless. Both its parameters have the same name,
which stands for the second argument. -/
theorem redefiningArguments_protocol :
    let method : Method := ⟨"f", ["x", "x"], some readX, 0⟩
    let m : Machine := { Machine.oneMethod .default readX with
      heap := ⟨Lineage.empty.add none .empty,
        Scopes.setSlot (Scopes.create .empty ⟨.klass, "A"⟩ none) 0 "f" (.defined method)⟩ }
    let call : Node := .call .sample "f" redefiningArguments
    (∃ v m₁, CallEnds .sample "f" redefiningArguments (m.record (.started .evaluating call))
      (.value v) m₁ ∧ v.isTruthy = false ∧ (m₁.callee? "f").map Method.params = some []) ∧
    (∃ m₁, AllYield redefiningArguments m [.bool true, .bool false] m₁ ∧
      m.context.SameFrame m₁.context) ∧
    m.Entered method [.bool true, .bool false] (m.inBody method [.bool true, .bool false]) := by
  intro method m call
  have hargs : AllYield redefiningArguments m [.bool true, .bool false] _ :=
    .cons (Node.endsWith_of_evaluate (evaluate 9 _ m).eta.symm rfl)
      (.cons (Node.endsWith_of_evaluate (evaluate 9 _ _).eta.symm rfl) .nil)
  refine ⟨?_, ⟨_, hargs, call_protocol.2.1 hargs⟩, call_protocol.2.2 m rfl⟩
  have hanswer : ((evaluate 9 call m).1.value?).map Value.isTruthy = some false := by
    decide +kernel
  obtain ⟨v, hvalue, hfalse⟩ := Option.map_eq_some_iff.mp hanswer
  have hv : (evaluate 9 call m).1 = .value v := Outcome.eq_value_of_value? hvalue
  have hredefined : ((evaluate 9 call m).2.callee? "f").map Method.params = some [] := by
    decide +kernel
  have hends : call.EndsWith m (.value v) (evaluate 9 call m).2 :=
    Node.endsWith_of_evaluate (Prod.ext hv rfl) rfl
  obtain ⟨m₁, hcall, hm₁⟩ := (call_protocol.1 ..).mp hends
  rw [hm₁] at hredefined
  exact ⟨v, m₁, hcall, hfalse, hredefined⟩

end Treewalk
