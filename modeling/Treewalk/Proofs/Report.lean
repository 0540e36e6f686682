import Treewalk.Proofs.Journal
import Treewalk.Proofs.Sharing

/-!
# Reports

A contract says of each ending what it is and of each machine what has become of it, and keeps the
two apart. A report says something of both: where the jump came from that a computation ended with,
or that a failure in the journal is the one it ended with.

A report carries over to all evaluations if it holds wherever nothing is recorded, of jumps apart,
if it can be put together along a sequence, and if it survives brackets and the two entries around a
node: `Report.Lawful`. A node that raises a jump is looked at by itself, for it ends with a jump
that none of its parts ended with.
-/

set_option autoImplicit false

namespace Treewalk

/-- How something ended, whatever its value. -/
def Outcome.manner {α : Type} : Outcome α → Outcome Unit
  | .value _ => .value ()
  | .jump s => .jump s
  | .error e => .error e
  | .outOfFuel => .outOfFuel

theorem Outcome.eq_jump_of_manner {α : Type} {o : Outcome α} {s : Signal}
    (h : o.manner = .jump s) : o = .jump s := by
  cases o with
  | jump s' => exact congrArg jump (Outcome.jump.inj h)
  | value | error | outOfFuel => exact absurd h (by simp [manner])

theorem Outcome.eq_error_of_manner {α : Type} {o : Outcome α} {e : Error}
    (h : o.manner = .error e) : o = .error e := by
  cases o with
  | error e' => exact congrArg error (Outcome.error.inj h)
  | value | jump | outOfFuel => exact absurd h (by simp [manner])

/-- What is said of computations: of the machine they start on, of the way they end and of the
machine they leave. -/
abbrev Report : Type := Machine → Outcome Unit → Machine → Prop

/-- What makes a report carry over to all evaluations that keep a journal. -/
structure Report.Lawful (K : Report) : Prop where
  calm : ∀ {m m' : Machine} {o : Outcome Unit}, m'.journal = m.journal → (∀ s, o ≠ .jump s) →
    K m o m'
  trans : ∀ {m m' m'' : Machine} {o o' : Outcome Unit}, (∀ e, o ≠ .error e) → K m o m' →
    K m' o' m'' → K m o' m''
  within : ∀ {m m' : Machine} {o : Outcome Unit} {c c' : Context},
    c'.warnings = m'.context.warnings → c'.constants = m'.context.constants →
    K { m with context := c } o m' → K m o { m' with context := c' }
  entered : ∀ {m : Machine}, m.journal.isSome = true → K m (.value ()) (m.record .entered)
  observed : ∀ {m m' : Machine} {activity : Activity} {n : Node} {o : Outcome Value},
    m.journal.isSome = true → m'.journal.isSome = true →
    K (m.record (.started activity n)) o.manner m' →
    K m o.manner (m'.record (.ended activity n o))
  raised : ∀ {m m' : Machine} {t : Tag} {s : Signal} {own : Option Node},
    m.journal.isSome = true → m'.journal.isSome = true → s.location = some t.location →
    K (m.record (.started .evaluating (.jump t s.keyword own))) (.value ()) m' →
    K m (.jump s) (m'.record (.ended .evaluating (.jump t s.keyword own) (.jump s)))

/-- A value satisfies a predicate. -/
def Outcome.Yields {α : Type} (A : α → Prop) : Outcome α → Prop
  | .value a => A a
  | _ => True

/-- A value satisfies a predicate, and there is no jump. -/
def Outcome.Calm {α : Type} (A : α → Prop) : Outcome α → Prop
  | .value a => A a
  | .jump _ => False
  | .error _ | .outOfFuel => True

/-- The report holds of the computation wherever a journal is kept, which is kept on, and its value
satisfies a predicate. -/
def Eval.Reports {α : Type} (K : Report) (A : α → Prop) (x : Eval α) : Prop :=
  ∀ m : Machine, m.journal.isSome = true →
    (x m).2.journal.isSome = true ∧ K m (x m).1.manner (x m).2 ∧ (x m).1.Yields A

namespace Eval.Reports

variable {α β : Type} {K : Report} {A : α → Prop} {B : β → Prop} {x : Eval α}

/-! ## Computations that record nothing -/

/-- What neither jumps nor touches the journal. -/
theorem of_calm (hK : K.Lawful) (hjournal : ∀ m, (x m).2.journal = m.journal)
    (hcalm : ∀ m, (x m).1.Calm A) : x.Reports K A := by
  intro m hm
  have hkept : (x m).2.journal.isSome = true := by
    rw [hjournal m]
    exact hm
  have hends := hcalm m
  refine ⟨hkept, hK.calm (hjournal m) fun s hs => ?_, ?_⟩
  · rw [Outcome.eq_jump_of_manner hs] at hends
    exact hends
  · cases ho : (x m).1 with
    | value a =>
      rw [ho] at hends
      exact hends
    | jump | error | outOfFuel => trivial

theorem yield (hK : K.Lawful) {a : α} (h : A a) : (pure a : Eval α).Reports K A :=
  of_calm hK (fun _ => rfl) fun _ => h

theorem fail (hK : K.Lawful) (e : Error) : (Eval.fail e : Eval α).Reports K A :=
  of_calm hK (fun _ => rfl) fun _ => trivial

theorem outOfFuel (hK : K.Lawful) : (Eval.outOfFuel : Eval α).Reports K A :=
  of_calm hK (fun _ => rfl) fun _ => trivial

theorem look (hK : K.Lawful) {f : Machine → α} (h : ∀ m, A (f m)) : (Eval.look f).Reports K A :=
  of_calm hK (fun _ => rfl) h

theorem changeContext (hK : K.Lawful) {A : Unit → Prop} (f : Context → Context) (h : A ()) :
    (Eval.changeContext f).Reports K A :=
  of_calm hK (fun _ => rfl) fun _ => h

theorem changeHeap (hK : K.Lawful) {A : Unit → Prop} (f : Heap → Heap) (h : A ()) :
    (Eval.changeHeap f).Reports K A :=
  of_calm hK (fun _ => rfl) fun _ => h

theorem changeScopes (hK : K.Lawful) {A : Unit → Prop} (l : Option Location)
    (f : Scopes → Except Fault Scopes) (h : A ()) : (Eval.changeScopes l f).Reports K A := by
  refine of_calm hK (fun m => ?_) fun m => ?_
  · unfold Eval.changeScopes
    cases f m.heap.scopes with
    | ok | error => rfl
  · unfold Eval.changeScopes
    cases f m.heap.scopes with
    | ok => exact h
    | error => trivial

/-! ## Combinators -/

theorem imp {A' : α → Prop} (hx : x.Reports K A) (h : ∀ a, A a → A' a) : x.Reports K A' := by
  intro m hm
  obtain ⟨hkept, hreport, hvalue⟩ := hx m hm
  refine ⟨hkept, hreport, ?_⟩
  cases ho : (x m).1 with
  | value a =>
    rw [ho] at hvalue
    exact h a hvalue
  | jump | error | outOfFuel => trivial

theorem andThen (hK : K.Lawful) {f : α → Eval β} (hx : x.Reports K A)
    (hf : ∀ a, A a → (f a).Reports K B) : (x >>= f).Reports K B := by
  intro m hm
  obtain ⟨hkept, hreport, hvalue⟩ := hx m hm
  cases h : (x m).1 with
  | value a =>
    rw [h] at hreport hvalue
    rw [bind_of_value h]
    obtain ⟨hkept', hreport', hvalue'⟩ := hf a hvalue _ hkept
    exact ⟨hkept', hK.trans (by simp [Outcome.manner]) hreport hreport', hvalue'⟩
  | jump s =>
    rw [h] at hreport
    rw [bind_of_jump h]
    exact ⟨hkept, hreport, trivial⟩
  | error e =>
    rw [h] at hreport
    rw [bind_of_error h]
    exact ⟨hkept, hreport, trivial⟩
  | outOfFuel =>
    rw [h] at hreport
    rw [bind_of_outOfFuel h]
    exact ⟨hkept, hreport, trivial⟩

/-- It makes no difference what was looked at before. -/
theorem lookThen (hK : K.Lawful) {g : Machine → α} {f : α → Eval β}
    (hf : ∀ a, (f a).Reports K B) : (Eval.look g >>= f).Reports K B :=
  andThen hK (look hK (A := fun _ => True) fun _ => trivial) fun a _ => hf a

/-- What receives jumps may raise the one it received again. -/
theorem receive (hK : K.Lawful) {f : Probe α → Eval β} (hx : x.Reports K A)
    (hvalue : ∀ a, A a → (f (.value a)).Reports K B)
    (hjump : ∀ s, (f (.jump s)).Reports K B ∨ f (.jump s) = Eval.jump s) :
    (Eval.probe x >>= f).Reports K B := by
  intro m hm
  obtain ⟨hkept, hreport, ha⟩ := hx m hm
  cases h : (x m).1 with
  | value a =>
    rw [h] at hreport ha
    rw [receive_of_value h]
    obtain ⟨hkept', hreport', hvalue'⟩ := hvalue a ha _ hkept
    exact ⟨hkept', hK.trans (by simp [Outcome.manner]) hreport hreport', hvalue'⟩
  | jump s =>
    rw [h] at hreport
    rw [receive_of_jump h]
    rcases hjump s with hs | hs
    · obtain ⟨hkept', hreport', hvalue'⟩ := hs _ hkept
      exact ⟨hkept', hK.trans (by simp [Outcome.manner]) hreport hreport', hvalue'⟩
    · rw [hs]
      exact ⟨hkept, hreport, trivial⟩
  | error e =>
    rw [h] at hreport
    rw [receive_of_error h]
    exact ⟨hkept, hreport, trivial⟩
  | outOfFuel =>
    rw [h] at hreport
    rw [receive_of_outOfFuel h]
    exact ⟨hkept, hreport, trivial⟩

/-- A bracket changes nothing that counts on the way out. -/
theorem within (hK : K.Lawful) {there : Context → Context} {back : Context → Context → Context}
    (hwarnings : ∀ c c', (back c c').warnings = c'.warnings)
    (hconstants : ∀ c c', (back c c').constants = c'.constants) (hx : x.Reports K A) :
    (Eval.within there back x).Reports K A := by
  intro m hm
  obtain ⟨hkept, hreport, hvalue⟩ := hx { m with context := there m.context } hm
  exact ⟨hkept, hK.within (hwarnings _ _) (hconstants _ _) hreport, hvalue⟩

theorem observed (hK : K.Lawful) {A : Value → Prop} {activity : Activity} {n : Node}
    {x : Eval Value} (hx : x.Reports K A) : (Eval.observed activity n x).Reports K A := by
  intro m hm
  obtain ⟨hkept, hreport, hvalue⟩ := hx _ (Machine.kept_record hm (.started activity n))
  exact ⟨Machine.kept_record hkept _, hK.observed hm hkept hreport, hvalue⟩

theorem enterCall (hK : K.Lawful) (l : Option Location) (hx : x.Reports K A) :
    (Eval.enterCall l x).Reports K A := by
  have hentered : Eval.entered.Reports K fun _ => True :=
    fun m hm => ⟨Machine.kept_record hm _, hK.entered hm, trivial⟩
  refine lookThen hK fun b => ?_
  split
  · exact fail hK _
  · exact within hK (fun _ _ => rfl) (fun _ _ => rfl) (andThen hK hentered fun _ _ => hx)

/-! ## Nodes -/

/-- As a judgment on the left side. -/
def judgment (K : Report) : Judgment := fun _ A x _ => x.Reports K fun a => ∃ b, A a b

/-- What nodes are made of that neither jump nor receive jumps. -/
theorem scoping (hK : K.Lawful) : Scoping .same (judgment K) where
  yield h := yield hK ⟨_, h⟩
  andThen hx hf := andThen hK hx fun a ⟨b, hab⟩ => hf a b hab
  misuse _ := fail hK _
  fault _ _ _ := fail hK _
  assigning _ hx := observed hK hx
  readLocal name _ := by
    refine lookThen hK fun v => ?_
    cases v with
    | none => exact fail hK _
    | some v => exact yield hK ⟨v, rfl⟩
  assignLocal name v := lookThen hK fun _ => changeHeap hK _ ⟨(), rfl⟩
  currentScope :=
    look hK fun m => ⟨_, .of_rel trivial (Likeness.optionRel_refl (fun _ => rfl) _)⟩
  find _ _ := look hK fun m => ⟨_, Likeness.optionRel_refl Likeness.same_methods _⟩
  called _ := look hK fun m => ⟨_, rfl⟩
  define _ _ _ _ _ := changeScopes hK _ _ ⟨(), rfl⟩
  undef name _ _ := by
    refine lookThen hK fun frozen => ?_
    dsimp only
    split
    · refine andThen hK (changeContext hK (A := fun _ => True) _ trivial) fun _ _ => ?_
      exact changeScopes hK _ _ ⟨(), rfl⟩
    · exact changeScopes hK _ _ ⟨(), rfl⟩
  addAlias _ _ _ _ := changeScopes hK _ _ ⟨(), rfl⟩
  openConstant sort name _ := by
    refine lookThen hK fun s => ?_
    cases s with
    | none =>
      refine lookThen hK fun s => ?_
      refine andThen hK (changeHeap hK (A := fun _ => True) _ trivial) fun _ _ => ?_
      refine andThen hK (changeContext hK (A := fun _ => True) _ trivial) fun _ _ => ?_
      exact yield hK ⟨s, rfl⟩
    | some s =>
      refine lookThen hK fun _ => ?_
      split
      · exact yield hK ⟨s, rfl⟩
      · exact fail hK _
  withScope _ hx := within hK (fun _ _ => rfl) (fun _ _ => rfl) hx
  withNewEnvironment bindings hx := by
    have hnew : (Eval.newEnvironment bindings).Reports K fun _ => True := by
      refine lookThen hK fun e => ?_
      refine andThen hK (changeHeap hK (A := fun _ => True) _ trivial) fun _ _ => ?_
      exact yield hK trivial
    exact andThen hK hnew fun _ _ => within hK (fun _ _ => rfl) (fun _ _ => rfl) hx

theorem loop (hK : K.Lawful) {c b : Eval Value} (hc : c.Reports K fun _ => True)
    (hb : b.Reports K fun _ => True) (fuel : Nat) :
    (Eval.loop c b fuel).Reports K fun _ => True := by
  induction fuel with
  | zero => exact outOfFuel hK
  | succ fuel ih =>
    rw [Eval.loop]
    refine andThen hK hc fun v _ => ?_
    cases v.isTruthy with
    | false => exact yield hK trivial
    | true =>
      refine receive hK hb (fun _ _ => ih) fun s => ?_
      dsimp only
      cases s.keyword with
      | brk => exact .inl (yield hK trivial)
      | next => exact .inl ih
      | ret => exact .inr rfl

theorem body (hK : K.Lawful) {ev : Node → Eval Value} (hev : ∀ n, (ev n).Reports K fun _ => True)
    (b : Option Node) : (Eval.body ev b).Reports K fun _ => True := by
  cases b with
  | none => exact yield hK trivial
  | some n =>
    refine receive hK (hev n) (fun _ _ => yield hK trivial) fun s => ?_
    dsimp only
    cases s.keyword with
    | ret => exact .inl (yield hK trivial)
    | brk | next => exact .inr rfl

theorem definition? (hK : K.Lawful) {ev : Node → Eval Value}
    (hev : ∀ n, (ev n).Reports K fun _ => True) (n : Node) :
    (Eval.definition? ev n).Reports K fun _ => True :=
  receive hK (hev n) (fun _ _ => yield hK trivial) fun _ => .inl (yield hK trivial)

/-- A node that raises jumps ends with its own jump unless its part ended otherwise. -/
theorem jump (hK : K.Lawful) {ev : Node → Eval Value} (hev : ∀ n, (ev n).Reports K fun _ => True)
    (fuel : Nat) (t : Tag) (keyword : Keyword) (own : Option Node) :
    (Eval.observed .evaluating (.jump t keyword own)
      (Eval.step fuel ev (.jump t keyword own))).Reports K fun _ => True := by
  intro m hm
  have hstart := Machine.kept_record hm (.started .evaluating (.jump t keyword own))
  cases own with
  | none =>
    have hcalm : K _ (.value ()) (m.record (.started .evaluating (.jump t keyword none))) :=
      hK.calm rfl (by simp)
    rw [observed_eq, Eval.step]
    exact ⟨Machine.kept_record hstart _, hK.raised hm hstart rfl hcalm, trivial⟩
  | some n =>
    obtain ⟨hkept, hreport, -⟩ := hev n _ hstart
    rw [observed_eq, Eval.step]
    cases h : (ev n (m.record (.started .evaluating (.jump t keyword (some n))))).1 with
    | value v =>
      rw [h] at hreport
      rw [bind_of_value h]
      exact ⟨Machine.kept_record hkept _, hK.raised hm hkept rfl hreport, trivial⟩
    | jump s =>
      rw [h] at hreport
      rw [bind_of_jump h]
      exact ⟨Machine.kept_record hkept _, hK.observed (o := .jump s) hm hkept hreport, trivial⟩
    | error e =>
      rw [h] at hreport
      rw [bind_of_error h]
      exact ⟨Machine.kept_record hkept _, hK.observed (o := .error e) hm hkept hreport, trivial⟩
    | outOfFuel =>
      rw [h] at hreport
      rw [bind_of_outOfFuel h]
      exact ⟨Machine.kept_record hkept _, hK.observed (o := .outOfFuel) hm hkept hreport, trivial⟩

/-- A node that neither raises jumps nor receives them passes on those of its parts. -/
theorem passed (hK : K.Lawful) {ev : Node → Eval Value}
    (hev : ∀ n, (ev n).Reports K fun _ => True) (fuel : Nat) {n : Node}
    (hjumps : n.handlesJumps = false) : (Eval.step fuel ev n).Reports K fun _ => True := by
  have hparts : ∀ c c' : Node, c = c' → judgment K _ Eq (ev c) (ev c') := by
    rintro c _ rfl
    exact (hev c).imp fun a _ => ⟨a, rfl⟩
  have hsteps := Likeness.same_steps n n rfl
  have hstep : judgment K _ Eq (Eval.step fuel ev n) (Eval.step fuel ev n) := by
    cases hscopes : n.handlesScopes with
    | false =>
      exact (scoping hK).toSequential.step Likeness.same_assigns hparts hjumps hscopes hsteps
    | true =>
      refine (scoping hK).step hparts ?_ hscopes hsteps
      intro t t' a b vs ht hm
      refine (scoping hK).toSequential.invokeWith (scoping hK).toActing ht hm (enterCall hK _)
        (fun _ => ?_) vs
      exact (body hK hev _).imp fun a _ => ⟨a, rfl⟩
  exact hstep.imp fun _ _ => trivial

/-! ## Whole evaluations -/

/-- Induction on the fuel. Only the nodes that have to do with jumps need a closer look. -/
theorem evaluate (hK : K.Lawful) (fuel : Nat) (n : Node) :
    (Treewalk.evaluate fuel n).Reports K fun _ => True := by
  induction fuel generalizing n with
  | zero => exact outOfFuel hK
  | succ fuel ih =>
    cases hjumps : n.handlesJumps with
    | false => exact observed hK (passed hK ih fuel hjumps)
    | true =>
      cases n with
      | jump t keyword own => exact jump hK ih fuel t keyword own
      | whileLoop t c b => exact observed hK (loop hK (ih c) (ih b) fuel)
      | defined t e =>
        refine observed hK (andThen hK (definition? hK ih e) fun d _ => ?_)
        cases d with
        | none | some _ => exact yield hK trivial
      | _ => exact absurd hjumps Bool.noConfusion

theorem assign (hK : K.Lawful) (checkArity : Bool) (v : Value) (n : Node) :
    (Eval.assign checkArity v n).Reports K fun _ => True := by
  have hassign := (scoping hK).toSequential.assign Likeness.same_assigns (n := n) rfl checkArity v
  exact imp hassign fun _ _ => trivial

theorem probe (hK : K.Lawful) (fuel : Nat) (n : Node) :
    (Treewalk.probe fuel n).Reports K fun _ => True := by
  intro m hm
  obtain ⟨hkept, hreport, -⟩ := evaluate hK fuel n m hm
  rw [Treewalk.probe]
  have hcalm : ∀ m', K m' (.value ()) m' := fun _ => hK.calm rfl (by simp)
  cases h : (Treewalk.evaluate fuel n m).1 with
  | value v =>
    rw [h] at hreport
    rw [probe_of_value h]
    exact ⟨hkept, hreport, trivial⟩
  | jump s =>
    rw [h] at hreport
    rw [probe_of_jump h]
    exact ⟨hkept, hK.trans (by simp [Outcome.manner]) hreport (hcalm _), trivial⟩
  | error e =>
    rw [h] at hreport
    rw [probe_of_error h]
    exact ⟨hkept, hreport, trivial⟩
  | outOfFuel =>
    rw [h] at hreport
    rw [probe_of_outOfFuel h]
    exact ⟨hkept, hreport, trivial⟩

theorem definition (hK : K.Lawful) (fuel : Nat) (n : Node) :
    (Treewalk.definition? fuel n).Reports K fun _ => True :=
  definition? hK (evaluate hK fuel) n

theorem run (hK : K.Lawful) (fuel : Nat) (root : Node) :
    (Treewalk.run fuel root).Reports K fun _ => True := by
  refine receive hK (evaluate hK fuel root) (fun _ _ => yield hK trivial) fun s => .inl ?_
  dsimp only
  cases s.keyword with
  | ret => exact yield hK trivial
  | brk | next => exact fail hK _

end Eval.Reports

end Treewalk
