import Treewalk.Proofs.Contract
import Treewalk.Proofs.Sample

/-!
# What evaluation leaves as it found it

Evaluation opens scopes, stands in other environments and enters calls. However a computation
ends, by a value, a jump or an error, the context afterwards has the same scopes open, the same
environment and as many calls entered: `evaluation_balanced`.
-/

set_option autoImplicit false

namespace Treewalk

/-- Two contexts with the same open scopes, the same environment and as many calls entered. -/
structure Context.SameFrame (c d : Context) : Prop where
  scopes : d.scopes = c.scopes
  environment : d.environment = c.environment
  depth : d.depth = c.depth

namespace Context.SameFrame

variable {c d e : Context}

theorem refl (c : Context) : SameFrame c c := ⟨rfl, rfl, rfl⟩

theorem trans (h : SameFrame c d) (h' : SameFrame d e) : SameFrame c e :=
  ⟨h'.scopes.trans h.scopes, h'.environment.trans h.environment, h'.depth.trans h.depth⟩

theorem warn (c : Context) (message : String) (l : Option Location) :
    SameFrame c (c.warn message l) := by
  obtain ⟨warnings, hw⟩ := Context.exists_warn_eq c message l
  rw [hw]
  exact ⟨rfl, rfl, rfl⟩

theorem closeScope {s : ScopeId} (h : SameFrame (c.openScope s) d) : SameFrame c d.closeScope :=
  ⟨congrArg List.tail h.scopes, h.environment, h.depth⟩

theorem leave (h : SameFrame c.enter d) : SameFrame c d.leave :=
  ⟨h.scopes, h.environment, by rw [Context.leave, h.depth]; exact Nat.add_sub_cancel ..⟩

theorem leaveEnvironment {i : EnvId} (h : SameFrame { c with environment := i } d) :
    SameFrame c { d with environment := c.environment } :=
  ⟨h.scopes, rfl, h.depth⟩

end Context.SameFrame

/-- The contract of brackets: any way to end will do, if the frame is what it was. -/
def balance : Contract where
  inv _ := True
  change m m' := m.context.SameFrame m'.context
  error _ := True
  signal _ := True
  starves := True
  refl m := .refl m.context
  trans := .trans

theorem balance_closed : balance.Closed .any where
  fault _ _ _ _ := trivial
  stray _ _ := trivial
  currentScope _ _ := trivial
  constant _ _ := trivial
  method _ _ _ := ⟨trivial, fun _ _ => trivial⟩
  startAssigning _ _ := ⟨trivial, .refl _⟩
  endAssigning _ _ _ := ⟨trivial, .refl _⟩
  assignLocal _ _ _ := ⟨trivial, .refl _⟩
  define _ _ _ _ := ⟨trivial, .refl _⟩
  undef _ _ _ := ⟨trivial, .refl _⟩
  addAlias _ _ _ := ⟨trivial, .refl _⟩
  warn _ _ _ _ := ⟨trivial, .warn _ _ _⟩
  create _ _ _ := ⟨trivial, trivial, ⟨rfl, rfl, rfl⟩⟩
  openScope _ _ := trivial
  closeScope _ _ h := ⟨trivial, h.change.closeScope⟩
  enterEnvironment _ _ := trivial
  leaveEnvironment _ _ h := ⟨trivial, h.change.leaveEnvironment⟩
  steps n _ := Contract.steps_any (fun _ => trivial) (fun _ => trivial) n
  assigns n _ := Contract.assigns_any (fun _ => trivial) n
  runnable _ _ := trivial
  starves := trivial
  startEvaluating _ _ := ⟨trivial, .refl _⟩
  endEvaluating _ _ _ := ⟨trivial, .refl _⟩
  enterCall _ _ := trivial
  leaveCall _ h := ⟨trivial, h.change.leave⟩

/-! ## Nestings of brackets -/

namespace Eval

/-- Whatever the machine and however the computation ends, the frame is what it was. -/
def Balanced {α : Type} (x : Eval α) : Prop :=
  ∀ m : Machine, m.context.SameFrame (x m).2.context

/-- Computations put together from evaluations and brackets, which may fail or jump anywhere. -/
inductive Nested : {α : Type} → Eval α → Prop
  | evaluate (fuel : Nat) (n : Node) : Nested (evaluate fuel n)
  | assign (checkArity : Bool) (v : Value) (n : Node) : Nested (assign checkArity v n)
  | probe (fuel : Nat) (n : Node) : Nested (Treewalk.probe fuel n)
  | definition (fuel : Nat) (n : Node) : Nested (Treewalk.definition? fuel n)
  | run (fuel : Nat) (n : Node) : Nested (run fuel n)
  | resolveName (fuel : Nat) (n : Node) : Nested (Treewalk.resolveName fuel n)
  | yield {α : Type} (a : α) : Nested (pure a : Eval α)
  | fail {α : Type} (e : Error) : Nested (fail e : Eval α)
  | jump {α : Type} (s : Signal) : Nested (jump s : Eval α)
  | andThen {α β : Type} {x : Eval α} {f : α → Eval β} :
      Nested x → (∀ a, Nested (f a)) → Nested (x >>= f)
  | receive {α : Type} {x : Eval α} : Nested x → Nested (Eval.probe x)
  | withScope {α : Type} {x : Eval α} (s : ScopeId) : Nested x → Nested (withScope s x)
  | withEnvironment {α : Type} {x : Eval α} (e : EnvId) : Nested x → Nested (withEnvironment e x)
  | enterCall {α : Type} {x : Eval α} (l : Option Location) : Nested x → Nested (enterCall l x)

/-- Induction on how the computation is put together: every bracket undoes what it did, and
nothing else touches the frame. -/
theorem Nested.meets {α : Type} {x : Eval α} (h : Nested x) :
    balance.Meets (fun _ => True) x := by
  have hJ := balance_closed.congruence
  induction h with
  | evaluate fuel n => exact balance_closed.evaluate fuel trivial
  | assign checkArity v n =>
    exact (hJ.assign hJ.assigns ⟨rfl, trivial⟩ checkArity v).imp fun _ _ => trivial
  | probe fuel n => exact (hJ.probing fuel ⟨rfl, trivial⟩).imp fun _ _ => trivial
  | definition fuel n => exact (hJ.definition fuel ⟨rfl, trivial⟩).imp fun _ _ => trivial
  | run fuel n =>
    exact (hJ.run fuel ⟨rfl, trivial⟩ fun _ _ _ _ => Contract.fault trivial).imp
      fun _ _ => trivial
  | resolveName fuel n =>
    have hoperand := Likeness.Operands.refl (L := balance.likeness .any) (n := n)
      ⟨rfl, trivial⟩ ⟨rfl, trivial⟩
    exact (hJ.resolveName fuel hoperand).imp fun _ _ => trivial
  | yield a => exact Contract.yield trivial
  | fail e => exact fun m _ => ⟨.refl trivial, trivial⟩
  | jump s => exact Contract.jump trivial
  | andThen _ _ ihx ihf => exact Contract.andThen ihx fun a _ => ihf a
  | receive _ ih =>
    exact (Contract.probe (A := fun _ _ => True) (S := fun _ _ => True)
      (ih.imp fun a _ => ⟨a, trivial⟩) fun _ _ => trivial).imp fun _ _ => trivial
  | withScope s _ ih => exact balance_closed.meets_withScope trivial ih
  | withEnvironment e _ ih =>
    exact Contract.within ih (fun _ _ => trivial)
      fun _ _ _ h => ⟨trivial, h.change.leaveEnvironment⟩
  | enterCall l _ ih =>
    exact Contract.meets_enterCall ih trivial (fun _ _ _ => trivial)
      fun _ _ _ _ h ho => ⟨⟨trivial, h.change.leave⟩, ho⟩

theorem Nested.balanced {α : Type} {x : Eval α} (h : Nested x) : Balanced x :=
  fun m => (h.meets m trivial).1.change

end Eval

/-- **Evaluation is balanced.** Whatever is done with whatever node on whatever machine, and
whatever brackets stand around it, the scopes that are open, the environment and the depth of
calls are afterwards what they were, however it ended. -/
theorem evaluation_balanced :
    (∀ fuel n, (evaluate fuel n).Balanced) ∧
    (∀ checkArity v n, (Eval.assign checkArity v n).Balanced) ∧
    (∀ fuel n, (probe fuel n).Balanced) ∧
    (∀ fuel n, (definition? fuel n).Balanced) ∧
    (∀ fuel n, (run fuel n).Balanced) ∧
    (∀ fuel n, (resolveName fuel n).Balanced) ∧
    ∀ {α : Type} {x : Eval α}, x.Nested → x.Balanced :=
  ⟨fun fuel n => (Eval.Nested.evaluate fuel n).balanced,
    fun checkArity v n => (Eval.Nested.assign checkArity v n).balanced,
    fun fuel n => (Eval.Nested.probe fuel n).balanced,
    fun fuel n => (Eval.Nested.definition fuel n).balanced,
    fun fuel n => (Eval.Nested.run fuel n).balanced,
    fun fuel n => (Eval.Nested.resolveName fuel n).balanced,
    fun h => h.balanced⟩

/-- A body that fails inside a call, in another environment, with one more scope open. -/
def failingBody : Eval Value :=
  Eval.withScope 0 <| Eval.withEnvironment 7 <| Eval.enterCall (some .sample) do
    let _ ← evaluate 9 (.scope .sample .klass "A" (some (.nil .sample)))
    evaluate 9 (.newline .sample (.literal .sample "x"))

/-- The failure reaches the outside, and the frame is what it was before. -/
theorem failingBody_balanced :
    failingBody.Nested ∧
    (failingBody (.initial .default)).1 =
      .error (.misuse (.notEvaluable .literal)) ∧
    (Machine.initial .default).context.SameFrame (failingBody (.initial .default)).2.context := by
  have h : failingBody.Nested :=
    .withScope 0 <| .withEnvironment 7 <| .enterCall _ <|
      .andThen (.evaluate ..) fun _ => .evaluate ..
  exact ⟨h, rfl, evaluation_balanced.2.2.2.2.2.2 h _⟩

/-! ## Bodies with a scope and an environment of their own -/

/-- The machine with a scope open, in a new environment with these bindings. -/
def Machine.inScope (m : Machine) (s : ScopeId) (bindings : Table Value) : Machine :=
  { m with
    context := { m.context.openScope s with environment := m.heap.environments.size }
    heap := { m.heap with environments := m.heap.environments.add none bindings } }

/-- The machine with the frame of another one. -/
def Machine.backIn (m before : Machine) : Machine :=
  { m with context := { m.context with
      scopes := before.context.scopes
      environment := before.context.environment
      depth := before.context.depth } }

/-- A balanced body is back in its frame however it ends. -/
theorem Eval.withScope_withNewEnvironment {α : Type} {x : Eval α} (hx : x.Balanced) (s : ScopeId)
    (bindings : Table Value) (m : Machine) :
    withScope s (withNewEnvironment bindings x) m =
      ((x (m.inScope s bindings)).1, (x (m.inScope s bindings)).2.backIn m) := by
  have hframe := hx (m.inScope s bindings)
  have hscopes : (x (m.inScope s bindings)).2.context.scopes.tail = m.context.scopes :=
    congrArg List.tail hframe.scopes
  have hdepth : (x (m.inScope s bindings)).2.context.depth = m.context.depth := hframe.depth
  show (_, Machine.mk _ _ _) = (_, Machine.mk _ _ _)
  rw [← hscopes, ← hdepth]
  rfl

end Treewalk
