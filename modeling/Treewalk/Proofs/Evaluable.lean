import Treewalk.Proofs.Reach
import Treewalk.Proofs.Sample

/-!
# Trees that are no misuse

A tree can be put together that evaluation refuses: a bare name where a value is wanted, an
assignment without a value, a literal as a target. `Node.Evaluable` describes those that it does
not refuse, with `Node.Pattern` for what stands on the left of an assignment. Evaluating such a
tree never ends in a misuse, as long as the bodies within reach are of that sort too; and those
that it stores are again: `evaluable_safe`.
-/

set_option autoImplicit false

namespace Treewalk

/-- What a value can be taken apart over. The values that targets carry make no difference. -/
inductive Node.Pattern : Node → Prop
  | localAssign {t : Tag} {name : String} {own : Option Node} : Pattern (.localAssign t name own)
  | multiAssign {t : Tag} {targets : List Node} {rest own : Option Node} :
      (∀ n ∈ targets, Pattern n) → (∀ n ∈ rest, Pattern n) →
      Pattern (.multiAssign t targets rest own)

/-- Nodes that evaluation does not refuse. A name operand may be a bare name. -/
inductive Node.Evaluable : Node → Prop
  | nil {t : Tag} : Evaluable (.nil t)
  | bool {t : Tag} {value : Bool} : Evaluable (.bool t value)
  | int {t : Tag} {value : Double} {whole : value.isInteger = true} : Evaluable (.int t value whole)
  | float {t : Tag} {value : Double} : Evaluable (.float t value)
  | str {t : Tag} {text : String} : Evaluable (.str t text)
  | dstr {t : Tag} {parts : List Node} : (∀ n ∈ parts, Evaluable n) → Evaluable (.dstr t parts)
  | symbol {t : Tag} {name : String} : Evaluable (.symbol t name)
  | dsymbol {t : Tag} {parts : List Node} :
      (∀ n ∈ parts, Evaluable n) → Evaluable (.dsymbol t parts)
  | array {t : Tag} {elements : List Node} :
      (∀ n ∈ elements, Evaluable n) → Evaluable (.array t elements)
  | localVar {t : Tag} {name : String} : Evaluable (.localVar t name)
  | localAssign {t : Tag} {name : String} {value : Node} :
      Evaluable value → Evaluable (.localAssign t name (some value))
  | multiAssign {t : Tag} {targets : List Node} {rest : Option Node} {value : Node} :
      (∀ n ∈ targets, Pattern n) → (∀ n ∈ rest, Pattern n) → Evaluable value →
      Evaluable (.multiAssign t targets rest (some value))
  | block {t : Tag} {statements : List Node} :
      (∀ n ∈ statements, Evaluable n) → Evaluable (.block t statements)
  | newline {t : Tag} {statement : Node} : Evaluable statement → Evaluable (.newline t statement)
  | whileLoop {t : Tag} {condition body : Node} :
      Evaluable condition → Evaluable body → Evaluable (.whileLoop t condition body)
  | jump {t : Tag} {keyword : Keyword} {value : Option Node} :
      (∀ n ∈ value, Evaluable n) → Evaluable (.jump t keyword value)
  | defined {t : Tag} {expression : Node} : Evaluable expression → Evaluable (.defined t expression)
  | define {t : Tag} {name : String} {params : Params} {body : Option Node} :
      (∀ n ∈ body, Evaluable n) → Evaluable (.define t name params body)
  | call {t : Tag} {name : String} {operands : List Node} :
      (∀ n ∈ operands, Evaluable n) → Evaluable (.call t name operands)
  | scope {t : Tag} {sort : ScopeSort} {name : String} {body : Option Node} :
      (∀ n ∈ body, Evaluable n) → Evaluable (.scope t sort name body)
  | undef {t : Tag} {name : Node} :
      (name.kind ≠ .literal → Evaluable name) → Evaluable (.undef t name)
  | aliasName {t : Tag} {newName oldName : Node} :
      (newName.kind ≠ .literal → Evaluable newName) →
      (oldName.kind ≠ .literal → Evaluable oldName) → Evaluable (.aliasName t newName oldName)

/-- Errors of programs, which are no misuse. -/
def Error.IsRuntime (e : Error) : Prop :=
  e.errorClass.within .runtime = true ∧ e.errorClass.within .internal = false

theorem Error.isRuntime_fault (c : Fault) (l : Option Location) : IsRuntime (.fault c l) := by
  have hsort : ∀ s : FaultSort, s.errorClass.within .runtime = true ∧
      s.errorClass.within .internal = false := by
    intro s
    cases s <;> exact ⟨rfl, rfl⟩
  exact hsort c.sort

/-! ## The contract -/

/-- Evaluations that end in no misuse. -/
def safely : Storing := ⟨fun _ _ _ => True, Error.IsRuntime, fun _ => True, True⟩

/-- What takes part in them, over the scopes within reach. -/
def Roles.evaluable (S : ScopeId → Prop) : Roles :=
  ⟨Node.Evaluable, Node.Evaluable, Node.Pattern, fun _ => True, S, True, True⟩

section

variable {S : ScopeId → Prop}

abbrev safeLikeness (S : ScopeId → Prop) : Likeness :=
  (safely.contract S Node.Evaluable).likeness (.evaluable S)

theorem forall₂_evaluable {ns : List Node} (h : ∀ n ∈ ns, n.Evaluable) :
    List.Forall₂ (safeLikeness S).node ns ns :=
  List.forall₂_same.mpr fun n hn => ⟨rfl, h n hn⟩

theorem rel_evaluable {o : Option Node} (h : ∀ n ∈ o, n.Evaluable) :
    Option.Rel (safeLikeness S).node o o :=
  Likeness.optionRel_same fun n hn => ⟨rfl, h n hn⟩

theorem exists_eq_literal {n : Node} (h : n.kind = .literal) : ∃ t name, n = .literal t name := by
  cases n with
  | literal t name => exact ⟨t, name, rfl⟩
  | bool t value => cases value <;> exact absurd h (by simp [Node.kind])
  | jump t keyword value => cases keyword <;> exact absurd h (by simp [Node.kind, Keyword.kind])
  | scope t sort name body => cases sort <;> exact absurd h (by simp [Node.kind, ScopeSort.kind])
  | _ => exact absurd h (by simp [Node.kind])

/-- A bare name is spelled out and so not evaluated. -/
theorem operands_evaluable {n : Node} (h : n.kind ≠ .literal → n.Evaluable) :
    (safeLikeness S).Operands n n := by
  by_cases hk : n.kind = .literal
  · obtain ⟨t, name, rfl⟩ := exists_eq_literal hk
    exact .spelledOut rfl rfl
  · exact .refl ⟨rfl, trivial⟩ ⟨rfl, h hk⟩

theorem Node.Pattern.assigns {n : Node} (h : n.Pattern) : (safeLikeness S).Assigns n n := by
  cases h with
  | localAssign => exact .localAssign
  | multiAssign hts hrest =>
    exact .multiAssign ⟨rfl, trivial⟩ (List.forall₂_same.mpr fun n hn => ⟨rfl, hts n hn⟩)
      (Likeness.optionRel_same fun n hn => ⟨rfl, hrest n hn⟩)

/-- The parts of an evaluable node that evaluation looks at are evaluable, or patterns where they
are assigned to. -/
theorem Node.Evaluable.steps {n : Node} (h : n.Evaluable) : (safeLikeness S).Steps n n := by
  have htag : ∀ t, (safeLikeness S).tag t t := fun _ => ⟨rfl, trivial⟩
  cases h with
  | nil => exact .nil
  | bool => exact .bool
  | int => exact .int
  | float => exact .float
  | str => exact .str
  | dstr h => exact .dstr (forall₂_evaluable h)
  | symbol => exact .symbol
  | dsymbol h => exact .dsymbol (forall₂_evaluable h)
  | array h => exact .array (forall₂_evaluable h)
  | localVar => exact .localVar (htag _)
  | localAssign h => exact .localAssign ⟨rfl, h⟩
  | multiAssign hts hrest h =>
    exact .multiAssign (List.forall₂_same.mpr fun n hn => ⟨rfl, hts n hn⟩)
      (Likeness.optionRel_same fun n hn => ⟨rfl, hrest n hn⟩) ⟨rfl, h⟩
  | block h => exact .block (forall₂_evaluable h)
  | newline h => exact .newline ⟨rfl, h⟩
  | whileLoop hc hb => exact .whileLoop trivial ⟨rfl, hc⟩ ⟨rfl, hb⟩
  | jump h => exact .jump (fun _ => ⟨rfl, trivial⟩) (rel_evaluable h)
  | defined h => exact .defined ⟨rfl, h⟩
  | define h => exact .define (htag _) rfl (rel_evaluable (S := S) h)
  | call h => exact .call (htag _) (forall₂_evaluable h)
  | scope h => exact .scope (htag _) (rel_evaluable h)
  | undef h => exact .undef (htag _) (operands_evaluable h)
  | aliasName ha hb => exact .aliasName (htag _) (operands_evaluable ha) (operands_evaluable hb)

theorem safely_closed : (safely.contract S Node.Evaluable).Closed (.evaluable S) :=
  Storing.closed rfl rfl trivial (fun c l _ => Error.isRuntime_fault c l) (fun _ => trivial)
    (fun _ _ _ => trivial) trivial (fun _ h => h) (fun _ h => h.steps) (fun _ h => h.assigns)

end

/-! ## Safety -/

/-- The outcome is no misuse; without jumps, it is none either. -/
def Outcome.Safe {α : Type} (jumps : Prop) : Outcome α → Prop
  | .value _ | .outOfFuel => True
  | .jump _ => jumps
  | .error e => e.IsRuntime

theorem Outcome.Safe.received {o : Outcome Value} (h : o.Safe True) (root : Node) :
    (o.received root).Safe False := by
  cases o with
  | value => trivial
  | outOfFuel => trivial
  | error e => exact h
  | jump s =>
    obtain ⟨keyword, v, l⟩ := s
    cases keyword with
    | ret => trivial
    | brk | next => exact Error.isRuntime_fault _ _

/-- **Evaluable trees are no misuse.** Whatever the fuel, an evaluation that ends has a value, an
error of the program or, unless it is that of a whole program, a jump. The bodies that are stored
afterwards in scopes within reach, before or after, are evaluable again. -/
theorem evaluable_safe {n : Node} (hn : n.Evaluable) {m : Machine}
    (hm : m.StoresOnly Node.Evaluable) (fuel : Nat) :
    ((evaluate fuel n m).1.Safe True ∧ ∀ s b,
      m.Reachable s ∨ (evaluate fuel n m).2.Reachable s →
      (evaluate fuel n m).2.heap.scopes.Stores s b → b.Evaluable) ∧
    ((run fuel n m).1.Safe False ∧ ∀ s b,
      m.Reachable s ∨ (run fuel n m).2.Reachable s →
      (run fuel n m).2.heap.scopes.Stores s b → b.Evaluable) := by
  obtain ⟨hstep, ho⟩ := safely_closed.evaluate fuel hn m ⟨hm.within, trivial⟩
  have hsafe : (evaluate fuel n m).1.Safe True := by
    cases he : (evaluate fuel n m).1 with
    | value | jump | outOfFuel => trivial
    | error e => rw [he] at ho; exact ho
  have hstored : ∀ s b, m.Reachable s ∨ (evaluate fuel n m).2.Reachable s →
      (evaluate fuel n m).2.heap.scopes.Stores s b → b.Evaluable := by
    intro s b hs hb
    rcases hs with hs | hs
    · exact hstep.inv.1.stores (.inl hs) hb
    · exact hstep.inv.1.stores (hstep.inv.1.reachable hs) hb
  refine ⟨⟨hsafe, hstored⟩, ?_, ?_⟩
  · rw [run_eq]
    exact hsafe.received n
  · rw [run_eq]
    exact hstored

/-- Calls a method under a second name and takes apart what it returns. -/
def aliasedCall : Node :=
  .block .sample
    [.aliasName .sample (.literal .sample "g") (.literal .sample "f"),
      .multiAssign .sample
        [.localAssign .sample "x" none, .localAssign .sample "y" (some (.literal .sample "z"))]
        none (some (.call .sample "g" []))]

theorem aliasedCall_evaluable : aliasedCall.Evaluable := by
  refine .block fun n hn => ?_
  simp only [List.mem_cons, List.not_mem_nil, or_false] at hn
  rcases hn with rfl | rfl
  · exact .aliasName (fun h => absurd rfl h) fun h => absurd rfl h
  · refine .multiAssign (fun n hn => ?_) (fun n hn => absurd hn (by simp)) ?_
    · simp only [List.mem_cons, List.not_mem_nil, or_false] at hn
      rcases hn with rfl | rfl
      · exact .localAssign
      · exact .localAssign
    · exact .call fun n hn => absurd hn (by simp)

/-- The bare names and the target without a value do no harm where they stand. -/
theorem aliasedCall_safe :
    let m := Machine.oneMethod .default (.jump .sample .ret (some (.str .sample "s")))
    aliasedCall.Evaluable ∧ m.StoresOnly Node.Evaluable ∧
      (evaluate 9 aliasedCall m).1.isFinal = true ∧
      (evaluate 9 aliasedCall m).1.Safe True ∧ (run 9 aliasedCall m).1.Safe False := by
  intro m
  have hm : m.StoresOnly Node.Evaluable :=
    Machine.storesOnly_oneMethod (.jump fun n hn => by cases hn; exact .str)
  obtain ⟨⟨he, -⟩, hr, -⟩ := evaluable_safe aliasedCall_evaluable hm 9
  exact ⟨aliasedCall_evaluable, hm, by decide +kernel, he, hr⟩

end Treewalk
