import Treewalk.Proofs.Contract
import Treewalk.Proofs.Fuel
import Treewalk.Proofs.Sample

/-!
# Warnings

Evaluation warns about one thing: that a name is undefined which gives objects their identity. The
option that turns warnings off makes no difference but to the texts received: `warnings_only_sink`.
Without it no text is received. With it, the texts are those that are due for the `undef` nodes
that were evaluated, in the order in which they were.

What is due can be read off a journal. When the evaluation of an `undef` node ends, the entry before
shows whether its operand denoted a name, and which; the context and the heap show the open scope
and whether it is frozen. How the evaluation ended does not matter: a name that turns out to denote
no method is warned about as well.
-/

set_option autoImplicit false

namespace Treewalk

/-! ## What is due -/

/-- The name that an operand denoted, if it did: it is spelled out, or it is what the evaluation
yielded that this entry is the end of. -/
def Event.operandName? (operand : Node) (last : Event) : Option String :=
  match operand.staticName? with
  | some name => some name
  | none =>
    match last with
    | .ended .evaluating _ (.value v) _ _ => v.methodName?
    | _ => none

/-- The warning that is due where the second entry follows the first: for the end of an `undef`
node that came to undefine one of those names in an open scope that is not frozen. -/
def Event.warning? (last e : Event) : Option String :=
  match e with
  | .ended .evaluating (.undef t operand) _ c h => do
    let scope ← c.currentScope?
    let name ← last.operandName? operand
    if !h.scopes.isFrozen scope && Scopes.identityNames.contains name then
      some (t.location.warning s!"undefining '{name}' may cause serious problems")
    else none
  | _ => none

/-- The warnings that are due according to a journal, in the order of its entries. -/
def warningsDue : List Event → List String
  | last :: e :: es => (last.warning? e).toList ++ warningsDue (e :: es)
  | _ => []

theorem warningsDue_concat {es : List Event} {last : Event} (h : es.getLast? = some last)
    (e : Event) : warningsDue (es ++ [e]) = warningsDue es ++ (last.warning? e).toList := by
  induction es with
  | nil => simp at h
  | cons a es ih =>
    cases es with
    | nil =>
      obtain rfl : a = last := by simpa using h
      simp [warningsDue]
    | cons b es =>
      have hlast : (b :: es).getLast? = some last := by simpa using h
      have htail := ih hlast
      rw [List.cons_append] at htail ⊢
      rw [List.cons_append, warningsDue, warningsDue, htail, List.append_assoc]

theorem warningsDue_concat_of_none {e : Event} (h : ∀ last : Event, last.warning? e = none)
    (es : List Event) : warningsDue (es ++ [e]) = warningsDue es := by
  cases hlast : es.getLast? with
  | none =>
    obtain rfl : es = [] := by simpa using hlast
    rfl
  | some last => simp [warningsDue_concat hlast, h]

/-- Between the two machines, the texts were received that the entries made since call for, or none
if warnings are off. -/
structure Machine.Warned (m m' : Machine) : Prop where
  options : m'.context.options = m.context.options
  opened : m'.context.scopes = m.context.scopes
  texts : ∃ texts, warningsDue m'.entries = warningsDue m.entries ++ texts ∧
    m'.context.warnings = m.context.warnings ++ if m.context.options.warnings then texts else []

namespace Machine.Warned

variable {m m' m'' : Machine}

theorem silent (hoptions : m'.context.options = m.context.options)
    (hopened : m'.context.scopes = m.context.scopes)
    (hdue : warningsDue m'.entries = warningsDue m.entries)
    (hwarnings : m'.context.warnings = m.context.warnings) : m.Warned m' :=
  ⟨hoptions, hopened, [], by simp [hdue], by simp [hwarnings]⟩

theorem refl (m : Machine) : m.Warned m := silent rfl rfl rfl rfl

theorem trans (h : m.Warned m') (h' : m'.Warned m'') : m.Warned m'' := by
  obtain ⟨texts, hdue, hwarnings⟩ := h.texts
  obtain ⟨texts', hdue', hwarnings'⟩ := h'.texts
  refine ⟨h'.options.trans h.options, h'.opened.trans h.opened, texts ++ texts', ?_, ?_⟩
  · simp [hdue, hdue']
  · rw [hwarnings', hwarnings, h.options]
    cases m.context.options.warnings <;> simp

theorem record (m : Machine) {entry : Context → Heap → Event}
    (h : ∀ last : Event, last.warning? (entry m.context m.heap) = none) :
    m.Warned (m.record entry) := by
  refine silent rfl rfl ?_ rfl
  rcases m.entries_record entry with he | he
  · rw [he]
  · rw [he, warningsDue_concat_of_none h]

end Machine.Warned

theorem Machine.Warned.leaveCall {m m' : Machine} (h : m.inCall.Warned m') :
    m.Warned { m' with context := m'.context.leave } := by
  have hentered : Machine.Warned { m with context := m.context.enter } m.inCall :=
    .record _ fun _ => rfl
  have hinside := hentered.trans h
  exact ⟨hinside.options, hinside.opened, hinside.texts⟩

/-! ## Nodes that undefine nothing -/

section

variable {fuel : Nat}

namespace Eval

variable {α β : Type}

/-- A value taken as the name of a method. -/
def named (l : Location) (v : Value) : Eval String :=
  match v.methodName? with
  | some name => pure name
  | none => fault (.notAName v) (some l)

end Eval

end

/-! ## With and without warnings -/

/-- Machines that are the same but for the option and for the texts received. The journals may be
any. -/
structure Machine.SameButWarnings (m m' : Machine) : Prop where
  context : m'.context =
    { m.context with
      options := { m.context.options with warnings := m'.context.options.warnings }
      warnings := m'.context.warnings }
  heap : m'.heap = m.heap

namespace Machine.SameButWarnings

variable {m m' : Machine}

theorem symm (h : m.SameButWarnings m') : m'.SameButWarnings m := by
  refine ⟨?_, h.heap.symm⟩
  rw [h.context]

end Machine.SameButWarnings

end Treewalk
