import Treewalk.Proofs.Simulation

/-!
# Simulations the other way round

What relates two runs relates them with their sides exchanged as well. That matters for simulations
that are lax, which promise nothing where the left side ran out of fuel: two trees end alike, each
of them where the other one ends, if a lax simulation holds of them in both directions. The
obligations on the relation of machines need not be met twice for that: `Stable.converse`.
-/

set_option autoImplicit false

namespace Treewalk

/-- The same likeness, with the sides exchanged. -/
def Likeness.converse (L : Likeness) : Likeness where
  node n n' := L.node n' n
  body n n' := L.body n' n
  target n n' := L.target n' n
  tag t t' := L.tag t' t
  scope s s' := L.scope s' s
  signal s s' := L.signal s' s
  misuse := L.misuse
  loops := L.loops
  stray := L.stray
  received h := ⟨(L.received h).1.symm, (L.received h).2.symm⟩

theorem optionRel_converse {α : Type} {R : α → α → Prop} {o o' : Option α}
    (h : Option.Rel R o o') : Option.Rel (fun a b => R b a) o' o := by
  cases h with
  | none => exact .none
  | some h => exact .some h

theorem Outcome.Rel.converse {α : Type} {S : Signal → Signal → Prop} {E : Error → Error → Prop}
    {o o' : Outcome α} (h : o.Rel Eq S E o') :
    o'.Rel Eq (fun s t => S t s) (fun e f => E f e) o := by
  cases h with
  | value h => exact .value h.symm
  | jump h => exact .jump h
  | error h => exact .error h
  | outOfFuel => exact .outOfFuel

namespace Likeness

variable {L : Likeness}

theorem handled_converse {activity : Activity} {n n' : Node}
    (h : L.converse.handled activity n n') : L.handled activity n' n := by
  cases activity with
  | evaluating | assigning => exact h

theorem Methods.converse {a b : Option Method} (h : Option.Rel L.Methods a b) :
    Option.Rel L.converse.Methods b a := by
  cases h with
  | none => exact .none
  | some h => exact .some ⟨h.params.symm, h.owner, optionRel_converse h.body⟩

theorem Operands.converse {n n' : Node} (h : L.Operands n n') : L.converse.Operands n' n := by
  cases h with
  | spelledOut h h' => exact .spelledOut h' h
  | computed h h' hn ht => exact .computed h' h hn ht

theorem Assigns.converse {n n' : Node} (h : L.Assigns n n') : L.converse.Assigns n' n := by
  cases h with
  | localAssign => exact .localAssign
  | multiAssign ht hts hrest => exact .multiAssign ht hts.flip (optionRel_converse hrest)
  | other hn hn' hk hm => exact .other hn' hn hk.symm (hk ▸ hm)

theorem Steps.converse {n n' : Node} (h : L.Steps n n') : L.converse.Steps n' n := by
  cases h with
  | nil => exact .nil
  | bool => exact .bool
  | int => exact .int
  | float => exact .float
  | str => exact .str
  | dstr h => exact .dstr h.flip
  | symbol => exact .symbol
  | dsymbol h => exact .dsymbol h.flip
  | literal h => exact .literal h
  | array h => exact .array h.flip
  | localVar ht => exact .localVar ht
  | localAssign h => exact .localAssign h
  | localAssignOnly h => exact .localAssignOnly h
  | multiAssign hts hrest h => exact .multiAssign hts.flip (optionRel_converse hrest) h
  | multiAssignOnly h => exact .multiAssignOnly h
  | block h => exact .block h.flip
  | newline h => exact .newline h
  | whileLoop hl hc hb => exact .whileLoop hl hc hb
  | jump hs h => exact .jump hs (optionRel_converse h)
  | defined h => exact .defined h
  | args h => exact .args h
  | define ht hp hb => exact .define ht hp.symm (optionRel_converse hb)
  | call ht h => exact .call ht h.flip
  | scope ht hb => exact .scope ht (optionRel_converse hb)
  | undef ht h => exact .undef ht h.converse
  | aliasName ht ha hb => exact .aliasName ht ha.converse hb.converse

end Likeness

namespace Simulation

variable {K : Simulation} {L : Likeness} {m m' : Machine}

/-- The same relations, with the sides exchanged. Laxness stays on the left. -/
def converse (K : Simulation) : Simulation where
  state m m' := K.state m' m
  signal s s' := K.signal s' s
  error e e' := K.error e' e
  lax := K.lax

theorem Changed.converse {change change' : Except Fault Scopes}
    (h : K.Changed m m' change change') : K.converse.Changed m' m change' change := by
  cases h with
  | ok hs => exact .ok hs
  | error c => exact .error c

/-- **What is stable is stable the other way round.** -/
theorem Stable.converse (hK : Stable K L) : Stable K.converse L.converse where
  signal := by
    show (fun s s' => L.signal s' s) = fun s s' => K.signal s' s
    rw [hK.signal]
  stray := hK.stray
  misuse h := hK.misuse h
  fault c _ _ ht := hK.fault c ht
  readLocal name hm := (hK.readLocal name hm).symm
  currentScope hm := optionRel_converse (hK.currentScope hm)
  constant name hm := optionRel_converse (hK.constant name hm)
  find name hm hs := Likeness.Methods.converse (hK.find name hm hs)
  called hm hs := (hK.called hm hs).symm
  frozen hm hs := (hK.frozen hm hs).symm
  limit hm := (hK.limit hm).symm
  started hn hm := hK.started (Likeness.handled_converse hn) hm
  ended hn ho hm := hK.ended (Likeness.handled_converse hn) ho.converse hm
  entered hm := hK.entered hm
  assignLocal name v hm := hK.assignLocal name v hm
  define name params hm hs hb :=
    (hK.define name params hm hs (optionRel_converse hb)).converse
  undef name hm hs := (hK.undef name hm hs).converse
  addAlias newName oldName hm hs := (hK.addAlias newName oldName hm hs).converse
  warn message ht hm := hK.warn message ht hm
  create sort name hm := hK.create sort name hm
  openScope hs hm := hK.openScope hs hm
  closeScope hm := hK.closeScope hm
  enter hm := hK.enter hm
  leave hm := hK.leave hm
  enterEnvironment bindings hm := hK.enterEnvironment bindings hm
  leaveEnvironment hm hn := hK.leaveEnvironment hm hn

end Simulation

end Treewalk
