import Treewalk.Proofs.Fuel
import Treewalk.Proofs.Replay

/-!
# Openings

A name that was registered stays registered to the same class or module, and what that is called
never changes: `Machine.Retains`. Each class or module node opens its constant as soon as its
evaluation starts, so the journal shows which names were opened, as classes or as modules. The first
opening of a name decides: what the name is registered to is called as that opening says, and a name
that was never opened is not registered, unless it was to begin with. `accounting_evaluate` says
that evaluation keeps this up.

It does not hold between the entry for a class or module node and the creation of its constant, and
creating a constant without such an entry does not keep it. So these nodes are a case of their own
in the induction; the others do what `Contract.Undoing` covers.
-/

set_option autoImplicit false

namespace Treewalk

/-! ## Registered names -/

/-- What the class or module of a name is called. -/
def Machine.constant? (m : Machine) (name : String) : Option ScopeName :=
  (m.context.constants.get? name).map m.heap.scopes.called

/-- Names stay registered to what they are registered to, and no class or module goes away or is
called differently. -/
structure Machine.Retains (m m' : Machine) : Prop where
  constants : ∀ {name : String} {s : ScopeId}, m.context.constants.get? name = some s →
    m'.context.constants.get? name = some s
  size : m.heap.scopes.size ≤ m'.heap.scopes.size
  called : ∀ s < m.heap.scopes.size, m'.heap.scopes.called s = m.heap.scopes.called s

/-- Nothing differs that constants have to do with, nor the journal. -/
structure Machine.SameConstants (m m' : Machine) : Prop where
  constants : m'.context.constants = m.context.constants
  size : m'.heap.scopes.size = m.heap.scopes.size
  called : m'.heap.scopes.called = m.heap.scopes.called
  journal : m'.journal = m.journal

namespace Machine

variable {m m' m'' : Machine} {name : String} {sort : ScopeSort}

theorem Retains.refl (m : Machine) : m.Retains m := ⟨id, Nat.le_refl _, fun _ _ => rfl⟩

theorem Retains.trans (h : m.Retains m') (h' : m'.Retains m'') : m.Retains m'' where
  constants hs := h'.constants (h.constants hs)
  size := Nat.le_trans h.size h'.size
  called s hs := (h'.called s (Nat.lt_of_lt_of_le hs h.size)).trans (h.called s hs)

theorem Retains.of_eq (hconstants : m'.context.constants = m.context.constants)
    (hscopes : m'.heap.scopes = m.heap.scopes) : m.Retains m' where
  constants hs := hconstants ▸ hs
  size := Nat.le_of_eq (by rw [hscopes])
  called _ _ := by rw [hscopes]

theorem SameConstants.retains (h : m.SameConstants m') : m.Retains m' where
  constants hs := h.constants ▸ hs
  size := Nat.le_of_eq h.size.symm
  called s _ := congrFun h.called s

theorem SameConstants.constant? (h : m.SameConstants m') (name : String) :
    m'.constant? name = m.constant? name := by
  rw [Machine.constant?, Machine.constant?, h.constants, h.called]

theorem SameConstants.groundsConstants (h : m.SameConstants m') (hm : m.GroundsConstants) :
    m'.GroundsConstants := by
  intro name s hs
  rw [h.constants] at hs
  rw [h.size]
  exact hm name s hs

theorem SameConstants.inContext {c : Context} (h : c.constants = m.context.constants) :
    m.SameConstants { m with context := c } := ⟨h, rfl, rfl, rfl⟩

theorem sameConstants_setSlot (m : Machine) (s : ScopeId) (name : String) (slot : Slot) :
    m.SameConstants (m.setSlot s name slot) :=
  ⟨rfl, Scopes.size_setSlot, funext fun _ => Scopes.called_setSlot, rfl⟩

theorem retains_create (h : m.context.constants.get? name = none) (sort : ScopeSort) :
    m.Retains (m.create sort name) where
  constants {other s} hs := by
    have hne : other ≠ name := by
      rintro rfl
      rw [h] at hs
      exact absurd hs nofun
    rw [create, Table.get?_set, if_neg hne]
    exact hs
  size := by
    rw [create, Scopes.size_create]
    exact Nat.le_succ _
  called s hs := by
    rw [create, Scopes.called_create, if_neg (Nat.ne_of_lt hs)]

end Machine

/-! ## Moments and openings -/

/-- The context and the heap of the moment that an entry records. -/
def Event.moment : Event → Machine
  | .started _ _ context heap | .ended _ _ _ context heap | .entered context heap =>
    ⟨context, heap, none⟩

/-- The constant that a class or module node opens. -/
def Node.opening? : Node → Option ScopeName
  | .scope _ sort name _ => some ⟨sort, name⟩
  | _ => none

theorem Node.opening?_of_not_isScope {n : Node} (h : n.isScope = false) : n.opening? = none := by
  cases n with
  | scope => exact absurd h Bool.noConfusion
  | _ => rfl

/-- The constant that is opened where a class or module node starts. -/
def Event.opening? : Event → Option ScopeName
  | .started .evaluating n _ _ => n.opening?
  | _ => none

/-- What the entries show to have been opened, the oldest first. -/
def openingsOf (entries : List Event) : List ScopeName := entries.filterMap Event.opening?

/-- The first opening of a name. -/
def firstOpening? (openings : List ScopeName) (name : String) : Option ScopeName :=
  openings.find? (·.name = name)

theorem firstOpening?_append (openings more : List ScopeName) (name : String) :
    firstOpening? (openings ++ more) name =
      (firstOpening? openings name).or (firstOpening? more name) :=
  List.find?_append

theorem firstOpening?_singleton (c : ScopeName) (name : String) :
    firstOpening? [c] name = if c.name = name then some c else none := by
  rw [firstOpening?, List.find?_singleton]
  simp only [decide_eq_true_eq]

theorem name_of_firstOpening? {openings : List ScopeName} {name : String} {c : ScopeName}
    (h : firstOpening? openings name = some c) : c.name = name := by
  have hname : decide (c.name = name) = true :=
    List.find?_some (p := fun x : ScopeName => decide (x.name = name)) h
  exact of_decide_eq_true hname

theorem pairwise_concat_iff {α : Type} {R : α → α → Prop} {l : List α} {a : α} :
    (l ++ [a]).Pairwise R ↔ l.Pairwise R ∧ ∀ b ∈ l, R b a := by
  rw [List.pairwise_append]
  constructor
  · rintro ⟨hl, -, h⟩
    exact ⟨hl, fun b hb => h b hb a (List.mem_singleton_self a)⟩
  · rintro ⟨hl, h⟩
    refine ⟨hl, List.pairwise_singleton .., fun b hb c hc => ?_⟩
    obtain rfl := List.mem_singleton.mp hc
    exact h b hb

/-- Since the first machine, the journal has recorded moments that retain one another, and this
machine retains them all. -/
structure Machine.Remembers (first m : Machine) : Prop where
  kept : m.journal.isSome = true
  grounds : m.GroundsConstants
  inOrder : (first :: m.entries.map Event.moment ++ [m]).Pairwise Machine.Retains

/-- What is registered was registered to begin with, or it is called as its first opening says. -/
structure Machine.Accounts (first m : Machine) : Prop extends first.Remembers m where
  constant : ∀ name, m.constant? name =
    (first.constant? name).or (firstOpening? (openingsOf m.entries) name)

namespace Machine

variable {first m m' : Machine}

theorem Remembers.retained (h : first.Remembers m) :
    ∀ k ∈ first :: m.entries.map Event.moment, k.Retains m :=
  (pairwise_concat_iff.mp h.inOrder).2

theorem Remembers.to (h : first.Remembers m) (hretains : m.Retains m')
    (hgrounds : m'.GroundsConstants) (hjournal : m'.journal = m.journal) :
    first.Remembers m' := by
  have hentries : m'.entries = m.entries := by rw [entries, entries, hjournal]
  refine ⟨hjournal ▸ h.kept, hgrounds, ?_⟩
  rw [hentries]
  exact pairwise_concat_iff.mpr ⟨(pairwise_concat_iff.mp h.inOrder).1,
    fun k hk => (h.retained k hk).trans hretains⟩

theorem Remembers.record (h : first.Remembers m) {entry : Context → Heap → Event}
    (hentry : (entry m.context m.heap).moment = ⟨m.context, m.heap, none⟩) :
    first.Remembers (m.record entry) := by
  have hmoments : first :: (m.record entry).entries.map Event.moment =
      (first :: m.entries.map Event.moment) ++ [⟨m.context, m.heap, none⟩] := by
    rw [entries_record_of_kept h.kept, List.map_append, List.map_singleton, hentry]
    rfl
  have hbefore := (pairwise_concat_iff.mp h.inOrder).1
  refine ⟨kept_record h.kept entry, h.grounds, ?_⟩
  rw [hmoments]
  -- The moment that is recorded and the machine afterwards are both the machine before.
  refine pairwise_concat_iff.mpr ⟨pairwise_concat_iff.mpr ⟨hbefore, fun k hk => ?_⟩,
    fun k hk => ?_⟩
  · exact (h.retained k hk).trans (.of_eq rfl rfl)
  · rcases List.mem_append.mp hk with hk | hk
    · exact (h.retained k hk).trans (.of_eq rfl rfl)
    · obtain rfl := List.mem_singleton.mp hk
      exact .of_eq rfl rfl

theorem openingsOf_record (h : m.journal.isSome = true) (entry : Context → Heap → Event) :
    openingsOf (m.record entry).entries =
      openingsOf m.entries ++ (entry m.context m.heap).opening?.toList := by
  rw [openingsOf, entries_record_of_kept h, List.filterMap_append]
  cases hopening : (entry m.context m.heap).opening? with
  | none => simp [openingsOf, hopening]
  | some c => simp [openingsOf, hopening]

/-- A journal that starts now has nothing to account for. -/
theorem accounts_watched (hm : m.GroundsConstants) : m.Accounts m.watched where
  kept := rfl
  grounds := hm
  inOrder := by
    refine List.pairwise_pair.mpr ?_
    exact .of_eq rfl rfl
  constant name := (Option.or_none).symm

end Machine

/-! ## Opening a constant -/

/-- Opening the constant of a name gives a class or module, and leaves this machine. -/
inductive Machine.Opens (m : Machine) (sort : ScopeSort) (name : String) :
    ScopeId → Machine → Prop
  | again {s : ScopeId} : m.context.constants.get? name = some s →
      (m.heap.scopes.called s).sort = sort → Opens m sort name s m
  | anew : m.context.constants.get? name = none →
      Opens m sort name m.heap.scopes.size (m.create sort name)

/-- The name is registered to a class where a module is asked for, or the other way round. -/
def Machine.Conflicts (m : Machine) (sort : ScopeSort) (name : String) : Prop :=
  ∃ s, m.context.constants.get? name = some s ∧ (m.heap.scopes.called s).sort ≠ sort

section

variable {m k : Machine} {sort : ScopeSort} {name : String} {l : Option Location} {s : ScopeId}

theorem openConstant_of_conflicts (h : m.Conflicts sort name) :
    Eval.openConstant sort name l m = (.error (.fault (.wrongSort name sort) l), m) := by
  obtain ⟨s, hs, hsort⟩ := h
  rw [Eval.openConstant_of_some hs, if_neg hsort]

theorem openConstant_of_opens (h : m.Opens sort name s k) :
    Eval.openConstant sort name l m = (.value s, k) := by
  cases h with
  | again hs hsort => rw [Eval.openConstant_of_some hs, if_pos hsort]
  | anew hs => rw [Eval.openConstant_of_none hs]

theorem conflicts_or_opens (m : Machine) (sort : ScopeSort) (name : String) :
    m.Conflicts sort name ∨ ∃ s k, m.Opens sort name s k := by
  cases hs : m.context.constants.get? name with
  | none => exact .inr ⟨_, _, .anew hs⟩
  | some s =>
    by_cases hsort : (m.heap.scopes.called s).sort = sort
    · exact .inr ⟨s, m, .again hs hsort⟩
    · exact .inl ⟨s, hs, hsort⟩

/-- What was opened is registered. -/
theorem Machine.Opens.registered (h : m.Opens sort name s k) :
    k.context.constants.get? name = some s := by
  cases h with
  | again hs _ => exact hs
  | anew _ => rw [Machine.create, Table.get?_set, if_pos rfl]

theorem retains_openConstant (m : Machine) (sort : ScopeSort) (name : String)
    (l : Option Location) : m.Retains (Eval.openConstant sort name l m).2 := by
  rcases conflicts_or_opens m sort name with h | ⟨s, k, h⟩
  · rw [openConstant_of_conflicts h]
    exact .refl m
  · rw [openConstant_of_opens h]
    cases h with
    | again _ _ => exact .refl m
    | anew hs => exact Machine.retains_create hs sort

theorem Machine.Opens.groundsConstants (h : m.Opens sort name s k) (hm : m.GroundsConstants) :
    k.GroundsConstants := by
  cases h with
  | again _ _ => exact hm
  | anew _ => exact hm.create

theorem grounds_openConstant (hm : m.GroundsConstants) :
    (Eval.openConstant sort name l m).2.GroundsConstants := by
  rcases conflicts_or_opens m sort name with h | ⟨s, k, h⟩
  · rw [openConstant_of_conflicts h]
    exact hm
  · rw [openConstant_of_opens h]
    exact h.groundsConstants hm

theorem journal_openConstant (m : Machine) (sort : ScopeSort) (name : String)
    (l : Option Location) : (Eval.openConstant sort name l m).2.journal = m.journal := by
  rcases conflicts_or_opens m sort name with h | ⟨s, k, h⟩
  · rw [openConstant_of_conflicts h]
  · rw [openConstant_of_opens h]
    cases h with
    | again _ _ | anew _ => rfl

theorem or_opening_of_registered (hs : m.context.constants.get? name = some s)
    (sort : ScopeSort) (other : String) :
    (m.constant? other).or (firstOpening? [⟨sort, name⟩] other) = m.constant? other := by
  rw [firstOpening?_singleton]
  by_cases he : name = other
  · subst he
    rw [Machine.constant?, hs]
    rfl
  · rw [if_neg he, Option.or_none]

theorem constant?_create (hm : m.GroundsConstants) (hs : m.context.constants.get? name = none)
    (sort : ScopeSort) (other : String) : (m.create sort name).constant? other =
      (m.constant? other).or (firstOpening? [⟨sort, name⟩] other) := by
  rw [firstOpening?_singleton, Machine.constant?, Machine.constant?, Machine.create, Table.get?_set]
  by_cases he : name = other
  · subst he
    rw [if_pos rfl, if_pos rfl, hs, Option.map_some, Scopes.called_create, if_pos rfl]
    rfl
  · rw [if_neg fun h => he h.symm, if_neg he, Option.or_none]
    cases hother : m.context.constants.get? other with
    | none => rfl
    | some s =>
      rw [Option.map_some, Option.map_some, Scopes.called_create,
        if_neg (Nat.ne_of_lt (hm other s hother))]

/-- Opening the constant of a name settles what it is called, if that was not settled before; and
it fails only where it was. -/
theorem constant?_openConstant (hm : m.GroundsConstants) (other : String) :
    (Eval.openConstant sort name l m).2.constant? other =
      (m.constant? other).or (firstOpening? [⟨sort, name⟩] other) := by
  rcases conflicts_or_opens m sort name with h | ⟨s, k, h⟩
  · rw [openConstant_of_conflicts h]
    obtain ⟨s, hs, -⟩ := h
    exact (or_opening_of_registered hs sort other).symm
  · rw [openConstant_of_opens h]
    cases h with
    | again hs _ => exact (or_opening_of_registered hs sort other).symm
    | anew hs => exact constant?_create hm hs sort other

end

/-! ## The contract -/

/-- The contract of constants. A computation may end in any way. -/
def accounting (first : Machine) : Contract where
  inv := first.Accounts
  change := Machine.Retains
  error _ := True
  signal _ := True
  starves := True
  refl := .refl
  trans := .trans

section

variable {first : Machine} {m m' : Machine}

theorem accounting_quiet (hm : first.Accounts m) (h : m.SameConstants m') :
    (accounting first).Step m m' := by
  have hremembers := hm.toRemembers.to h.retains (h.groundsConstants hm.grounds) h.journal
  have hentries : m'.entries = m.entries := by rw [Machine.entries, Machine.entries, h.journal]
  refine ⟨⟨hremembers, fun name => ?_⟩, h.retains⟩
  rw [h.constant? name, hentries]
  exact hm.constant name

theorem accounting_record (hm : first.Accounts m) {entry : Context → Heap → Event}
    (hentry : (entry m.context m.heap).moment = ⟨m.context, m.heap, none⟩)
    (hopening : (entry m.context m.heap).opening? = none) :
    (accounting first).Step m (m.record entry) := by
  refine ⟨⟨hm.toRemembers.record hentry, fun name => ?_⟩, .of_eq rfl rfl⟩
  have hopenings : openingsOf (m.record entry).entries = openingsOf m.entries := by
    rw [Machine.openingsOf_record hm.kept, hopening]
    exact List.append_nil _
  rw [hopenings]
  exact hm.constant name

/-- What is done between two changes that have nothing to do with constants. -/
theorem accounting_between {k k' : Machine} (hm : first.Accounts m) (hin : m.SameConstants k)
    (h : (accounting first).Step k k') (hout : k'.SameConstants m') :
    (accounting first).Step m m' :=
  ((accounting_quiet hm hin).trans h).trans (accounting_quiet h.inv hout)

/-- Nothing that evaluation does to a machine has to do with constants, except to create one. -/
theorem accounting_undoing (first : Machine) : (accounting first).Undoing .any where
  fault _ _ _ _ := trivial
  startAssigning _ hm := accounting_record hm rfl rfl
  endAssigning _ _ hm := accounting_record hm rfl rfl
  assignLocal _ _ hm := accounting_quiet hm ⟨rfl, rfl, rfl, rfl⟩
  stray _ _ := trivial
  currentScope _ _ := trivial
  method _ _ _ := ⟨trivial, fun _ _ => trivial⟩
  define hm _ _ h := by
    cases Scopes.eq_of_define h
    exact accounting_quiet hm (Machine.sameConstants_setSlot ..)
  addAlias hm _ h := by
    obtain ⟨method, -, rfl⟩ := Scopes.eq_of_addAlias h
    exact accounting_quiet hm (Machine.sameConstants_setSlot ..)
  openScope hm _ := by
    refine Contract.Step.inv (accounting_quiet hm ?_)
    exact .inContext rfl
  closeScope hm _ h := by
    refine accounting_between hm ?_ h (.inContext rfl)
    exact .inContext rfl
  enterEnvironment _ hm := by
    refine Contract.Step.inv (accounting_quiet hm ?_)
    exact ⟨rfl, rfl, rfl, rfl⟩
  leaveEnvironment _ hm h := by
    refine accounting_between hm ?_ h (.inContext rfl)
    exact ⟨rfl, rfl, rfl, rfl⟩
  undef hm _ h := by
    cases Scopes.eq_of_undef h
    exact accounting_quiet hm (Machine.sameConstants_setSlot ..)
  warn {m _} name l hm _ := by
    obtain ⟨warnings, hw⟩ := m.context.exists_warn_eq
      s!"undefining '{name}' may cause serious problems" l
    exact accounting_quiet hm (.inContext (by rw [hw]))

theorem accounting_enterCall {A : Value → Prop} {x : Eval Value} (l : Option Location)
    (hx : (accounting first).Meets A x) : (accounting first).Meets A (Eval.enterCall l x) := by
  have hentered : ∀ m : Machine, first.Accounts m → (accounting first).Step m m.inCall := by
    intro m hm
    have hin := accounting_quiet hm (.inContext (c := m.context.enter) rfl)
    exact hin.trans (accounting_record hin.inv rfl rfl)
  refine Contract.meets_enterCall hx trivial (fun m hm _ => (hentered m hm).inv) ?_
  intro m m' o hm h ho
  have hout := accounting_quiet h.inv (.inContext (c := m'.context.leave) rfl)
  exact ⟨((hentered m hm).trans h).trans hout, ho⟩

/-! ## Evaluation -/

/-- One step of any node but a class or module. -/
theorem accounting_step {fuel : Nat}
    (hev : ∀ n : Node, (accounting first).Meets (fun _ => True) (evaluate fuel n)) {n : Node}
    (h : n.isScope = false) :
    (accounting first).Meets (fun _ => True) (Eval.step fuel (evaluate fuel) n) :=
  (accounting_undoing first).toActive.meets_step (fun _ => trivial) (fun _ => trivial) trivial hev
    accounting_enterCall fun hparts hinvoke hscopes hsteps =>
      (accounting_undoing first).undefining.step hparts hinvoke hscopes h hsteps

end

section

variable {first : Machine}

/-- A class or module node opens its constant right after it started: only then the entry is
accounted for. -/
theorem accounts_openConstant {m : Machine} (hm : first.Accounts m) (t : Tag) (sort : ScopeSort)
    (name : String) (b : Option Node) (l : Option Location) :
    (accounting first).Step m (Eval.openConstant sort name l
      (m.record (.started .evaluating (.scope t sort name b)))).2 := by
  generalize hk : m.record (.started .evaluating (.scope t sort name b)) = k
  have hremembers : first.Remembers k := by
    rw [← hk]
    exact hm.toRemembers.record rfl
  have hretains : m.Retains k := by
    rw [← hk]
    exact .of_eq rfl rfl
  have hopenings : openingsOf k.entries = openingsOf m.entries ++ [⟨sort, name⟩] := by
    rw [← hk]
    exact Machine.openingsOf_record hm.kept _
  have hconstant : ∀ other, k.constant? other =
      (first.constant? other).or (firstOpening? (openingsOf m.entries) other) := by
    rw [← hk]
    exact hm.constant
  have hopen := retains_openConstant k sort name l
  have hjournal := journal_openConstant k sort name l
  refine ⟨⟨hremembers.to hopen (grounds_openConstant hremembers.grounds) hjournal, fun other => ?_⟩,
    hretains.trans hopen⟩
  have hentries : (Eval.openConstant sort name l k).2.entries = k.entries := by
    rw [Machine.entries, Machine.entries, hjournal]
  rw [constant?_openConstant hremembers.grounds, hconstant, hentries, hopenings,
    firstOpening?_append, Option.or_assoc]

/-- Induction on the fuel; a class or module node is a case of its own. -/
theorem accounting_evaluate (fuel : Nat) (n : Node) :
    (accounting first).Meets (fun _ => True) (evaluate fuel n) := by
  induction fuel generalizing n with
  | zero => exact Contract.outOfFuel trivial
  | succ fuel ih =>
    have hrunScope : ∀ (s : ScopeId) (b : Option Node),
        (accounting first).Meets (fun _ => True) (Eval.runScope (evaluate fuel) s b) := by
      intro s b
      cases b with
      | none => exact Contract.yield trivial
      | some b =>
        have hactive := (accounting_undoing first).toActive
        exact hactive.meets_withScope trivial (hactive.meets_withNewEnvironment .empty (ih b))
    have hends : ∀ m o, first.Accounts m →
        (accounting first).Step m (m.record (.ended .evaluating n o)) :=
      fun _ _ hm => accounting_record hm rfl rfl
    cases hscope : n.isScope with
    | false =>
      exact Contract.observed (accounting_step ih hscope)
        (fun _ hm => accounting_record hm rfl (Node.opening?_of_not_isScope hscope)) hends
    | true =>
      cases n with
      | scope t sort name b =>
        intro m hm
        -- Between the entry and the constant the account is open, so both are taken as one step.
        have hopened := accounts_openConstant hm t sort name b (some t.location)
        let x := Eval.openConstant sort name (some t.location)
        let k := m.record (.started .evaluating (.scope t sort name b))
        have hstep : (accounting first).Step m
            (Eval.step fuel (evaluate fuel) (.scope t sort name b) k).2 := by
          show (accounting first).Step m ((x >>= fun s => Eval.runScope (evaluate fuel) s b) k).2
          cases ho : (x k).1 with
          | value s =>
            rw [Eval.bind_of_value ho]
            exact hopened.trans (hrunScope s b _ hopened.inv).1
          | jump s => rw [Eval.bind_of_jump ho]; exact hopened
          | error e => rw [Eval.bind_of_error ho]; exact hopened
          | outOfFuel => rw [Eval.bind_of_outOfFuel ho]; exact hopened
        rw [evaluate, Eval.observed_eq]
        refine ⟨hstep.trans (hends _ _ hstep.inv), ?_⟩
        cases (Eval.step fuel (evaluate fuel) (.scope t sort name b) k).1 with
        | value | jump | error | outOfFuel => trivial
      | _ => exact absurd hscope Bool.noConfusion

end

end Treewalk
