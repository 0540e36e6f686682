import Treewalk.Proofs.Fuel
import Treewalk.Proofs.Termination

/-!
# The limit on calls only cuts off

Two runs of one tree under options that differ in the limit on the depth of calls are the same run,
up to the first call that the lower limit refuses: `callLimit_cutsOff`. Depth is looked at where a
call is entered, and nothing else can tell the two runs apart. Nothing receives errors, so a run
that was cut off ends there.

What the run under the higher limit does from there on cannot be matched with anything. So beside
the simulation of one run by the other stands a contract on the second one alone, `growing`: texts
that were received stay received, and entries stay in the journal.
-/

set_option autoImplicit false

namespace Treewalk

/-- The machine under other options. -/
def Machine.withOptions (m : Machine) (o : Options) : Machine :=
  { m with context := { m.context with options := o } }

/-- The same state under other options: the same context apart from them, and the same heap. -/
structure Machine.SameState (m m' : Machine) : Prop where
  context : m'.context = { m.context with options := m'.context.options }
  heap : m'.heap = m.heap

/-! ## What a run does not take back -/

/-- Texts received and entries of the journal are only added to, and a journal that is kept is
kept on. -/
structure Machine.Grows (m m' : Machine) : Prop where
  warnings : m.context.warnings <+: m'.context.warnings
  entries : m.entries <+: m'.entries
  kept : m'.journal.isSome = m.journal.isSome

namespace Machine.Grows

theorem trans {m₁ m₂ m₃ : Machine} (h : m₁.Grows m₂) (h' : m₂.Grows m₃) : m₁.Grows m₃ :=
  ⟨h.warnings.trans h'.warnings, h.entries.trans h'.entries, h'.kept.trans h.kept⟩

/-- Machines with the same texts and the same journal, whatever else. -/
theorem same {m m' : Machine} (hwarnings : m'.context.warnings = m.context.warnings)
    (hjournal : m'.journal = m.journal) : m.Grows m' := by
  have hentries : m'.entries = m.entries := by simp only [Machine.entries, hjournal]
  exact ⟨hwarnings ▸ List.prefix_rfl, hentries ▸ List.prefix_rfl, by rw [hjournal]⟩

theorem refl (m : Machine) : m.Grows m := same rfl rfl

/-- Growth from within a bracket to within a bracket is growth around it. -/
theorem between {m m' n n' : Machine} (h : n.Grows n')
    (hw : n.context.warnings = m.context.warnings) (hj : n.journal = m.journal)
    (hw' : m'.context.warnings = n'.context.warnings) (hj' : m'.journal = n'.journal) :
    m.Grows m' :=
  ((same hw hj).trans h).trans (same hw' hj')

theorem record (m : Machine) (entry : Context → Heap → Event) : m.Grows (m.record entry) := by
  refine ⟨List.prefix_rfl, ?_, Option.isSome_map ..⟩
  rcases m.entries_record entry with h | h
  · exact h ▸ List.prefix_rfl
  · exact h ▸ List.prefix_append ..

theorem warn (m : Machine) (message : String) (l : Option Location) :
    m.Grows { m with context := m.context.warn message l } := by
  refine ⟨?_, List.prefix_rfl, rfl⟩
  dsimp only
  unfold Context.warn
  split
  · exact List.prefix_append ..
  · exact List.prefix_rfl

theorem inCall (m : Machine) : m.Grows m.inCall := by
  have hentered : m.Grows { m with context := m.context.enter } := same rfl rfl
  exact hentered.trans (record _ _)

end Machine.Grows

theorem Machine.mem_entries_inCall (m : Machine) (h : m.journal.isSome = true) :
    .entered m.context.enter m.heap ∈ m.inCall.entries := by
  have hentries : m.inCall.entries = m.entries ++ [.entered m.context.enter m.heap] :=
    entries_record_of_kept (m := { m with context := m.context.enter }) h .entered
  rw [hentries]
  exact List.mem_append_right _ (List.mem_singleton_self _)

/-- Any computation may do anything, but takes back nothing. -/
def growing : Contract where
  inv _ := True
  change := Machine.Grows
  error _ := True
  signal _ := True
  starves := True
  refl := .refl
  trans := .trans

theorem growing_closed : growing.Closed .any where
  fault _ _ _ _ := trivial
  stray _ _ := trivial
  currentScope _ _ := trivial
  constant _ _ := trivial
  method _ _ _ := ⟨trivial, fun _ _ => trivial⟩
  startAssigning _ _ := ⟨trivial, .record _ _⟩
  endAssigning _ _ _ := ⟨trivial, .record _ _⟩
  assignLocal _ _ _ := ⟨trivial, .same rfl rfl⟩
  define _ _ _ _ := ⟨trivial, .same rfl rfl⟩
  undef _ _ _ := ⟨trivial, .same rfl rfl⟩
  addAlias _ _ _ := ⟨trivial, .same rfl rfl⟩
  warn _ _ _ _ := ⟨trivial, .warn _ _ _⟩
  create _ _ _ := ⟨trivial, trivial, .same rfl rfl⟩
  openScope _ _ := trivial
  closeScope _ _ h := ⟨trivial, h.change.between rfl rfl rfl rfl⟩
  enterEnvironment _ _ := trivial
  leaveEnvironment _ _ h := ⟨trivial, h.change.between rfl rfl rfl rfl⟩
  steps n _ := Contract.steps_any (fun _ => trivial) (fun _ => trivial) n
  assigns n _ := Contract.assigns_any (fun _ => trivial) n
  runnable _ _ := trivial
  starves := trivial
  startEvaluating _ _ := ⟨trivial, .record _ _⟩
  endEvaluating _ _ _ := ⟨trivial, .record _ _⟩
  enterCall _ _ := trivial
  leaveCall _ h := ⟨trivial, ((Machine.Grows.inCall _).trans h.change).trans (.same rfl rfl)⟩

/-! ## Two runs below the limit -/

/-- The right machine is the left one under other options. Journals may differ. -/
structure Machine.Under (o o' : Options) (m m' : Machine) : Prop where
  low : m.context.options = o
  context : m'.context = { m.context with options := o' }
  heap : m'.heap = m.heap

/-- Two runs of one tree under two options. -/
def underOptions (o o' : Options) : Simulation := ⟨Machine.Under o o', Eq, Eq, False⟩

section

variable {o o' : Options} {α β : Type} {A : α → α → Prop} {m m' : Machine}

namespace Machine.Under

theorem sameState (h : m.Under o o' m') : m.SameState m' :=
  ⟨by rw [h.context], h.heap⟩

theorem withOptions (m : Machine) : (m.withOptions o).Under o o' (m.withOptions o') :=
  ⟨rfl, rfl, rfl⟩

theorem record (h : m.Under o o' m') (entry entry' : Context → Heap → Event) :
    (m.record entry).Under o o' (m'.record entry') :=
  ⟨h.low, h.context, h.heap⟩

theorem inCall (h : m.Under o o' m') : m.inCall.Under o o' m'.inCall := by
  refine ⟨h.low, ?_, h.heap⟩
  show m'.context.enter = { m.context.enter with options := o' }
  rw [h.context]
  rfl

end Machine.Under

theorem Context.warn_withOptions {c : Context} (h : c.options.warnings = o'.warnings)
    (message : String) (l : Option Location) :
    { c with options := o' }.warn message l = { c.warn message l with options := o' } := by
  unfold Context.warn
  dsimp only
  rw [h]
  split
  · rfl
  · rfl

/-- Apart from calls, nothing looks at the limit. -/
theorem under_mirroring (hwarnings : o.warnings = o'.warnings) :
    Simulation.Mirroring (Machine.Under o o') where
  shares hm := ⟨by rw [hm.context], by rw [hm.context], by rw [hm.heap]⟩
  named _ _ _ hm :=
    ⟨hm.low, by rw [Machine.withNames, hm.context]; rfl, by rw [Machine.withNames, hm.heap]; rfl⟩
  recorded _ hm := hm.record _ _
  readLocal name hm := by rw [hm.context, hm.heap]
  assignLocal name v hm := ⟨hm.low, hm.context, by rw [hm.context, hm.heap]⟩
  warn {m m'} message l hm := by
    refine ⟨?_, ?_, hm.heap⟩
    · obtain ⟨warnings, h⟩ := Context.exists_warn_eq m.context message (some l)
      dsimp only
      rw [h]
      exact hm.low
    · dsimp only
      rw [hm.context]
      exact Context.warn_withOptions (by rw [hm.low, hwarnings]) _ _
  enterEnvironment bindings hm := ⟨hm.low, by rw [hm.context, hm.heap], by rw [hm.heap]⟩
  leaveEnvironment hm hn := ⟨hn.low, by rw [hm.context, hn.context], hn.heap⟩

theorem under_local (hwarnings : o.warnings = o'.warnings) : (underOptions o o').Local .same :=
  (under_mirroring hwarnings).toLocal

/-! ## A run that is cut off -/

/-- The left run was cut off, and the right one went on, with a call that is deeper. -/
structure CutOff (limit : Nat) (p q : Outcome α × Machine) : Prop where
  tooDeep : ∃ l, p.1 = .error (.fault .tooDeep l)
  warnings : p.2.context.warnings <+: q.2.context.warnings
  deeper : q.2.journal.isSome = true → ∃ e ∈ q.2.entries, limit < e.context.depth

/-- The two runs end alike, or the left one was cut off. -/
def Below (o o' : Options) (A : α → α → Prop) (p q : Outcome α × Machine) : Prop :=
  CutOff o.maxCallDepth p q ∨ (underOptions o o').Agree A p q

/-- A run that was cut off stays cut off, whatever the other one does after. -/
theorem CutOff.stays {limit : Nat} {p q : Outcome α × Machine} {p' q' : Outcome β × Machine}
    (h : CutOff limit p q) (herror : ∀ e, p.1 = .error e → p'.1 = .error e)
    (hleft : p'.2.context.warnings = p.2.context.warnings) (hright : q.2.Grows q'.2) :
    CutOff limit p' q' := by
  obtain ⟨⟨l, htooDeep⟩, hwarnings, hdeeper⟩ := h
  refine ⟨⟨l, herror _ htooDeep⟩, ?_, fun hkept => ?_⟩
  · rw [hleft]
    exact hwarnings.trans hright.warnings
  · obtain ⟨e, he, hlimit⟩ := hdeeper (hright.kept ▸ hkept)
    exact ⟨e, hright.entries.subset he, hlimit⟩

/-- What is done to the machines after a run that ended does not part them. -/
theorem Below.after {p q p' q' : Outcome α × Machine} (h : Below o o' A p q) (hp : p'.1 = p.1)
    (hq : q'.1 = q.1) (hleft : p'.2.context.warnings = p.2.context.warnings)
    (hright : q.2.Grows q'.2) (hstate : p.2.Under o o' q.2 → p'.2.Under o o' q'.2) :
    Below o o' A p' q' := by
  rcases h with hcut | ⟨hlax, -⟩ | ⟨hs, ho⟩
  · refine .inl (hcut.stays (fun e he => ?_) hleft hright)
    rw [hp, he]
  · exact hlax.elim
  · refine .inr (.inr ⟨hstate hs, ?_⟩)
    rw [hp, hq]
    exact ho

/-- As a judgment: beside the two runs stands that the right one takes back nothing. -/
def cutOff (o o' : Options) : Judgment := fun _ A x y =>
  (∀ m m', m.Under o o' m' → Below o o' A (x m) (y m')) ∧ growing.Meets (fun b => ∃ a, A a b) y

namespace cutOff

variable {x y : Eval α}

/-- What does not enter calls is not cut off. -/
theorem of_judgment (hA : ∀ b, ∃ a, A a b) (h : (underOptions o o').judgment α A x y)
    (hy : growing.Meets (fun _ => True) y) : cutOff o o' α A x y :=
  ⟨fun m m' hm => .inr (h m m' hm), hy.imp fun b _ => hA b⟩

theorem grows_bind {B : α → Prop} {C : β → Prop} {g : α → Eval β} (hy : growing.Meets B y)
    (hg : ∀ b, B b → growing.Meets C (g b)) (m : Machine) : (y m).2.Grows ((y >>= g) m).2 := by
  have ho := (hy m trivial).2
  cases h : (y m).1 with
  | value b =>
    rw [h] at ho
    rw [Eval.bind_of_value h]
    exact (hg b ho _ trivial).1.change
  | jump s =>
    rw [Eval.bind_of_jump h]
    exact .refl _
  | error e =>
    rw [Eval.bind_of_error h]
    exact .refl _
  | outOfFuel =>
    rw [Eval.bind_of_outOfFuel h]
    exact .refl _

theorem andThen {B : β → β → Prop} {f g : α → Eval β} (hx : cutOff o o' α A x y)
    (hf : ∀ a b, A a b → cutOff o o' β B (f a) (g b)) :
    cutOff o o' β B (x >>= f) (y >>= g) := by
  have hgrows : ∀ b, (∃ a, A a b) → growing.Meets (fun b => ∃ a, B a b) (g b) := by
    rintro b ⟨a, hab⟩
    exact (hf a b hab).2
  refine ⟨fun m m' hm => ?_, Contract.andThen hx.2 hgrows⟩
  rcases hx.1 m m' hm with hcut | h
  · -- What follows is not run on the left; on the right it only adds to what there is.
    obtain ⟨l, htooDeep⟩ := hcut.tooDeep
    have hleft : (x >>= f) m = (.error (.fault .tooDeep l), (x m).2) :=
      Eval.bind_of_error htooDeep f
    refine .inl (hcut.stays (fun e he => ?_) ?_ (grows_bind hx.2 hgrows m'))
    · rw [Eval.bind_of_error he]
    · rw [hleft]
  · rcases h.goesOn with ⟨a, b, hab, hs, ha, hb⟩ | h
    · rw [Eval.bind_of_value ha, Eval.bind_of_value hb]
      exact (hf a b hab).1 _ _ hs
    · exact .inr (h β B f g)

theorem probe_snd (x : Eval α) (m : Machine) : (Eval.probe x m).2 = (x m).2 := by
  unfold Eval.probe
  split
  · next h => rw [h]
  · next h => rw [h]
  · next h => rw [h]
  · next h => rw [h]

theorem probe (hx : cutOff o o' α A x y) :
    cutOff o o' _ (Probe.Like A Eq) (Eval.probe x) (Eval.probe y) := by
  refine ⟨fun m m' hm => ?_, ?_⟩
  · rcases hx.1 m m' hm with hcut | h
    · refine .inl (hcut.stays (fun e he => ?_) ?_ ?_)
      · rw [Eval.probe_of_error he]
      · rw [probe_snd]
      · rw [probe_snd]
        exact .refl _
    · exact .inr h.probe
  · refine (Contract.probe (A := fun b a => A a b) (S := Eq) hx.2 fun _ _ => rfl).imp ?_
    rintro _ ⟨_, hl⟩
    cases hl with
    | value hab => exact ⟨_, .value hab⟩
    | jump h => exact ⟨_, .jump h.symm⟩

theorem observed {activity : Activity} {n : Node} {x y : Eval Value}
    (hx : cutOff o o' _ Eq x y) :
    cutOff o o' _ Eq (Eval.observed activity n x) (Eval.observed activity n y) := by
  refine ⟨fun m m' hm => ?_, Contract.observed hx.2 (fun _ _ => ⟨trivial, .record _ _⟩)
    fun _ _ _ => ⟨trivial, .record _ _⟩⟩
  have hbelow := hx.1 _ _ (hm.record (.started activity n) (.started activity n))
  exact hbelow.after rfl rfl rfl (.record _ _) fun h => h.record _ _

/-- Brackets around two runs, with machines inside that are again the same but for the options. -/
theorem within {there there' : Context → Context} {back back' : Context → Context → Context}
    (hx : cutOff o o' α A x y)
    (henter : ∀ m m' : Machine, m.Under o o' m' →
      Machine.Under o o' { m with context := there m.context }
        { m' with context := there' m'.context })
    (hleave : ∀ m m' n n' : Machine, m.Under o o' m' → n.Under o o' n' →
      Machine.Under o o' { n with context := back m.context n.context }
        { n' with context := back' m'.context n'.context })
    (hthere : ∀ c, (there' c).warnings = c.warnings)
    (hback : ∀ c d, (back c d).warnings = d.warnings)
    (hback' : ∀ c d, (back' c d).warnings = d.warnings) :
    cutOff o o' α A (Eval.within there back x) (Eval.within there' back' y) := by
  refine ⟨fun m m' hm => ?_, ?_⟩
  · have hbelow := hx.1 _ _ (henter m m' hm)
    exact hbelow.after rfl rfl (hback _ _) (.same (hback' _ _) rfl)
      fun h => hleave m m' _ _ hm h
  · exact Contract.within hx.2 (fun _ _ => trivial) fun m m' _ h =>
      ⟨trivial, h.change.between (hthere _) rfl (hback' _ _) rfl⟩

theorem withScope (hwarnings : o.warnings = o'.warnings) (s : ScopeId)
    (hx : cutOff o o' α A x y) :
    cutOff o o' α A (Eval.withScope s x) (Eval.withScope s y) :=
  within hx (fun _ _ hm => (under_mirroring hwarnings).openScope s hm)
    (fun _ _ _ _ _ hn => (under_mirroring hwarnings).closeScope hn) (fun _ => rfl) (fun _ _ => rfl)
    fun _ _ => rfl

theorem withNewEnvironment (hwarnings : o.warnings = o'.warnings) (bindings : Table Value)
    (hx : cutOff o o' α A x y) :
    cutOff o o' α A (Eval.withNewEnvironment bindings x)
      (Eval.withNewEnvironment bindings y) := by
  have hmirroring := under_mirroring hwarnings
  refine ⟨fun m m' hm => ?_, growing_closed.meets_withNewEnvironment bindings hx.2⟩
  have hbelow := hx.1 _ _ (hmirroring.enterEnvironment bindings hm)
  refine hbelow.after rfl rfl rfl (.same rfl rfl) fun h => ?_
  have hleft : Machine.Under o o' _ _ := hmirroring.leaveEnvironment hm h
  exact hleft

/-- The one place where the limits are looked at. Where only the lower one refuses the call, the
run under the higher one enters it, which is an entry that is too deep for the lower one. -/
theorem enterCall (hle : o.maxCallDepth ≤ o'.maxCallDepth) (l : Option Location)
    (hx : cutOff o o' α A x y) :
    cutOff o o' α A (Eval.enterCall l x) (Eval.enterCall l y) := by
  refine ⟨fun m m' hm => ?_, ?_⟩
  · have hdepth : m'.context.depth = m.context.depth := by rw [hm.context]
    have hlow : m.context.isAtLimit = decide (o.maxCallDepth ≤ m.context.depth) := by
      rw [Context.isAtLimit, hm.low]
    have hhigh : m'.context.isAtLimit = decide (o'.maxCallDepth ≤ m.context.depth) := by
      rw [Context.isAtLimit, hdepth, hm.context]
    by_cases hrefused : o.maxCallDepth ≤ m.context.depth
    · rw [Eval.enterCall_of_limit (hlow.trans (decide_eq_true hrefused))]
      by_cases hrefused' : o'.maxCallDepth ≤ m.context.depth
      · rw [Eval.enterCall_of_limit (hhigh.trans (decide_eq_true hrefused'))]
        exact .inr (.inr ⟨hm, .error rfl⟩)
      · rw [Eval.enterCall_of_room (hhigh.trans (decide_eq_false hrefused'))]
        have hinside : m'.inCall.Grows (y m'.inCall).2 := (hx.2 _ trivial).1.change
        refine .inl ⟨⟨l, rfl⟩, ?_, fun hkept => ?_⟩
        · have hgrows := ((Machine.Grows.inCall m').trans hinside).warnings
          rw [hm.context] at hgrows
          exact hgrows
        · have hcalled := m'.mem_entries_inCall (by
            rw [← hinside.kept.trans (Machine.Grows.inCall m').kept]
            exact hkept)
          refine ⟨_, hinside.entries.subset hcalled, ?_⟩
          show o.maxCallDepth < m'.context.depth + 1
          omega
    · have hroom' : ¬ o'.maxCallDepth ≤ m.context.depth := fun h => hrefused (Nat.le_trans hle h)
      rw [Eval.enterCall_of_room (hlow.trans (decide_eq_false hrefused)),
        Eval.enterCall_of_room (hhigh.trans (decide_eq_false hroom'))]
      have hbelow := hx.1 _ _ hm.inCall
      refine hbelow.after rfl rfl rfl (.same rfl rfl) fun h => ?_
      exact ⟨h.low, by rw [h.context]; rfl, h.heap⟩
  · exact Contract.meets_enterCall hx.2 trivial (fun _ _ _ => trivial)
      fun _ _ _ _ hs ho => ⟨growing_closed.leaveCall trivial hs, ho⟩

/-- What is neither a call nor put together from parts is not cut off, for it enters nothing. -/
theorem congruence (hwarnings : o.warnings = o'.warnings)
    (hle : o.maxCallDepth ≤ o'.maxCallDepth) : Congruence .same (cutOff o o') where
  yield h := ⟨fun _ _ hm => .inr (.inr ⟨hm, .value h⟩), Contract.yield ⟨_, h⟩⟩
  andThen hx hf := andThen hx hf
  misuse _ := ⟨fun _ _ hm => .inr (.inr ⟨hm, .error rfl⟩), Contract.misuse trivial⟩
  fault c _ ht :=
    ⟨fun _ _ hm => .inr (.inr ⟨hm, .error ((under_local hwarnings).fault c ht)⟩),
      Contract.fault trivial⟩
  jump h := ⟨fun _ _ hm => .inr (.inr ⟨hm, .jump h⟩), Contract.jump trivial⟩
  probe h := probe h
  assigning {n n' x y} h hx := by
    obtain rfl : n = n' := h
    exact observed hx
  readLocal name ht := of_judgment (fun b => ⟨b, rfl⟩)
    ((under_local hwarnings).like_readLocal ht name) (growing_closed.meets_readLocal trivial name)
  assignLocal name v := of_judgment (fun b => ⟨b, rfl⟩)
    ((under_local hwarnings).compatible.assignLocal name v)
    fun _ _ => ⟨⟨trivial, .same rfl rfl⟩, trivial⟩
  currentScope := of_judgment
    (fun b => ⟨b, .of_rel trivial (Likeness.optionRel_refl (fun _ => rfl) b)⟩)
    (under_local hwarnings).compatible.currentScope (Contract.look fun _ _ => trivial)
  find name hs := of_judgment
    (fun b => ⟨b, Likeness.optionRel_refl Likeness.same_methods b⟩)
    ((under_local hwarnings).compatible.find name hs) (Contract.look fun _ _ => trivial)
  called hs := of_judgment (fun b => ⟨b, rfl⟩) ((under_local hwarnings).compatible.called hs)
    (Contract.look fun _ _ => trivial)
  define name params ht hs hb := of_judgment (fun b => ⟨b, rfl⟩)
    ((under_local hwarnings).compatible.define name params ht hs hb)
    (growing_closed.meets_define trivial trivial name params fun _ _ => trivial)
  undef name ht hs := of_judgment (fun b => ⟨b, rfl⟩)
    ((under_local hwarnings).compatible.undef name ht hs)
    (growing_closed.meets_undefMethod trivial trivial name)
  addAlias newName oldName ht hs := of_judgment (fun b => ⟨b, rfl⟩)
    ((under_local hwarnings).compatible.addAlias newName oldName ht hs)
    (growing_closed.meets_addAlias trivial trivial newName oldName)
  openConstant sort name ht := of_judgment (fun b => ⟨b, rfl⟩)
    ((under_local hwarnings).compatible.openConstant sort name ht)
    ((growing_closed.meets_openConstant trivial sort name).imp fun _ _ => trivial)
  withScope {α A s s' x y} hs hx := by
    obtain rfl : s = s' := hs
    exact withScope hwarnings s hx
  withNewEnvironment bindings hx := withNewEnvironment hwarnings bindings hx
  steps := Likeness.same_steps
  assigns := Likeness.same_assigns
  runnable _ _ h := h
  outOfFuel := ⟨fun _ _ hm => .inr (.inr ⟨hm, .outOfFuel⟩), Contract.outOfFuel trivial⟩
  evaluating {n n' x y} h hx := by
    obtain rfl : n = n' := h
    exact observed hx
  enterCall {t t' x y} ht hx := by
    obtain rfl : t = t' := ht
    exact enterCall hle _ hx

end cutOff

end

/-! ## Whole evaluations -/

section

variable {o o' : Options} {n : Node} {m m' m₁ m₂ : Machine} {r : Outcome Value}

theorem Below.cases {p q : Outcome Value × Machine} (h : Below o o' Eq p q) :
    (p.1 = q.1 ∧ p.2.SameState q.2) ∨ CutOff o.maxCallDepth p q := by
  rcases h with hcut | hlax | ⟨hs, ho⟩
  · exact .inr hcut
  · exact hlax.1.elim
  · exact .inl ⟨ho.eq, Machine.Under.sameState hs⟩

/-- Runs with the same fuel. -/
theorem evaluate_below (hwarnings : o.warnings = o'.warnings)
    (hle : o.maxCallDepth ≤ o'.maxCallDepth) (hm : m.Under o o' m') (fuel : Nat) :
    Below o o' Eq (evaluate fuel n m) (evaluate fuel n m') :=
  ((cutOff.congruence hwarnings hle).evaluate fuel rfl).1 m m' hm

theorem evaluate_grows (fuel : Nat) : m.Grows (evaluate fuel n m).2 :=
  (growing_closed.evaluate fuel (n := n) trivial m trivial).1.change

theorem Node.EndsWith.grows (h : n.EndsWith m r m₁) : m.Grows m₁ := by
  obtain ⟨fuel, hfuel⟩ := h.exists_evaluate
  have hgrows : m.Grows (evaluate fuel n m).2 := evaluate_grows fuel
  rw [hfuel] at hgrows
  exact hgrows

/-- From the run under the higher limit to the one under the lower. -/
theorem Node.EndsWith.below (hwarnings : o.warnings = o'.warnings)
    (hle : o.maxCallDepth ≤ o'.maxCallDepth) (hm : m.Under o o' m') (h : n.EndsWith m' r m₂) :
    (∃ m₁, n.EndsWith m r m₁ ∧ m₁.SameState m₂) ∨
      ∃ l m₁, n.EndsWith m (.error (.fault .tooDeep l)) m₁ ∧
        CutOff o.maxCallDepth (.error (.fault .tooDeep l), m₁) (r, m₂) := by
  obtain ⟨fuel, hhigh⟩ := h.exists_evaluate
  have hbelow := evaluate_below hwarnings hle hm (n := n) fuel
  rcases hlow : evaluate fuel n m with ⟨r₁, m₁⟩
  rw [hlow, hhigh] at hbelow
  rcases hbelow.cases with ⟨hr, hs⟩ | hcut
  · obtain rfl : r₁ = r := hr
    exact .inl ⟨m₁, Node.endsWith_of_evaluate hlow h.1, hs⟩
  · obtain ⟨l, hl⟩ := hcut.tooDeep
    obtain rfl : r₁ = .error (.fault .tooDeep l) := hl
    exact .inr ⟨l, m₁, Node.endsWith_of_evaluate hlow rfl, hcut⟩

/-- And back, unless the lower limit was what ended it. -/
theorem Node.EndsWith.above (hwarnings : o.warnings = o'.warnings)
    (hle : o.maxCallDepth ≤ o'.maxCallDepth) (hm : m.Under o o' m') (h : n.EndsWith m r m₁)
    (hr : ∀ l, r ≠ .error (.fault .tooDeep l)) :
    ∃ m₂, n.EndsWith m' r m₂ ∧ m₁.SameState m₂ := by
  obtain ⟨fuel, hlow⟩ := h.exists_evaluate
  have hbelow := evaluate_below hwarnings hle hm (n := n) fuel
  rcases hhigh : evaluate fuel n m' with ⟨r₂, m₂⟩
  rw [hlow, hhigh] at hbelow
  rcases hbelow.cases with ⟨hr₂, hs⟩ | hcut
  · obtain rfl : r = r₂ := hr₂
    exact ⟨m₂, Node.endsWith_of_evaluate hhigh h.1, hs⟩
  · obtain ⟨l, hl⟩ := hcut.tooDeep
    exact absurd hl (hr l)

end

/-- **The limit on calls only cuts off.** If a tree ends under the higher of two limits, it ends
under the lower one, in the same way with the same state, or because calls are nested too deep,
after it received the first of the texts that the other run receives; and in the same way if no
call is deeper than the lower limit. What ends under the lower limit, but not with that error, ends
in the same way under the higher one. Whole programs are cut off in the same way. -/
theorem callLimit_cutsOff {o o' : Options} (hwarnings : o.warnings = o'.warnings)
    (hle : o.maxCallDepth ≤ o'.maxCallDepth) (n : Node) (m : Machine) :
    (∀ {r m₂}, n.EndsWith (m.withOptions o') r m₂ →
      (∃ m₁, n.EndsWith (m.withOptions o) r m₁ ∧ m₁.SameState m₂) ∨
      ∃ l m₁, n.EndsWith (m.withOptions o) (.error (.fault .tooDeep l)) m₁ ∧
        m.context.warnings <+: m₁.context.warnings ∧
        m₁.context.warnings <+: m₂.context.warnings) ∧
    (∀ {r m₂}, n.EndsWith (m.withOptions o').watched r m₂ →
      (∀ e ∈ m₂.entries, e.context.depth ≤ o.maxCallDepth) →
      ∃ m₁, n.EndsWith (m.withOptions o).watched r m₁ ∧ m₁.SameState m₂) ∧
    (∀ {r m₁}, n.EndsWith (m.withOptions o) r m₁ → (∀ l, r ≠ .error (.fault .tooDeep l)) →
      ∃ m₂, n.EndsWith (m.withOptions o') r m₂ ∧ m₁.SameState m₂) ∧
    ∀ fuel,
      let low := run fuel n (m.withOptions o)
      let high := run fuel n (m.withOptions o')
      (low.1 = high.1 ∧ low.2.SameState high.2) ∨
      (∃ l, low.1 = .error (.fault .tooDeep l)) ∧
        m.context.warnings <+: low.2.context.warnings ∧
        low.2.context.warnings <+: high.2.context.warnings := by
  have hm : (m.withOptions o).Under o o' (m.withOptions o') := .withOptions m
  have hwatched : (m.withOptions o).watched.Under o o' (m.withOptions o').watched :=
    ⟨rfl, rfl, rfl⟩
  refine ⟨fun {r m₂} h => ?_, fun {r m₂} h hdepth => ?_, fun {r m₁} h hr => ?_, fun fuel => ?_⟩
  · rcases h.below hwarnings hle hm with hsame | ⟨l, m₁, hends, hcut⟩
    · exact .inl hsame
    · exact .inr ⟨l, m₁, hends, hends.grows.warnings, hcut.warnings⟩
  · rcases h.below hwarnings hle hwatched with hsame | ⟨l, m₁, hends, hcut⟩
    · exact hsame
    · -- The run under the higher limit would have entered a call that is too deep for the other.
      obtain ⟨e, he, hdeeper⟩ := hcut.deeper h.grows.kept
      exact absurd (hdepth e he) (Nat.not_le.mpr hdeeper)
  · exact h.above hwarnings hle hm hr
  · have hrun := (cutOff.congruence hwarnings hle).run fuel (n := n) rfl fun s s' hs c => by
      obtain rfl : s = s' := hs
      exact ⟨fun _ _ hm => .inr (.inr ⟨hm, .error rfl⟩), Contract.fault trivial⟩
    rcases (hrun.1 _ _ hm).cases with hsame | hcut
    · exact .inl hsame
    · have hgrows : (m.withOptions o).Grows (run fuel n (m.withOptions o)).2 := by
        rw [run_eq]
        exact evaluate_grows fuel
      exact .inr ⟨hcut.tooDeep, hgrows.warnings, hcut.warnings⟩

/-- As the body of `f`: makes `f` a method without a body, and calls it. -/
def redefinition : Node :=
  .block .sample [.define .sample "f" ⟨.sample, []⟩ none, .call .sample "f" []]

/-- A call that calls once more, under the limits 1, 2 and 3: the lowest cuts it off, and the two
others make no difference. -/
theorem redefinition_cutOff :
    let m := Machine.oneMethod .default redefinition
    let low : Options := ⟨true, 1, by decide⟩
    let mid : Options := ⟨true, 2, by decide⟩
    let high : Options := ⟨true, 3, by decide⟩
    (∃ l m₁, selfCall.EndsWith (m.withOptions low) (.error (.fault .tooDeep l)) m₁) ∧
    ∃ v m₁ m₂, selfCall.EndsWith (m.withOptions mid).watched (.value v) m₁ ∧
      selfCall.EndsWith (m.withOptions high).watched (.value v) m₂ ∧ m₁.SameState m₂ := by
  intro m low mid high
  constructor
  · have hwarnings : low.warnings = high.warnings := rfl
    obtain ⟨v, hv⟩ : ∃ v, (evaluate 9 selfCall (m.withOptions high)).1 = .value v :=
      Outcome.exists_value (by decide +kernel)
    have hhigh := Node.endsWith_of_evaluate (Prod.ext hv rfl) rfl
    rcases (callLimit_cutsOff hwarnings (by decide) selfCall m).1 hhigh with h | h
    · -- Under the lowest limit it does not yield a value.
      obtain ⟨m₁, hvalue, -⟩ := h
      have hfinal : (evaluate 9 selfCall (m.withOptions low)).1.isFinal = true := by
        decide +kernel
      have hcut : (evaluate 9 selfCall (m.withOptions low)).1.isValue = false := by
        decide +kernel
      rcases hlow : evaluate 9 selfCall (m.withOptions low) with ⟨r, m₂⟩
      rw [hlow] at hfinal hcut
      obtain ⟨rfl, -⟩ := hvalue.unique (Node.endsWith_of_evaluate hlow hfinal)
      exact absurd hcut Bool.noConfusion
    · obtain ⟨l, m₁, hcut, -⟩ := h
      exact ⟨l, m₁, hcut⟩
  · have hwarnings : mid.warnings = high.warnings := rfl
    obtain ⟨v, hv⟩ : ∃ v, (evaluate 9 selfCall (m.withOptions high).watched).1 = .value v :=
      Outcome.exists_value (by decide +kernel)
    have hhigh := Node.endsWith_of_evaluate (Prod.ext hv rfl) rfl
    obtain ⟨m₁, hmid, hsame⟩ :=
      (callLimit_cutsOff hwarnings (by decide) selfCall m).2.1 hhigh (by decide +kernel)
    exact ⟨v, m₁, _, hmid, hhigh, hsame⟩

end Treewalk
