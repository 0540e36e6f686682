import Treewalk.Proofs.Sharing

/-!
# Fuel and journals make no difference

A run that ended is not changed by more fuel: `evaluate_mono`. So what a tree ends with, if it
ends, is a matter of the tree and the machine only. `Node.EndsWith` says what that is, without
fuel in it. Nor does it matter whether a journal is kept, or what stands in it:
`evaluate_journal`.

Both are about two runs of one tree on machines that differ at most in their journals.
-/

set_option autoImplicit false

namespace Treewalk

/-! ## Machines that differ in their journals -/

/-- How two journals may be related, whatever is then written into both. -/
structure Journals where
  rel : Option (List Event) → Option (List Event) → Prop
  write : ∀ {j j' : Option (List Event)} (e : Event), rel j j' →
    rel (j.map (· ++ [e])) (j'.map (· ++ [e]))

/-- The same journal. -/
def Journals.same : Journals := ⟨Eq, fun _ h => h ▸ rfl⟩

/-- Any two journals. -/
def Journals.any : Journals := ⟨fun _ _ => True, fun _ _ => trivial⟩

structure Machine.Twins (R : Journals) (m m' : Machine) : Prop where
  context : m.context = m'.context
  heap : m.heap = m'.heap
  journal : R.rel m.journal m'.journal

theorem Machine.eq_of_twins {m m' : Machine} (h : Twins .same m m') : m = m' := by
  obtain ⟨context, heap, journal⟩ := m
  obtain ⟨context', heap', journal'⟩ := m'
  obtain ⟨rfl, rfl, hj⟩ := h
  rw [show journal = journal' from hj]

/-- Two runs of one tree, the left one with less fuel perhaps. -/
def rerun (R : Journals) (lax : Prop) : Simulation := ⟨Machine.Twins R, Eq, Eq, lax⟩

section

variable {R : Journals} {lax : Prop}

/-- Nothing but the records touches the journals, and nothing looks at them. -/
theorem twins_mirroring : Simulation.Mirroring (Machine.Twins R) where
  shares hm := ⟨by rw [hm.context], by rw [hm.context], by rw [hm.heap]⟩
  named opened constants tables hm :=
    ⟨by rw [Machine.withNames, hm.context]; rfl, by rw [Machine.withNames, hm.heap]; rfl,
      hm.journal⟩
  recorded entry hm := by
    refine ⟨hm.context, hm.heap, ?_⟩
    rw [Machine.record, Machine.record, hm.context, hm.heap]
    exact R.write _ hm.journal
  readLocal name hm := by rw [hm.context, hm.heap]
  assignLocal name v hm := ⟨hm.context, by rw [hm.context, hm.heap], hm.journal⟩
  warn message l hm := ⟨by rw [hm.context], hm.heap, hm.journal⟩
  enterEnvironment bindings hm :=
    ⟨by rw [hm.context, hm.heap], by rw [hm.heap], hm.journal⟩
  leaveEnvironment hm hn := ⟨by rw [hm.context, hn.context], hn.heap, hn.journal⟩

theorem rerun_stable : (rerun R lax).Stable .same :=
  twins_mirroring.stable <| twins_mirroring.calling (fun hm => by rw [hm.context])
    (fun hm => ⟨by rw [hm.context], hm.heap, hm.journal⟩)
    fun hm => ⟨by rw [hm.context], hm.heap, hm.journal⟩

/-! ## More fuel -/

/-- Induction on the fuel that both runs have. -/
theorem rerun_evaluate (hlax : lax) (fuel k : Nat) (n : Node) :
    (rerun R lax).judgment _ Eq (evaluate fuel n) (evaluate (fuel + k) n) := by
  have hK : (rerun R lax).Stable .same := rerun_stable
  induction fuel generalizing n with
  | zero => exact Simulation.starved hlax
  | succ fuel ih =>
    rw [Nat.succ_add]
    have hev : ∀ c c' : Node, c = c' →
        (rerun R lax).judgment _ Eq (evaluate fuel c) (evaluate (fuel + k) c') := by
      rintro c _ rfl
      exact ih c
    have hstep : (rerun R lax).judgment _ Eq (Eval.step fuel (evaluate fuel) n)
        (Eval.step (fuel + k) (evaluate (fuel + k)) n) :=
      hK.step (.inl hlax) Likeness.same_assigns (fun _ _ h => h) hev (Likeness.same_steps n n rfl)
    exact hK.like_observed rfl hstep

end

/-- **More fuel changes nothing** about a run that ended. -/
theorem evaluate_mono {fuel fuel' : Nat} (hle : fuel ≤ fuel') {n : Node} {m : Machine}
    (h : (evaluate fuel n m).1.isFinal = true) : evaluate fuel' n m = evaluate fuel n m := by
  obtain ⟨k, rfl⟩ := Nat.exists_eq_add_of_le hle
  rcases rerun_evaluate (R := .same) trivial fuel k n m m ⟨rfl, rfl, rfl⟩ with ⟨-, ho⟩ | ⟨hm, ho⟩
  · rw [ho] at h
    exact absurd h (by simp [Outcome.isFinal])
  · exact Prod.ext ho.eq.symm (Machine.eq_of_twins hm).symm

/-- **What the journal is makes no difference**, and whether one is kept. -/
theorem evaluate_journal (fuel : Nat) (n : Node) (m : Machine) (j : Option (List Event)) :
    (evaluate fuel n { m with journal := j }).1 = (evaluate fuel n m).1 ∧
    (evaluate fuel n { m with journal := j }).2.context = (evaluate fuel n m).2.context ∧
    (evaluate fuel n { m with journal := j }).2.heap = (evaluate fuel n m).2.heap := by
  have hK : (rerun .any False).Stable .same := rerun_stable
  have htwins : Machine.Twins .any { m with journal := j } m := ⟨rfl, rfl, trivial⟩
  rcases hK.congruence_same.evaluate fuel rfl _ _ htwins with h | ⟨hm, ho⟩
  · exact absurd h.1 id
  · exact ⟨ho.eq, hm.context, hm.heap⟩

/-! ## What a tree ends with -/

/-- Evaluating the tree on the machine ends, in this way and with this machine. -/
def Node.EndsWith (n : Node) (m : Machine) (o : Outcome Value) (m' : Machine) : Prop :=
  o.isFinal = true ∧ ∃ least, ∀ fuel, least ≤ fuel → evaluate fuel n m = (o, m')

namespace Node

variable {n : Node} {m m₁ m₂ : Machine} {o₁ o₂ : Outcome Value}

theorem endsWith_of_isFinal {fuel : Nat} (h : (evaluate fuel n m).1.isFinal = true) :
    n.EndsWith m (evaluate fuel n m).1 (evaluate fuel n m).2 :=
  ⟨h, fuel, fun _ hle => evaluate_mono hle h⟩

theorem endsWith_of_evaluate {fuel : Nat} (h : evaluate fuel n m = (o₁, m₁))
    (hfinal : o₁.isFinal = true) : n.EndsWith m o₁ m₁ := by
  have hends : (evaluate fuel n m).1.isFinal = true := by
    rw [h]
    exact hfinal
  refine ⟨hfinal, fuel, fun fuel' hle => ?_⟩
  rw [evaluate_mono hle hends, h]

theorem EndsWith.exists_evaluate (h : n.EndsWith m o₁ m₁) :
    ∃ fuel, evaluate fuel n m = (o₁, m₁) := by
  obtain ⟨-, least, hleast⟩ := h
  exact ⟨least, hleast least (Nat.le_refl least)⟩

/-- There is one way in which a tree ends. -/
theorem EndsWith.unique (h₁ : n.EndsWith m o₁ m₁) (h₂ : n.EndsWith m o₂ m₂) :
    o₁ = o₂ ∧ m₁ = m₂ := by
  obtain ⟨-, l₁, h₁⟩ := h₁
  obtain ⟨-, l₂, h₂⟩ := h₂
  have h := (h₁ _ (Nat.le_max_left l₁ l₂)).symm.trans (h₂ _ (Nat.le_max_right l₁ l₂))
  exact Prod.mk.inj h

/-- A tree ends as the step at its root does, between the two entries for it. -/
theorem endsWith_iff_step : n.EndsWith m o₁ m₁ ↔ o₁.isFinal = true ∧ ∃ fuel k,
    Eval.step fuel (evaluate fuel) n (m.record (.started .evaluating n)) = (o₁, k) ∧
      m₁ = k.record (.ended .evaluating n o₁) := by
  constructor
  · intro h
    refine ⟨h.1, ?_⟩
    obtain ⟨fuel, hrun⟩ := h.exists_evaluate
    cases fuel with
    | zero =>
      obtain ⟨rfl, -⟩ := Prod.mk.inj hrun
      exact absurd h.1 Bool.noConfusion
    | succ fuel =>
      rw [evaluate, Eval.observed_eq] at hrun
      obtain ⟨rfl, rfl⟩ := Prod.mk.inj hrun
      exact ⟨fuel, _, rfl, rfl⟩
  · rintro ⟨hfinal, fuel, k, hstep, rfl⟩
    have hrun : evaluate (fuel + 1) n m = (o₁, k.record (.ended .evaluating n o₁)) := by
      rw [evaluate, Eval.observed_eq, hstep]
    exact endsWith_of_evaluate hrun hfinal

end Node

end Treewalk
