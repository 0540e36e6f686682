import Treewalk.Proofs.Reach
import Treewalk.Proofs.Report
import Treewalk.Proofs.Sample

/-!
# No failure is swallowed

If anything that is evaluated or assigned to on the way fails, then the whole fails with that very
error, and nothing is done any more: `failures_surface`.

Loops, bodies of methods, probes and whole programs receive how something ended, and each of them
could take a failure for something else. That none does is read off the journal. Once an entry says
that a node failed, there are only entries that say of the nodes around it that they failed alike,
and nothing but the frame changes from one to the next.
-/

set_option autoImplicit false

namespace Treewalk

/-- The entry says that something failed with this error, when the heap was this and the constants
and the texts received were those of this context. -/
def Event.Fails (e : Error) (c : Context) (h : Heap) : Event → Prop
  | .ended _ _ (.error e') c' h' =>
    e' = e ∧ h' = h ∧ c'.warnings = c.warnings ∧ c'.constants = c.constants
  | _ => False

/-- Nothing was done after a failure: all that was recorded since is that more failed alike, and the
machine is what it was by then. -/
structure Machine.IdleSince (m : Machine) (e : Error) (c : Context) (h : Heap)
    (since : List Event) : Prop where
  fails : ∀ entry ∈ since, entry.Fails e c h
  heap : m.heap = h
  warnings : m.context.warnings = c.warnings
  constants : m.context.constants = c.constants

/-- Whatever fails on the way, the computation fails with the same error, and was idle since. -/
def Eval.Surfaces {α : Type} (x : Eval α) : Prop :=
  ∀ (m : Machine) before activity n e c h after,
    (x m.watched).2.entries = before ++ .ended activity n (.error e) c h :: after →
      (x m.watched).1 = .error e ∧ (x m.watched).2.IdleSince e c h after

/-! ## As a report -/

/-- Whatever failed since is what the computation ended with. -/
def surfacing : Report := fun m o m' =>
  ∃ added, m'.entries = m.entries ++ added ∧
    ∀ before activity n e c h after, added = before ++ .ended activity n (.error e) c h :: after →
      o = .error e ∧ m'.IdleSince e c h after

namespace surfacing

variable {m m' m'' : Machine} {o o' : Outcome Unit}

/-- There is nothing to show where no new entry says that something failed. -/
theorem of_silent {added : List Event} (hentries : m'.entries = m.entries ++ added)
    (hsilent : ∀ activity n e c h, .ended activity n (.error e) c h ∉ added) :
    surfacing m o m' := by
  refine ⟨added, hentries, fun before activity n e c h after hadded => ?_⟩
  refine absurd ?_ (hsilent activity n e c h)
  rw [hadded]
  exact List.mem_append_right _ List.mem_cons_self

theorem record (hkept : m.journal.isSome = true) {entry : Context → Heap → Event}
    (hsilent : ∀ activity n e c h, entry m.context m.heap ≠ .ended activity n (.error e) c h) :
    surfacing m o (m.record entry) := by
  refine of_silent (Machine.entries_record_of_kept hkept entry) fun activity n e c h hmem => ?_
  exact hsilent activity n e c h (List.mem_singleton.mp hmem).symm

/-- Where the first part did not fail, nothing in it did. -/
theorem trans (ho : ∀ e, o ≠ .error e) (h : surfacing m o m') (h' : surfacing m' o' m'') :
    surfacing m o' m'' := by
  obtain ⟨added, hentries, hfirst⟩ := h
  obtain ⟨more, hentries', hthen⟩ := h'
  refine ⟨added ++ more, ?_, fun before activity n e c h after hadded => ?_⟩
  · rw [hentries', hentries, List.append_assoc]
  -- The entry is one of the second part, for otherwise the first part would have failed.
  · rcases List.append_eq_append_iff.mp hadded with ⟨between, -, hmore⟩ | ⟨rest, hadd, hrest⟩
    · exact hthen between activity n e c h after hmore
    · cases rest with
      | nil => exact hthen [] activity n e c h after hrest.symm
      | cons entry rest =>
        obtain ⟨rfl, -⟩ := List.cons.inj hrest
        exact absurd (hfirst before activity n e c h rest hadd).1 (ho e)

/-- One more entry about the failure. -/
theorem record_failed (hkept : m'.journal.isSome = true) {activity : Activity} {n : Node}
    {e : Error} (h : surfacing m (.error e) m') :
    surfacing m (.error e) (m'.record (.ended activity n (.error e))) := by
  obtain ⟨added, hentries, hfails⟩ := h
  refine ⟨added ++ [.ended activity n (.error e) m'.context m'.heap], ?_, ?_⟩
  · rw [Machine.entries_record_of_kept hkept, hentries, List.append_assoc]
  · intro before activity' n' e' c h after hadded
    rcases split_of_added hadded with ⟨hlast, rfl⟩ | ⟨rest, rfl, hbefore⟩
    · cases hlast
      exact ⟨rfl, fun _ hmem => absurd hmem List.not_mem_nil, rfl, rfl, rfl⟩
    · obtain ⟨ho, hidle⟩ := hfails before activity' n' e' c h rest hbefore
      cases ho
      refine ⟨rfl, fun entry hmem => ?_, hidle.heap, hidle.warnings, hidle.constants⟩
      rcases List.mem_append.mp hmem with hmem | hmem
      · exact hidle.fails entry hmem
      · cases List.mem_singleton.mp hmem
        exact ⟨rfl, hidle.heap, hidle.warnings, hidle.constants⟩

theorem lawful : surfacing.Lawful where
  calm hjournal _ :=
    of_silent (by rw [Machine.entries, Machine.entries, hjournal, List.append_nil])
      fun _ _ _ _ _ => List.not_mem_nil
  trans := trans
  within {m m' o c c'} hwarnings hconstants h := by
    obtain ⟨added, hentries, hfails⟩ := h
    refine ⟨added, hentries, fun before activity n e c'' hp after hadded => ?_⟩
    obtain ⟨ho, hidle⟩ := hfails before activity n e c'' hp after hadded
    exact ⟨ho, hidle.fails, hidle.heap, hwarnings.trans hidle.warnings,
      hconstants.trans hidle.constants⟩
  entered hkept := record hkept (by simp)
  observed {m m' activity n o} hkept hkept' h := by
    have hstart : surfacing m (.value ()) (m.record (.started activity n)) :=
      record hkept (by simp)
    have hinside := trans (by simp) hstart h
    cases o with
    | error e => exact record_failed hkept' hinside
    | value | jump | outOfFuel =>
      exact trans (by simp [Outcome.manner]) hinside (record hkept' (by simp))
  raised {m m' t s own} hkept hkept' _ h := by
    have hstart : surfacing m (.value ())
        (m.record (.started .evaluating (.jump t s.keyword own))) := record hkept (by simp)
    have hinside := trans (by simp) hstart h
    exact trans (by simp) hinside (record hkept' (by simp))

end surfacing

theorem Eval.Reports.surfaces {α : Type} {A : α → Prop} {x : Eval α}
    (hx : x.Reports surfacing A) : x.Surfaces := by
  intro m before activity n e c h after hentries
  obtain ⟨-, ⟨added, hadded, hfails⟩, -⟩ := hx m.watched rfl
  rw [hentries] at hadded
  obtain ⟨ho, hidle⟩ := hfails before activity n e c h after hadded.symm
  exact ⟨Outcome.eq_error_of_manner ho, hidle⟩

/-- **No failure is swallowed.** Whatever is done with whatever node on whatever machine, if a
nested evaluation or assignment fails, all of it fails with the same error. From then on nothing is
evaluated or assigned to, no text is received, and no environment, no method and no constant
changes; what was done before stays. -/
theorem failures_surface :
    (∀ fuel n, (evaluate fuel n).Surfaces) ∧
    (∀ checkArity v n, (Eval.assign checkArity v n).Surfaces) ∧
    (∀ fuel n, (probe fuel n).Surfaces) ∧
    (∀ fuel n, (definition? fuel n).Surfaces) ∧
    ∀ fuel n, (run fuel n).Surfaces := by
  have hK := surfacing.lawful
  refine ⟨fun fuel n => ?_, fun checkArity v n => ?_, fun fuel n => ?_, fun fuel n => ?_,
    fun fuel n => ?_⟩
  · exact (Eval.Reports.evaluate hK fuel n).surfaces
  · exact (Eval.Reports.assign hK checkArity v n).surfaces
  · exact (Eval.Reports.probe hK fuel n).surfaces
  · exact (Eval.Reports.definition hK fuel n).surfaces
  · exact (Eval.Reports.run hK fuel n).surfaces

/-- Asks in a loop whether a call is defined. -/
def askedCall : Node :=
  .whileLoop .sample (.bool .sample true) (.defined .sample (.call .sample "f" []))

/-- Assigns to one variable, and then reads another one that is not bound. -/
def brokenBody : Node :=
  .block .sample [.localAssign .sample "x" (some (.nil .sample)), .localVar .sample "y"]

/-- Does the entry say that a variable could not be read? -/
def Event.isFailedRead : Event → Bool
  | .ended .evaluating (.localVar ..) (.error _) _ _ => true
  | _ => false

theorem Event.exists_of_isFailedRead {entry : Event} (h : entry.isFailedRead = true) :
    ∃ t name e c hp, entry = .ended .evaluating (.localVar t name) (.error e) c hp := by
  unfold isFailedRead at h
  split at h
  · exact ⟨_, _, _, _, _, rfl⟩
  · exact absurd h Bool.noConfusion

/-- The failure in the body gets out of the call, the question, the loop and the program. -/
theorem askedCall_surfaces :
    let m := Machine.oneMethod .default brokenBody
    ∃ before t name e c h after, (run 9 askedCall m.watched).2.entries =
        before ++ .ended .evaluating (.localVar t name) (.error e) c h :: after ∧
      (run 9 askedCall m.watched).1 = .error e ∧
      (run 9 askedCall m.watched).2.IdleSince e c h after := by
  intro m
  have hreads : (run 9 askedCall m.watched).2.entries.any Event.isFailedRead = true := by
    decide +kernel
  obtain ⟨entry, hmem, hread⟩ := List.any_eq_true.mp hreads
  obtain ⟨before, after, hentries⟩ := List.append_of_mem hmem
  obtain ⟨t, name, e, c, h, rfl⟩ := Event.exists_of_isFailedRead hread
  obtain ⟨-, -, -, -, hrun⟩ := failures_surface
  exact ⟨before, t, name, e, c, h, after, hentries, hrun 9 askedCall m _ _ _ _ _ _ _ hentries⟩

end Treewalk
