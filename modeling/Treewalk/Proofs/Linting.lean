import Mathlib.Data.Int.ConditionallyCompleteOrder
import Mathlib.Data.List.Forall2
import Mathlib.Order.ConditionallyCompleteLattice.Basic
import Mathlib.Order.WithBot
import Treewalk.Lint.Standard
import Treewalk.Proofs.Sample
import Treewalk.Proofs.StableSort

/-!
# What the linter reports, and in which order

A run of the linter is a stable sort by line of what each rule picked contributes: its findings, or
one error if it fails, `lint_isolatedRuns`. Lines are compared as points of the extended number
line, so this holds of any lines that are numbers, the infinite ones included; a line that is not a
number is comparable to none. The rules of the standard linter report lines of nodes only, and those
are numbers: `Linter.standard_orderly`.

Three things come out otherwise than they read, `irregularRules_lint`. A rule that throws something
without a text is not reported but ends the run. A finding that brings a rule or a severity of its
own keeps it. And for a rule that is called like a member of every object, that member is taken for
a severity, unless the selection gives one.
-/

set_option autoImplicit false

namespace Treewalk

/-! ## The order of lines -/

/-- The point of the extended number line that a number is, counted in units. Not-a-number is none;
it is put first here, and what is said about points is said about numbers alone. -/
def Double.point : Double → WithBot (WithTop Int)
  | .nan => ⊥
  | .infinity true => ⊥
  | .infinity false => ⊤
  | .finite negative units _ => ((signed negative units : WithTop Int) : WithBot (WithTop Int))

theorem Double.lt_eq_point_lt {x y : Double} (hx : x ≠ .nan) (hy : y ≠ .nan) :
    x.lt y = decide (x.point < y.point) := by
  cases x with
  | nan => exact absurd rfl hx
  | infinity n =>
    cases y with
    | nan => exact absurd rfl hy
    | infinity m => cases n <;> cases m <;> simp [lt, point]
    | finite m v hv =>
      cases n with
      | true => simp [lt, point]
      | false => simp [lt, point]
  | finite n u hu =>
    cases y with
    | nan => exact absurd rfl hy
    | infinity m =>
      cases m with
      | true => simp [lt, point]
      | false =>
        have hfinite : ((signed n u : WithTop Int) : WithBot (WithTop Int)) < ⊤ :=
          WithBot.coe_lt_coe.mpr (WithTop.coe_lt_top _)
        simp [lt, point, hfinite]
    | finite m v hv => simp [lt, point]

theorem Double.zero_ne_nan : zero ≠ .nan := by decide +kernel

theorem Location.line_ne_nan (l : Location) : l.line ≠ .nan := by
  intro h
  have hline := l.line_isLine
  rw [h] at hline
  exact absurd hline Bool.noConfusion

namespace Lint

variable {l : Linter} {root : Node} {s : Selection} {rule : Rule}

/-- What diagnostics are ordered by. -/
def Diagnostic.point (d : Diagnostic) : WithBot (WithTop Int) := d.line.point

theorem Diagnostic.notAfter_eq {a b : Diagnostic} (ha : a.line ≠ .nan) (hb : b.line ≠ .nan) :
    a.notAfter b = decide (a.point ≤ b.point) := by
  rw [notAfter, Double.lt_eq_point_lt hb ha, ← decide_not]
  exact decide_eq_decide.mpr not_lt

/-! ## Rules that are picked -/

/-- A rule of this name runs. Being disabled weighs more than being enabled. -/
def Selection.Picks (s : Selection) (name : String) : Prop :=
  name ∉ s.disabled ∧ (s.enabled = [] ∨ name ∈ s.enabled)

instance (s : Selection) : DecidablePred s.Picks := fun _ => inferInstanceAs (Decidable (_ ∧ _))

theorem Selection.picks_eq (s : Selection) (name : String) :
    s.picks name = decide (s.Picks name) := by
  rw [Bool.eq_iff_iff, decide_eq_true_iff]
  simp [picks, Picks]

/-- The level at which the findings of a rule are reported: what the selection has written down for
its name, or else inherits, or else what the rule declares. -/
inductive Selection.Rates (s : Selection) (rule : Rule) : Level → Prop
  | written {severity : Severity} : s.severities.own.lookup rule.name = some severity →
      Rates s rule (.of severity)
  | inherited {level : Level} : s.severities.own.lookup rule.name = none →
      s.severities.inherited.lookup rule.name = some level → Rates s rule level
  | declared : s.severities.own.lookup rule.name = none →
      s.severities.inherited.lookup rule.name = none → Rates s rule (.of rule.severity)

theorem Selection.rates_iff {level : Level} : s.Rates rule level ↔ level = s.levelOf rule := by
  unfold levelOf Severities.level?
  constructor
  · intro h
    cases h with
    | written hown => rw [hown]; rfl
    | inherited hown hinherited => rw [hown, hinherited]; rfl
    | declared hown hinherited => rw [hown, hinherited]; rfl
  · rintro rfl
    cases hown : s.severities.own.lookup rule.name with
    | some severity => exact .written hown
    | none =>
      cases hinherited : s.severities.inherited.lookup rule.name with
      | some level => exact .inherited hown hinherited
      | none => exact .declared hown hinherited

/-! ## Lists of computations that may fail -/

section

variable {α β ε : Type} {f : α → Except ε β} {R : α → β → Prop}

theorem mapM_eq_ok_iff {xs : List α} {ys : List β} :
    xs.mapM f = .ok ys ↔ List.Forall₂ (fun x y => f x = .ok y) xs ys := by
  induction xs generalizing ys with
  | nil =>
    rw [List.mapM_nil, List.forall₂_nil_left_iff]
    exact ⟨fun h => (Except.ok.inj h).symm, fun h => congrArg Except.ok h.symm⟩
  | cons x xs ih =>
    rw [List.mapM_cons, List.forall₂_cons_left_iff]
    cases hx : f x with
    | error e => simp [bind, Except.bind]
    | ok y =>
      cases hxs : xs.mapM f with
      | error e => simp [bind, Except.bind, ← ih, hxs]
      | ok rest => simp [bind, Except.bind, pure, Except.pure, ← ih, hxs, eq_comm]

/-- The first that fails decides. -/
theorem mapM_eq_error_iff {xs : List α} {e : ε} :
    xs.mapM f = .error e ↔ ∃ before x after, xs = before ++ x :: after ∧
      (∀ b ∈ before, ∃ y, f b = .ok y) ∧ f x = .error e := by
  induction xs with
  | nil => simp [pure, Except.pure]
  | cons x xs ih =>
    rw [List.mapM_cons]
    constructor
    · intro h
      cases hx : f x with
      | error e' =>
        rw [hx] at h
        obtain rfl := Except.error.inj h
        exact ⟨[], x, xs, rfl, fun _ hb => absurd hb List.not_mem_nil, hx⟩
      | ok y =>
        have hxs : xs.mapM f = .error e := by
          rw [hx] at h
          cases hxs : xs.mapM f with
          | error e' =>
            rw [hxs] at h
            exact h
          | ok rest =>
            rw [hxs] at h
            exact absurd h nofun
        obtain ⟨before, x', after, rfl, hbefore, hx'⟩ := ih.mp hxs
        refine ⟨x :: before, x', after, rfl, fun b hb => ?_, hx'⟩
        rcases List.mem_cons.mp hb with rfl | hb
        · exact ⟨y, hx⟩
        · exact hbefore b hb
    · rintro ⟨before, x', after, hxs, hbefore, hx'⟩
      cases before with
      | nil =>
        obtain ⟨rfl, rfl⟩ := List.cons.inj hxs
        rw [hx']
        rfl
      | cons b before =>
        obtain ⟨rfl, rfl⟩ := List.cons.inj hxs
        obtain ⟨y, hy⟩ := hbefore x List.mem_cons_self
        have hrest := ih.mpr ⟨before, x', after, rfl,
          fun b hb => hbefore b (List.mem_cons_of_mem x hb), hx'⟩
        rw [hy, hrest]
        rfl

theorem forall₂_append_left {as bs : List α} {ys : List β} (h : List.Forall₂ R (as ++ bs) ys) :
    ∃ ys₁ ys₂, ys = ys₁ ++ ys₂ ∧ List.Forall₂ R as ys₁ ∧ List.Forall₂ R bs ys₂ := by
  induction as generalizing ys with
  | nil => exact ⟨[], ys, rfl, .nil, h⟩
  | cons a as ih =>
    cases h with
    | cons hab hrest =>
      obtain ⟨ys₁, ys₂, rfl, h₁, h₂⟩ := ih hrest
      exact ⟨_ :: ys₁, ys₂, rfl, .cons hab h₁, h₂⟩

end

/-! ## What a rule contributes -/

/-- The rule reports no line on the tree that is not a number. -/
def Rule.ReportsNumbers (rule : Rule) (root : Node) : Prop :=
  ∀ findings, rule.run root = .ok findings → ∀ f ∈ findings, f.line ≠ .nan

/-- What a rule adds to a run: its findings in its order, each under its name and at the level that
the selection has for it, or under what the finding says itself; or one error, whatever the
selection says. -/
inductive Rule.Contributes (s : Selection) (root : Node) (rule : Rule) : List Diagnostic → Prop
  | reported {findings : List Finding} {level : Level} :
      rule.run root = .ok findings → s.Rates rule level →
      Contributes s root rule (findings.map fun f =>
        ⟨f.rule?.getD rule.name, f.level?.getD level, f.message, f.file, f.line⟩)
  | failed {thrown : Thrown} {text : String} :
      rule.run root = .error thrown → thrown.text = .ok text →
      Contributes s root rule
        [⟨rule.name, .of .error, "Rule failed internally: " ++ text, root.location.file, .zero⟩]

/-- The rule throws something without a text, and this is thrown in its place. -/
def Rule.Aborts (rule : Rule) (root : Node) (thrown : Thrown) : Prop :=
  ∃ value, rule.run root = .error value ∧ value.text = .error thrown

theorem Rule.diagnostics_eq_ok_iff {group : List Diagnostic} :
    rule.diagnostics (s.levelOf rule) root = .ok group ↔ rule.Contributes s root group := by
  unfold diagnostics
  constructor
  · intro h
    cases hrun : rule.run root with
    | ok findings =>
      rw [hrun] at h
      obtain rfl := Except.ok.inj h
      exact .reported hrun (Selection.rates_iff.mpr rfl)
    | error thrown =>
      rw [hrun] at h
      cases htext : thrown.text with
      | ok text =>
        simp only [htext, Except.map, Except.ok.injEq] at h
        exact h ▸ .failed hrun htext
      | error instead => simp [htext, Except.map] at h
  · intro h
    cases h with
    | reported hrun hlevel =>
      rw [hrun, Selection.rates_iff.mp hlevel]
      rfl
    | failed hrun htext => simp [hrun, htext, Except.map, failure]

theorem Rule.diagnostics_eq_error_iff {level : Level} {thrown : Thrown} :
    rule.diagnostics level root = .error thrown ↔ rule.Aborts root thrown := by
  unfold diagnostics Aborts
  cases rule.run root with
  | ok findings => simp
  | error value => cases htext : value.text <;> simp [htext, Except.map]

theorem Rule.exists_contributes (h : ∀ thrown, ¬ rule.Aborts root thrown) :
    ∃ group, rule.Contributes s root group := by
  cases hgroup : rule.diagnostics (s.levelOf rule) root with
  | ok group => exact ⟨group, diagnostics_eq_ok_iff.mp hgroup⟩
  | error thrown => exact absurd (diagnostics_eq_error_iff.mp hgroup) (h thrown)

theorem Rule.Contributes.not_aborts {group : List Diagnostic} (h : rule.Contributes s root group)
    (thrown : Thrown) : ¬ rule.Aborts root thrown := by
  intro haborts
  have hok := diagnostics_eq_ok_iff.mpr h
  rw [diagnostics_eq_error_iff.mpr haborts] at hok
  exact absurd hok nofun

theorem Rule.ReportsNumbers.line_ne_nan (h : rule.ReportsNumbers root) {group : List Diagnostic}
    (hgroup : rule.Contributes s root group) {d : Diagnostic} (hd : d ∈ group) :
    d.line ≠ .nan := by
  cases hgroup with
  | reported hrun _ =>
    obtain ⟨f, hf, rfl⟩ := List.mem_map.mp hd
    exact h _ hrun f hf
  | failed _ _ =>
    rw [List.mem_singleton.mp hd]
    simp only [ne_eq, Double.zero_ne_nan, not_false_eq_true]

/-- Where findings bring nothing of their own, and no member is taken for a severity, they come
under the name of the rule and with the severity that is given for it, or else its own. -/
theorem Rule.contributes_iff_of_regular {findings : List Finding} {group : List Diagnostic}
    (hrun : rule.run root = .ok findings)
    (hfindings : ∀ f ∈ findings, f.rule? = none ∧ f.level? = none)
    (hmember : (s.severities.own.lookup rule.name).isSome ∨
      s.severities.inherited.lookup rule.name = none) :
    rule.Contributes s root group ↔ group = findings.map fun f =>
      ⟨rule.name, .of ((s.severities.own.lookup rule.name).getD rule.severity), f.message, f.file,
        f.line⟩ := by
  have hlevel : s.levelOf rule =
      .of ((s.severities.own.lookup rule.name).getD rule.severity) := by
    unfold Selection.levelOf Severities.level?
    cases hown : s.severities.own.lookup rule.name with
    | some severity => rfl
    | none =>
      rw [hown] at hmember
      rcases hmember with h | h
      · exact absurd h Bool.noConfusion
      · simp [h]
  have hgroup : findings.map (·.diagnostic rule.name (s.levelOf rule)) = findings.map fun f =>
      ⟨rule.name, .of ((s.severities.own.lookup rule.name).getD rule.severity), f.message, f.file,
        f.line⟩ := by
    apply List.map_congr_left
    intro f hf
    obtain ⟨hname, hown⟩ := hfindings f hf
    simp [Finding.diagnostic, hname, hown, hlevel]
  rw [← diagnostics_eq_ok_iff, diagnostics, hrun, ← hgroup]
  simp [eq_comm]

/-! ## Runs of the linter -/

namespace Linter

/-- The rules that run, in the order of registration. -/
def picked (l : Linter) (s : Selection) : List Rule := l.rules.filter fun rule => s.Picks rule.name

/-- What each rule picked contributes. -/
def groups (l : Linter) (root : Node) (s : Selection) : Except Thrown (List (List Diagnostic)) :=
  (l.picked s).mapM fun rule => rule.diagnostics (s.levelOf rule) root

theorem lint_eq (l : Linter) (root : Node) (s : Selection) : l.lint root s =
    (l.groups root s).map fun gs => gs.flatten.mergeSort Diagnostic.notAfter := by
  simp only [lint, collect, groups, picked, s.picks_eq]
  cases (l.rules.filter fun rule => decide (s.Picks rule.name)).mapM fun rule =>
    rule.diagnostics (s.levelOf rule) root with
  | ok gs => rfl
  | error thrown => rfl

theorem groups_eq_ok_iff {gs : List (List Diagnostic)} :
    l.groups root s = .ok gs ↔ List.Forall₂ (Rule.Contributes s root) (l.picked s) gs := by
  rw [groups, mapM_eq_ok_iff]
  simp only [Rule.diagnostics_eq_ok_iff]

/-- A run fails where the first rule does that throws something without a text. -/
theorem lint_eq_error_iff {thrown : Thrown} :
    l.lint root s = .error thrown ↔ ∃ before rule after, l.picked s = before ++ rule :: after ∧
      (∀ r ∈ before, ∀ t, ¬ r.Aborts root t) ∧ rule.Aborts root thrown := by
  have hgroups : l.lint root s = .error thrown ↔ l.groups root s = .error thrown := by
    rw [lint_eq]
    cases l.groups root s with
    | ok gs => simp [Except.map]
    | error e => simp [Except.map]
  have htells : ∀ r : Rule, (∃ group, r.diagnostics (s.levelOf r) root = .ok group) ↔
      ∀ t, ¬ r.Aborts root t := by
    intro r
    simp only [Rule.diagnostics_eq_ok_iff]
    exact ⟨fun ⟨_, h⟩ => h.not_aborts, Rule.exists_contributes⟩
  rw [hgroups, groups, mapM_eq_error_iff]
  simp only [htells, Rule.diagnostics_eq_error_iff]

theorem exists_lint (h : ∀ rule ∈ l.picked s, ∀ t, ¬ rule.Aborts root t) :
    ∃ ds, l.lint root s = .ok ds := by
  cases hlint : l.lint root s with
  | ok ds => exact ⟨ds, rfl⟩
  | error thrown =>
    obtain ⟨before, rule, after, hpicked, -, haborts⟩ := lint_eq_error_iff.mp hlint
    have hrule : rule ∈ l.picked s := by
      rw [hpicked]
      exact List.mem_append_right before List.mem_cons_self
    exact absurd haborts (h rule hrule thrown)

theorem line_ne_nan_of_mem_flatten {rules : List Rule}
    (h : ∀ rule ∈ rules, rule.ReportsNumbers root) {gs : List (List Diagnostic)}
    (hgroups : List.Forall₂ (Rule.Contributes s root) rules gs) {d : Diagnostic}
    (hd : d ∈ gs.flatten) : d.line ≠ .nan := by
  induction hgroups with
  | nil => exact absurd hd List.not_mem_nil
  | cons hgroup _ ih =>
    rcases List.mem_append.mp hd with hd | hd
    · exact (h _ List.mem_cons_self).line_ne_nan hgroup hd
    · exact ih (fun rule hrule => h rule (List.mem_cons_of_mem _ hrule)) hd

/-- A run sorts stably what the rules contribute, and there is no other way to do so. -/
theorem lint_eq_ok_iff (h : ∀ rule ∈ l.picked s, rule.ReportsNumbers root) {ds : List Diagnostic} :
    l.lint root s = .ok ds ↔ ∃ gs, List.Forall₂ (Rule.Contributes s root) (l.picked s) gs ∧
      StableSort Diagnostic.point gs.flatten ds := by
  have hgroups : l.lint root s = .ok ds ↔ ∃ gs, l.groups root s = .ok gs ∧
      ds = gs.flatten.mergeSort Diagnostic.notAfter := by
    rw [lint_eq]
    cases l.groups root s with
    | ok gs => simp [Except.map, eq_comm]
    | error e => simp [Except.map]
  simp only [hgroups, groups_eq_ok_iff]
  apply exists_congr
  intro gs
  apply and_congr_right
  intro hgs
  symm
  apply stableSort_iff
  intro a ha b hb
  exact Diagnostic.notAfter_eq (line_ne_nan_of_mem_flatten h hgs ha)
    (line_ne_nan_of_mem_flatten h hgs hb)

theorem picked_append (before after : List Rule) (s : Selection) :
    picked ⟨before ++ after⟩ s = picked ⟨before⟩ s ++ picked ⟨after⟩ s :=
  List.filter_append ..

/-- A rule that fails with a text leaves its mark in one place, and all else is as if it were not
there. -/
theorem lint_split_of_failure
    (h : ∀ rule ∈ l.picked s, rule.ReportsNumbers root)
    {before after : List Rule} {broken : Rule} {thrown : Thrown} {text : String}
    (hrules : l.rules = before ++ broken :: after) (hpicks : s.Picks broken.name)
    (hrun : broken.run root = .error thrown) (htext : thrown.text = .ok text)
    {ds : List Diagnostic} (hlint : l.lint root s = .ok ds) :
    ∃ ds₁ ds₂, ds = ds₁ ++ broken.failure root text :: ds₂ ∧
      lint ⟨before ++ after⟩ root s = .ok (ds₁ ++ ds₂) := by
  have hpicked : l.picked s = picked ⟨before⟩ s ++ broken :: picked ⟨after⟩ s := by
    rw [picked, hrules, List.filter_append, List.filter_cons_of_pos (by simpa using hpicks)]
    rfl
  have hothers : ∀ rule ∈ picked ⟨before ++ after⟩ s, rule.ReportsNumbers root := by
    intro rule hrule
    apply h rule
    rw [hpicked]
    rw [picked_append] at hrule
    rcases List.mem_append.mp hrule with hrule | hrule
    · exact List.mem_append_left _ hrule
    · exact List.mem_append_right _ (List.mem_cons_of_mem _ hrule)
  obtain ⟨gs, hgs, hsort⟩ := (lint_eq_ok_iff h).mp hlint
  rw [hpicked] at hgs
  obtain ⟨gs₁, rest, rfl, hgs₁, hrest⟩ := forall₂_append_left hgs
  cases hrest with
  | @cons _ group _ gs₂ hgroup hgs₂ =>
    obtain rfl : group = [broken.failure root text] := by
      have hfailed := Rule.diagnostics_eq_ok_iff.mpr hgroup
      simp only [Rule.diagnostics, hrun, htext, Except.map, Except.ok.injEq] at hfailed
      exact hfailed.symm
    have hsort' : StableSort Diagnostic.point
        (gs₁.flatten ++ broken.failure root text :: gs₂.flatten) ds := by
      simpa using hsort
    obtain ⟨ds₁, ds₂, hds, hsplit⟩ := hsort'.split
    refine ⟨ds₁, ds₂, hds, (lint_eq_ok_iff hothers).mpr ⟨gs₁ ++ gs₂, ?_, ?_⟩⟩
    · rw [picked_append]
      exact List.rel_append hgs₁ hgs₂
    · rw [List.flatten_append]
      exact hsplit

end Linter

/-! ## Orderly rules -/

/-- On the tree the rule does nothing that a run could not put down to it: the lines it reports are
numbers, it reports under no name but its own, and what it throws has a text. -/
structure Rule.Orderly (rule : Rule) (root : Node) : Prop where
  numbers : rule.ReportsNumbers root
  named : ∀ findings, rule.run root = .ok findings →
    ∀ f ∈ findings, ∀ name ∈ f.rule?, name = rule.name
  tells : ∀ thrown, ¬ rule.Aborts root thrown

theorem Rule.orderly_of_run {findings : List Finding} (hrun : rule.run root = .ok findings)
    (h : ∀ f ∈ findings, f.line ≠ .nan ∧ f.rule? = none) : rule.Orderly root where
  numbers fs hfs f hf := by
    obtain rfl := Except.ok.inj (hrun.symm.trans hfs)
    exact (h f hf).1
  named fs hfs f hf name hname := by
    obtain rfl := Except.ok.inj (hrun.symm.trans hfs)
    rw [(h f hf).2] at hname
    exact absurd hname nofun
  tells thrown := by
    rintro ⟨value, hvalue, -⟩
    exact absurd (hrun.symm.trans hvalue) nofun

theorem Rule.orderly_of_error {thrown : Thrown} {text : String}
    (hrun : rule.run root = .error thrown) (htext : thrown.text = .ok text) :
    rule.Orderly root where
  numbers fs hfs := absurd (hrun.symm.trans hfs) nofun
  named fs hfs := absurd (hrun.symm.trans hfs) nofun
  tells instead := by
    rintro ⟨value, hvalue, hinstead⟩
    obtain rfl := Except.error.inj (hrun.symm.trans hvalue)
    exact absurd (htext.symm.trans hinstead) nofun

/-- What is reported on a node has the node's line, which is a number, and brings no name. -/
theorem Finding.on_orderly (n : Node) (message : String) :
    (Finding.on n message).line ≠ .nan ∧ (Finding.on n message).rule? = none :=
  ⟨n.location.line_ne_nan, rfl⟩

theorem unreachableCode_orderly (root : Node) : unreachableCode.Orderly root := by
  refine Rule.orderly_of_run rfl fun f hf => ?_
  obtain ⟨v, -, hv⟩ := List.mem_filterMap.mp hf
  unfold unreachable? at hv
  split at hv
  · obtain ⟨⟨keyword, next⟩, -, rfl⟩ := Option.map_eq_some_iff.mp hv
    exact Finding.on_orderly next _
  · exact absurd hv nofun

theorem undefOutsideDefinition_orderly (root : Node) : undefOutsideDefinition.Orderly root := by
  refine Rule.orderly_of_run rfl fun f hf => ?_
  obtain ⟨v, -, hv⟩ := List.mem_filterMap.mp hf
  unfold outsideDefinition? at hv
  split at hv
  · exact absurd hv nofun
  · split at hv
    · exact absurd hv nofun
    · obtain rfl := Option.some.inj hv
      exact Finding.on_orderly v.node _

theorem Linter.standard_orderly (root : Node) :
    ∀ rule ∈ Linter.standard.rules, rule.Orderly root := by
  intro rule hrule
  have hcases : rule = undefOutsideDefinition ∨ rule = unreachableCode := by
    simpa [standard, add, empty] using hrule
  rcases hcases with rfl | rfl
  · exact undefOutsideDefinition_orderly root
  · exact unreachableCode_orderly root

/-! ## Whole runs -/

/-- **A run is a stable sort of isolated rule runs**, unless a rule throws something without a text:
then it ends with what the first such rule leaves. Otherwise each rule picked contributes a group,
in the order of registration, and the run is the one list that has all that is in the groups, each
finding once, in the order of lines and, on one line, in the order of the groups. A rule that fails
with a text adds its error to what the run would be without it. The group of a rule whose findings
bring nothing of their own, and whose name is that of no member, is as the selection and the rule
declare it. -/
theorem lint_isolatedRuns (l : Linter) (root : Node) (s : Selection)
    (hlines : ∀ rule ∈ l.picked s, rule.ReportsNumbers root) :
    (∀ thrown, l.lint root s = .error thrown ↔
      ∃ before rule after, l.picked s = before ++ rule :: after ∧
        (∀ r ∈ before, ∀ t, ¬ r.Aborts root t) ∧ rule.Aborts root thrown) ∧
    (∀ ds, l.lint root s = .ok ds ↔
      ∃ gs, List.Forall₂ (Rule.Contributes s root) (l.picked s) gs ∧
        StableSort Diagnostic.point gs.flatten ds) ∧
    (∀ before broken after thrown text ds, l.rules = before ++ broken :: after →
      s.Picks broken.name → broken.run root = .error thrown → thrown.text = .ok text →
      l.lint root s = .ok ds →
      ∃ ds₁ ds₂, ds = ds₁ ++
          ⟨broken.name, .of .error, "Rule failed internally: " ++ text, root.location.file, .zero⟩ ::
            ds₂ ∧
        Linter.lint ⟨before ++ after⟩ root s = .ok (ds₁ ++ ds₂)) ∧
    ∀ (rule : Rule) (findings : List Finding) (group : List Diagnostic),
      rule.run root = .ok findings → (∀ f ∈ findings, f.rule? = none ∧ f.level? = none) →
      ((s.severities.own.lookup rule.name).isSome ∨
        s.severities.inherited.lookup rule.name = none) →
      (rule.Contributes s root group ↔ group = findings.map fun f =>
        ⟨rule.name, .of ((s.severities.own.lookup rule.name).getD rule.severity), f.message, f.file,
          f.line⟩) := by
  refine ⟨fun _ => Linter.lint_eq_error_iff, fun _ => Linter.lint_eq_ok_iff hlines, ?_,
    fun rule findings group => rule.contributes_iff_of_regular⟩
  intro before broken after thrown text ds hrules hpicks hrun htext hlint
  exact Linter.lint_split_of_failure hlines hrules hpicks hrun htext hlint

/-- Two infinite lines on every tree, the later one first. -/
def farLines : Rule where
  name := "far"
  description := ""
  severity := .info
  run root := .ok [{ message := "end", file := root.location.file, line := .infinity false },
    { message := "start", file := root.location.file, line := .infinity true }]

def brokenRule : Rule where
  name := "broken"
  description := ""
  severity := .info
  run _ := .error (.error "boom")

/-- The standard rules and one that fails, between two copies of another. -/
def mixedRules : Linter := ⟨farLines :: Linter.standard.rules ++ [brokenRule, farLines]⟩

theorem farLines_orderly (root : Node) : farLines.Orderly root :=
  Rule.orderly_of_run rfl (by simp)

theorem mixedRules_orderly (root : Node) : ∀ rule ∈ mixedRules.rules, rule.Orderly root := by
  intro rule hrule
  have hcases : rule = farLines ∨ rule ∈ Linter.standard.rules ∨ rule = brokenRule := by
    simp only [mixedRules, List.cons_append, List.mem_cons, List.mem_append, List.not_mem_nil,
      or_false] at hrule
    rcases hrule with h | h | h | h
    · exact .inl h
    · exact .inr (.inl h)
    · exact .inr (.inr h)
    · exact .inl h
  rcases hcases with rfl | hrule | rfl
  · exact farLines_orderly root
  · exact Linter.standard_orderly root rule hrule
  · exact Rule.orderly_of_error rfl rfl

/-- A block that goes on after its `return`, with what no class or module surrounds. -/
def lateUndef : Node :=
  .block .sample [.jump .sample .ret none, .undef .sample (.literal .sample "f")]

/-- A severity for a rule that reports, and one for a rule that fails. -/
def relabelled : Selection :=
  ⟨[], ["unused"], .plain [("unreachable-code", .error), ("broken", .warning)]⟩

/-- Every rule runs, and the one that fails stands in one place of a run of the others. -/
theorem mixedRules_isolatedRuns :
    (∀ rule ∈ mixedRules.picked relabelled, rule.ReportsNumbers lateUndef) ∧
      ∃ gs ds, mixedRules.lint lateUndef relabelled = .ok ds ∧
        List.Forall₂ (Rule.Contributes relabelled lateUndef) (mixedRules.picked relabelled) gs ∧
        StableSort Diagnostic.point gs.flatten ds ∧
        ∃ ds₁ ds₂, ds = ds₁ ++
            ⟨"broken", .of .error, "Rule failed internally: boom", "a.st", .zero⟩ :: ds₂ ∧
          Linter.lint ⟨farLines :: Linter.standard.rules ++ [farLines]⟩ lateUndef relabelled =
            .ok (ds₁ ++ ds₂) := by
  have horderly : ∀ rule ∈ mixedRules.picked relabelled, rule.Orderly lateUndef :=
    fun rule hrule => mixedRules_orderly lateUndef rule (List.mem_of_mem_filter hrule)
  have hlines : ∀ rule ∈ mixedRules.picked relabelled, rule.ReportsNumbers lateUndef :=
    fun rule hrule => (horderly rule hrule).numbers
  obtain ⟨-, hok, hfailure, -⟩ := lint_isolatedRuns mixedRules lateUndef relabelled hlines
  obtain ⟨ds, hlint⟩ := Linter.exists_lint fun rule hrule => (horderly rule hrule).tells
  obtain ⟨gs, hgs, hsort⟩ := (hok ds).mp hlint
  refine ⟨hlines, gs, ds, hlint, hgs, hsort, ?_⟩
  exact hfailure (farLines :: Linter.standard.rules) brokenRule [farLines] (.error "boom") "boom" ds
    rfl (by decide) rfl rfl hlint

/-! ## Runs that are not as they read -/

/-- A rule that is called as a member of every object is. -/
def memberRule : Rule where
  name := "constructor"
  description := ""
  severity := .warning
  run root := .ok [.on root "seen"]

/-- A rule that hands on what the standard linter reports. -/
def relayRule : Rule where
  name := "relay"
  description := ""
  severity := .info
  run root := (Linter.standard.lint root .everything).map (·.map Diagnostic.finding)

/-- A rule that throws something without a text. -/
def muteRule : Rule where
  name := "mute"
  description := ""
  severity := .info
  run _ := .error (.mute (.error "no text"))

/-- A block that goes on after its `return`. -/
def lateNil : Node := .block .sample [.jump .sample .ret none, .nil .sample]

theorem Linter.lint_of_groups {gs : List (List Diagnostic)} {d : Diagnostic}
    (h : l.groups root s = .ok gs) (hgs : gs.flatten = [d]) : l.lint root s = .ok [d] := by
  rw [lint_eq, h]
  show Except.ok (gs.flatten.mergeSort Diagnostic.notAfter) = _
  rw [hgs, List.mergeSort_singleton]

/-- The run of one rule that reports one thing. -/
theorem Linter.lint_singleton {f : Finding} (hpicks : s.Picks rule.name)
    (hrun : rule.run root = .ok [f]) :
    lint ⟨[rule]⟩ root s = .ok [f.diagnostic rule.name (s.levelOf rule)] := by
  have hpicked : picked ⟨[rule]⟩ s = [rule] := List.filter_cons_of_pos (by simpa using hpicks)
  have hgroups : groups ⟨[rule]⟩ root s = .ok [[f.diagnostic rule.name (s.levelOf rule)]] := by
    rw [groups, hpicked, List.mapM_cons, List.mapM_nil, Rule.diagnostics, hrun]
    rfl
  exact lint_of_groups hgroups rfl

/-- What the standard linter reports of the block. -/
def lateNilFound : Diagnostic :=
  (Finding.on (.nil .sample) "unreachable statement after return").diagnostic "unreachable-code"
    (.of .warning)

theorem standard_lint_lateNil : Linter.standard.lint lateNil .everything = .ok [lateNilFound] := by
  have hvisits : lateNil.visits =
      [⟨lateNil, []⟩, ⟨.jump .sample .ret none, [lateNil]⟩, ⟨.nil .sample, [lateNil]⟩] := by
    simp [Node.visits, Node.walk, Node.walkFrom_eq, lateNil, Node.childList, Node.children,
      Children.toList, Children.ofOption]
  have hfirst : undefOutsideDefinition.run lateNil = .ok [] := by
    simp only [undefOutsideDefinition, hvisits]
    rfl
  have hsecond : unreachableCode.run lateNil =
      .ok [.on (.nil .sample) "unreachable statement after return"] := by
    simp only [unreachableCode, hvisits]
    rfl
  have hpicked : Linter.standard.picked .everything = [undefOutsideDefinition, unreachableCode] :=
    rfl
  have hgroups : Linter.standard.groups lateNil .everything = .ok [[], [lateNilFound]] := by
    rw [Linter.groups, hpicked, List.mapM_cons, List.mapM_cons, List.mapM_nil, Rule.diagnostics,
      Rule.diagnostics, hfirst, hsecond]
    rfl
  exact Linter.lint_of_groups hgroups rfl

theorem relayRule_run_lateNil : relayRule.run lateNil = .ok [lateNilFound.finding] := by
  show (Linter.standard.lint lateNil .everything).map _ = _
  rw [standard_lint_lateNil]
  rfl

/-- The member stands where the severity declared should; what is handed on keeps its rule and its
severity, whatever the selection says; and the rule that throws is not reported. -/
theorem irregularRules_lint :
    (∃ d, Linter.lint ⟨[memberRule]⟩ lateNil .everything = .ok [d] ∧
      d.severity = .member "constructor") ∧
    (∃ d, Linter.lint ⟨[relayRule]⟩ lateNil ⟨[], [], .plain [("relay", .error)]⟩ = .ok [d] ∧
      d.rule = "unreachable-code" ∧ d.severity = .of .warning) ∧
    Linter.lint ⟨[muteRule]⟩ lateNil .everything = .error (.error "no text") := by
  have hmember : Linter.lint ⟨[memberRule]⟩ lateNil .everything = .ok [_] :=
    Linter.lint_singleton (by decide) rfl
  have hrelay : Linter.lint ⟨[relayRule]⟩ lateNil ⟨[], [], .plain [("relay", .error)]⟩ =
      .ok [lateNilFound] := by
    rw [Linter.lint_singleton (by decide) relayRule_run_lateNil, Diagnostic.diagnostic_finding]
  exact ⟨⟨_, hmember, rfl⟩, ⟨_, hrelay, rfl, rfl⟩, rfl⟩

end Lint

end Treewalk
