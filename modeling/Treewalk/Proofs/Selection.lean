import Treewalk.Proofs.Linting

/-!
# Choosing rules

What an orderly rule contributes bears its name and does not depend on the other rules, and sorting
is stable. So the diagnostics of some of the rules, as they stand in a run of all, are the run of
these rules alone: `Linter.filter_lint`. All that enabling, disabling, adding or replacing orderly
rules can do follows from that, `selection_commutes`.

A rule that throws something without a text takes the diagnostics of all others with it, and
disabling it brings them back; and what is reported under another rule's name is not disabled with
that rule: `disorderlyRules_lint`.
-/

set_option autoImplicit false

namespace Treewalk.Lint

variable {l : Linter} {root : Node} {s : Selection} {rule : Rule}

namespace Rule.Orderly

theorem rule_of_mem (h : rule.Orderly root) {group : List Diagnostic}
    (hgroup : rule.Contributes s root group) {d : Diagnostic} (hd : d ∈ group) :
    d.rule = rule.name := by
  cases hgroup with
  | reported hrun _ =>
    obtain ⟨f, hf, rfl⟩ := List.mem_map.mp hd
    show f.rule?.getD rule.name = rule.name
    cases hname : f.rule? with
    | none => rfl
    | some name => exact h.named _ hrun f hf name hname
  | failed _ _ => rw [List.mem_singleton.mp hd]

/-- The contribution of a rule is taken or left as a whole. -/
theorem filter_group (h : rule.Orderly root) {group : List Diagnostic}
    (hgroup : rule.Contributes s root group) (p : String → Bool) :
    (group.filter fun d => p d.rule) = if p rule.name then group else [] := by
  split
  · next hp =>
    apply List.filter_eq_self.mpr
    intro d hd
    rw [h.rule_of_mem hgroup hd, hp]
  · next hp =>
    apply List.filter_eq_nil_iff.mpr
    intro d hd
    rw [h.rule_of_mem hgroup hd]
    exact hp

end Rule.Orderly

namespace Linter

/-- The groups of some of the rules are what stands under their names. -/
theorem filter_groups {rules : List Rule} (h : ∀ rule ∈ rules, rule.Orderly root)
    {gs : List (List Diagnostic)} (hgs : List.Forall₂ (Rule.Contributes s root) rules gs)
    (p : String → Bool) :
    ∃ gs', List.Forall₂ (Rule.Contributes s root) (rules.filter fun rule => p rule.name) gs' ∧
      gs'.flatten = gs.flatten.filter fun d => p d.rule := by
  induction hgs with
  | nil => exact ⟨[], .nil, rfl⟩
  | @cons rule group rules gs hgroup _ ih =>
    obtain ⟨gs', hgs', hflatten⟩ := ih fun r hr => h r (List.mem_cons_of_mem rule hr)
    have hfilter := (h rule List.mem_cons_self).filter_group hgroup p
    by_cases hp : p rule.name = true
    · refine ⟨group :: gs', ?_, ?_⟩
      · rw [List.filter_cons_of_pos (by exact hp)]
        exact .cons hgroup hgs'
      · rw [List.flatten_cons, List.flatten_cons, List.filter_append, hfilter, if_pos hp, hflatten]
    · refine ⟨gs', ?_, ?_⟩
      · rw [List.filter_cons_of_neg (by exact hp)]
        exact hgs'
      · rw [List.flatten_cons, List.filter_append, hfilter, if_neg hp, hflatten, List.nil_append]

/-- The diagnostics of some rules in a run of all are the run of those rules. -/
theorem filter_lint (h : ∀ rule ∈ l.rules, rule.Orderly root) (p : String → Bool)
    {ds : List Diagnostic} (hlint : l.lint root s = .ok ds) :
    lint ⟨l.rules.filter fun rule => p rule.name⟩ root s = .ok (ds.filter fun d => p d.rule) := by
  have hpicked : ∀ rule ∈ l.picked s, rule.Orderly root :=
    fun rule hrule => h rule (List.mem_of_mem_filter hrule)
  have hfiltered : picked ⟨l.rules.filter fun rule => p rule.name⟩ s =
      (l.picked s).filter fun rule => p rule.name := by
    simp only [picked, List.filter_filter, Bool.and_comm]
  obtain ⟨gs, hgs, hsort⟩ :=
    (lint_eq_ok_iff fun rule hrule => (hpicked rule hrule).numbers).mp hlint
  obtain ⟨gs', hgs', hflatten⟩ := filter_groups hpicked hgs p
  refine (lint_eq_ok_iff fun rule hrule => ?_).mpr ⟨gs', ?_, ?_⟩
  · rw [hfiltered] at hrule
    exact (hpicked rule (List.mem_of_mem_filter hrule)).numbers
  · rw [hfiltered]
    exact hgs'
  · rw [hflatten]
    exact hsort.filter fun d => p d.rule

theorem exists_lint_of_orderly (h : ∀ rule ∈ l.rules, rule.Orderly root) (s : Selection) :
    ∃ ds, l.lint root s = .ok ds :=
  exists_lint fun rule hrule => (h rule (List.mem_of_mem_filter hrule)).tells

/-- A selection runs the rules it picks as a linter that has no others would. -/
theorem lint_eq_lint_picked (l : Linter) (root : Node) (s : Selection) :
    l.lint root s = lint ⟨l.picked s⟩ root { s with enabled := [], disabled := [] } := by
  have hall : ∀ name, Selection.picks { s with enabled := [], disabled := [] } name = true :=
    fun _ => rfl
  simp only [lint, collect, picked, s.picks_eq, hall, List.filter_true]
  rfl

/-- Selections that pick the same of a linter's rules, with the same severities, run alike. -/
theorem lint_congr {s' : Selection} (hseverities : s.severities = s'.severities)
    (h : ∀ rule ∈ l.rules, (s.Picks rule.name ↔ s'.Picks rule.name)) :
    l.lint root s = l.lint root s' := by
  have hpicked : l.picked s = l.picked s' := by
    apply List.filter_congr
    intro rule hrule
    exact decide_eq_decide.mpr (h rule hrule)
  rw [lint_eq_lint_picked l root s, lint_eq_lint_picked l root s', hpicked, hseverities]

/-- What a selection leaves of a run of all rules. -/
theorem lint_eq_filter (h : ∀ rule ∈ l.rules, rule.Orderly root) (s : Selection) :
    ∃ ds, l.lint root { s with enabled := [], disabled := [] } = .ok ds ∧
      l.lint root s = .ok (ds.filter fun d => s.Picks d.rule) := by
  obtain ⟨ds, hds⟩ := exists_lint_of_orderly h { s with enabled := [], disabled := [] }
  refine ⟨ds, hds, ?_⟩
  rw [lint_eq_lint_picked l root s]
  exact filter_lint h (fun name => decide (s.Picks name)) hds

/-- One more rule, under a new name, adds its own diagnostics and nothing else. -/
theorem filter_lint_add (h : ∀ r ∈ l.rules, r.Orderly root) (hrule : rule.Orderly root)
    (hname : rule.name ∉ l.ruleNames) :
    ∃ ds, (l.add rule).lint root s = .ok ds ∧
      l.lint root s = .ok (ds.filter fun d => d.rule ≠ rule.name) := by
  have hadded : ∀ r ∈ (l.add rule).rules, r.Orderly root := by
    intro r hr
    rcases List.mem_append.mp hr with hr | hr
    · exact h r hr
    · rw [List.mem_singleton.mp hr]
      exact hrule
  have hrules : ((l.add rule).rules.filter fun r => decide (r.name ≠ rule.name)) = l.rules := by
    rw [add, List.filter_append, List.filter_cons_of_neg (by simp), List.filter_nil,
      List.append_nil, List.filter_eq_self]
    intro r hr
    apply decide_eq_true
    intro heq
    exact hname (heq ▸ List.mem_map_of_mem hr)
  obtain ⟨ds, hds⟩ := exists_lint_of_orderly hadded s
  have hothers := filter_lint hadded (fun name => decide (name ≠ rule.name)) hds
  rw [hrules] at hothers
  exact ⟨ds, hds, hothers⟩

/-- What a rule does on a tree shows in the diagnostics under its name only. -/
theorem filter_lint_replace (h : ∀ r ∈ l.rules, r.Orderly root) {other : Rule}
    (hother : other.Orderly root) {before after : List Rule}
    (hrules : l.rules = before ++ rule :: after) (hname : other.name = rule.name) :
    ∃ ds ds', l.lint root s = .ok ds ∧ lint ⟨before ++ other :: after⟩ root s = .ok ds' ∧
      (ds'.filter fun d => d.rule ≠ rule.name) = ds.filter fun d => d.rule ≠ rule.name := by
  have hreplaced : ∀ r ∈ before ++ other :: after, r.Orderly root := by
    intro r hr
    rw [hrules] at h
    simp only [List.mem_append, List.mem_cons] at hr h
    rcases hr with hr | rfl | hr
    · exact h r (.inl hr)
    · exact hother
    · exact h r (.inr (.inr hr))
  obtain ⟨ds, hds⟩ := exists_lint_of_orderly h s
  obtain ⟨ds', hds'⟩ := exists_lint_of_orderly (l := ⟨before ++ other :: after⟩) hreplaced s
  refine ⟨ds, ds', hds, hds', ?_⟩
  -- Both are the run of the rules under other names.
  have hleft := filter_lint h (fun name => decide (name ≠ rule.name)) hds
  have hright := filter_lint hreplaced (fun name => decide (name ≠ rule.name)) hds'
  have hsame : ((before ++ other :: after).filter fun r => decide (r.name ≠ rule.name)) =
      l.rules.filter fun r => decide (r.name ≠ rule.name) := by
    rw [hrules]
    simp [List.filter_append, hname]
  rw [hsame, hleft] at hright
  exact (Except.ok.inj hright).symm

/-- Whether a name is picked shows in the diagnostics under that name only. -/
theorem filter_lint_congr (h : ∀ r ∈ l.rules, r.Orderly root) {s' : Selection}
    {name : String} (hseverities : s.severities = s'.severities)
    (hpicks : ∀ other, other ≠ name → (s.Picks other ↔ s'.Picks other)) :
    ∃ ds ds', l.lint root s = .ok ds ∧ l.lint root s' = .ok ds' ∧
      (ds'.filter fun d => d.rule ≠ name) = ds.filter fun d => d.rule ≠ name := by
  obtain ⟨ds, hds⟩ := exists_lint_of_orderly h s
  obtain ⟨ds', hds'⟩ := exists_lint_of_orderly h s'
  refine ⟨ds, ds', hds, hds', ?_⟩
  have hleft := filter_lint h (fun other => decide (other ≠ name)) hds
  have hright := filter_lint h (fun other => decide (other ≠ name)) hds'
  have hsame : lint ⟨l.rules.filter fun r => decide (r.name ≠ name)⟩ root s =
      lint ⟨l.rules.filter fun r => decide (r.name ≠ name)⟩ root s' := by
    apply lint_congr hseverities
    intro r hr
    exact hpicks r.name (of_decide_eq_true (List.mem_filter.mp hr).2)
  rw [hsame, hright] at hleft
  exact Except.ok.inj hleft

end Linter

/-- **Choosing orderly rules commutes with running them.** What a selection leaves of a run of all
rules is the diagnostics of the rules it picks, in the same order. A rule with a new name adds its
own diagnostics to a run and nothing else; if a rule is replaced by another of its name, or if two
selections differ on one name only, then the runs differ in the diagnostics of that name only. All
these runs end with diagnostics. -/
theorem selection_commutes (l : Linter) (root : Node)
    (h : ∀ rule ∈ l.rules, rule.Orderly root) :
    (∀ s : Selection, ∃ ds, l.lint root { s with enabled := [], disabled := [] } = .ok ds ∧
      l.lint root s = .ok (ds.filter fun d => s.Picks d.rule)) ∧
    (∀ (s : Selection) (rule : Rule), rule.name ∉ l.ruleNames → rule.Orderly root →
      ∃ ds, (l.add rule).lint root s = .ok ds ∧
        l.lint root s = .ok (ds.filter fun d => d.rule ≠ rule.name)) ∧
    (∀ (s : Selection) (before : List Rule) (rule other : Rule) (after : List Rule),
      l.rules = before ++ rule :: after → other.name = rule.name → other.Orderly root →
      ∃ ds ds', l.lint root s = .ok ds ∧
        Linter.lint ⟨before ++ other :: after⟩ root s = .ok ds' ∧
        (ds'.filter fun d => d.rule ≠ rule.name) = ds.filter fun d => d.rule ≠ rule.name) ∧
    ∀ (s s' : Selection) (name : String), s.severities = s'.severities →
      (∀ other, other ≠ name → (s.Picks other ↔ s'.Picks other)) →
      ∃ ds ds', l.lint root s = .ok ds ∧ l.lint root s' = .ok ds' ∧
        (ds'.filter fun d => d.rule ≠ name) = ds.filter fun d => d.rule ≠ name :=
  ⟨Linter.lint_eq_filter h, fun _ _ hname hrule => Linter.filter_lint_add h hrule hname,
    fun _ _ _ _ _ hrules hname hother => Linter.filter_lint_replace h hother hrules hname,
    fun _ _ _ hseverities hpicks => Linter.filter_lint_congr h hseverities hpicks⟩

/-- Enables a rule that fails and disables it again. -/
def farOnly : Selection := ⟨["far", "broken"], ["broken"], .plain [("far", .error)]⟩

/-- The rule that fails is not picked, is replaced by one that works or is disabled, and another
rule is added; the rest of the run stays as it is. -/
theorem mixedRules_commutes :
    let quiet : Rule := { brokenRule with run := fun _ => .ok [] }
    let near : Rule := { farLines with name := "near" }
    (∀ rule ∈ mixedRules.rules, rule.Orderly lateUndef) ∧
      (∃ ds, mixedRules.lint lateUndef { farOnly with enabled := [], disabled := [] } = .ok ds ∧
        mixedRules.lint lateUndef farOnly = .ok (ds.filter fun d => farOnly.Picks d.rule)) ∧
      (∃ ds, (mixedRules.add near).lint lateUndef farOnly = .ok ds ∧
        mixedRules.lint lateUndef farOnly = .ok (ds.filter fun d => d.rule ≠ "near")) ∧
      (∃ ds ds', mixedRules.lint lateUndef .everything = .ok ds ∧
        Linter.lint ⟨farLines :: Linter.standard.rules ++ [quiet, farLines]⟩ lateUndef .everything =
          .ok ds' ∧
        (ds'.filter fun d => d.rule ≠ "broken") = ds.filter fun d => d.rule ≠ "broken") ∧
      ∃ ds ds', mixedRules.lint lateUndef ⟨[], ["broken"], .plain []⟩ = .ok ds ∧
        mixedRules.lint lateUndef .everything = .ok ds' ∧
        (ds'.filter fun d => d.rule ≠ "broken") = ds.filter fun d => d.rule ≠ "broken" := by
  intro quiet near
  have horderly := mixedRules_orderly lateUndef
  obtain ⟨hselect, hadd, hreplace, hdiffer⟩ := selection_commutes mixedRules lateUndef horderly
  have hnear : near.Orderly lateUndef := Rule.orderly_of_run rfl (by simp)
  have hquiet : quiet.Orderly lateUndef := Rule.orderly_of_run rfl (by simp)
  refine ⟨horderly, hselect farOnly, hadd farOnly near (by decide) hnear, ?_, ?_⟩
  · exact hreplace .everything (farLines :: Linter.standard.rules) brokenRule quiet [farLines] rfl
      rfl hquiet
  · apply hdiffer ⟨[], ["broken"], .plain []⟩ .everything "broken" rfl
    intro other hother
    simp [Selection.Picks, Selection.everything, hother]

/-- The rule that throws something without a text leaves no diagnostics of the others; without it
they are there. And what the rule that hands on diagnostics reports as `unreachable-code` is still
reported where that is disabled. -/
theorem disorderlyRules_lint :
    (Linter.standard.add muteRule).lint lateNil .everything = .error (.error "no text") ∧
    (Linter.standard.add muteRule).lint lateNil ⟨[], ["mute"], .plain []⟩ = .ok [lateNilFound] ∧
    ∃ d, Linter.lint ⟨[relayRule]⟩ lateNil ⟨[], ["unreachable-code"], .plain []⟩ = .ok [d] ∧
      d.rule = "unreachable-code" := by
  have hrelay : Linter.lint ⟨[relayRule]⟩ lateNil ⟨[], ["unreachable-code"], .plain []⟩ =
      .ok [lateNilFound] := by
    rw [Linter.lint_singleton (by decide) relayRule_run_lateNil, Diagnostic.diagnostic_finding]
  have hpicked : (Linter.standard.add muteRule).picked ⟨[], ["mute"], .plain []⟩ =
      Linter.standard.picked .everything := rfl
  refine ⟨?_, ?_, _, hrelay, rfl⟩
  · refine Linter.lint_eq_error_iff.mpr ⟨Linter.standard.rules, muteRule, [], rfl, ?_, ?_⟩
    · exact fun rule hrule => (Linter.standard_orderly lateNil rule hrule).tells
    · exact ⟨.mute (.error "no text"), rfl, rfl⟩
  · rw [Linter.lint_eq_lint_picked, hpicked]
    exact standard_lint_lateNil

end Treewalk.Lint
