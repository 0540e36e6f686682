import Treewalk.Lint.Rule

/-!
# The linter

A linter holds rules in the order in which they were registered. `Linter.lint` runs those that a
selection picks and orders what they report by line. The order is stable: on one line, diagnostics
stay in the order of their rules, and those of one rule in the order in which it reported them.

A rule that fails takes no other rule down, as long as what it throws has a text. It contributes one
diagnostic instead of its findings, an error at line 0 of the tree's file. If what it throws has no
text, the whole run fails.
-/

set_option autoImplicit false

namespace Treewalk.Lint

/-- The members that every object has, whatever is written into it. -/
def objectMembers : List String :=
  ["constructor", "__defineGetter__", "__defineSetter__", "hasOwnProperty", "__lookupGetter__",
   "__lookupSetter__", "isPrototypeOf", "propertyIsEnumerable", "toString", "valueOf", "__proto__",
   "toLocaleString"]

/-- Severities by the names of rules. A name that is not written into the table is looked for in
what the table inherits. -/
structure Severities where
  own : List (String × Severity)
  inherited : List (String × Level)

namespace Severities

/-- A table with these entries that is an object like any other. -/
def plain (own : List (String × Severity)) : Severities :=
  ⟨own, objectMembers.map fun name => (name, .member name)⟩

def level? (t : Severities) (name : String) : Option Level :=
  match t.own.lookup name with
  | some severity => some (.of severity)
  | none => t.inherited.lookup name

end Severities

/-- Which rules run, and how severe their findings are. -/
structure Selection where
  /-- Only these rules run; all of them if there are none. -/
  enabled : List String
  /-- These rules do not run, even if they are enabled. -/
  disabled : List String
  /-- Severities in place of those that rules report with. -/
  severities : Severities

namespace Selection

def everything : Selection := ⟨[], [], .plain []⟩

def picks (s : Selection) (name : String) : Bool :=
  !s.disabled.contains name && (s.enabled.isEmpty || s.enabled.contains name)

def levelOf (s : Selection) (rule : Rule) : Level :=
  (s.severities.level? rule.name).getD (.of rule.severity)

end Selection

/-- The diagnostic that a finding becomes. The rule and the level given are for findings that do not
bring their own. -/
def Finding.diagnostic (f : Finding) (rule : String) (level : Level) : Diagnostic :=
  ⟨f.rule?.getD rule, f.level?.getD level, f.message, f.file, f.line⟩

/-- A diagnostic that is handed on comes out as it went in. -/
theorem Diagnostic.diagnostic_finding (d : Diagnostic) (rule : String) (level : Level) :
    d.finding.diagnostic rule level = d := rfl

namespace Rule

/-- The diagnostic that stands for a rule that failed. -/
def failure (rule : Rule) (root : Node) (message : String) : Diagnostic :=
  ⟨rule.name, .of .error, "Rule failed internally: " ++ message, root.location.file, .zero⟩

/-- What a rule adds to a run, or what is thrown where the rule throws something without a text. -/
def diagnostics (rule : Rule) (level : Level) (root : Node) : Except Thrown (List Diagnostic) :=
  match rule.run root with
  | .ok findings => .ok (findings.map (·.diagnostic rule.name level))
  | .error thrown => thrown.text.map fun text => [rule.failure root text]

end Rule

/-- Does the first diagnostic go before the second, or may it stay there? -/
def Diagnostic.notAfter (a b : Diagnostic) : Bool := !b.line.lt a.line

structure Linter where
  rules : List Rule

namespace Linter

def empty : Linter := ⟨[]⟩

def add (l : Linter) (rule : Rule) : Linter := ⟨l.rules ++ [rule]⟩

def ruleNames (l : Linter) : List String := l.rules.map Rule.name

/-- What the rules picked contribute, rule by rule. The first that contributes nothing ends the
run. -/
def collect (l : Linter) (root : Node) (s : Selection) : Except Thrown (List Diagnostic) := do
  let groups ← (l.rules.filter (s.picks ·.name)).mapM fun rule =>
    rule.diagnostics (s.levelOf rule) root
  return groups.flatten

/-- The diagnostics for a tree, by line. -/
def lint (l : Linter) (root : Node) (s : Selection) : Except Thrown (List Diagnostic) := do
  let found ← l.collect root s
  return found.mergeSort Diagnostic.notAfter

end Linter

end Treewalk.Lint
