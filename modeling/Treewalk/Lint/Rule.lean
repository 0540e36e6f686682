import Treewalk.Syntax.Node

/-!
# Rules and what they report

A rule looks at a tree and reports findings, or fails with whatever it throws. A diagnostic is a
finding together with the rule that reported it and how severe it is. What a finding itself says
about either of the two stays with it, so a rule can hand on the diagnostics of another linter.
-/

set_option autoImplicit false

namespace Treewalk.Lint

inductive Severity where
  | error
  | warning
  | info
  deriving DecidableEq, Repr

namespace Severity

/-- Every severity, the gravest first. -/
def all : List Severity := [.error, .warning, .info]

def name : Severity → String
  | .error => "error"
  | .warning => "warning"
  | .info => "info"

def ofName? (s : String) : Option Severity := all.find? (·.name = s)

/-- The short form in front of a message. -/
def tag : Severity → String
  | .warning => "warn"
  | s => s.name

end Severity

/-- What stands in a diagnostic where its severity belongs. -/
inductive Level where
  | of (severity : Severity)
  /-- The member of this name that every object has, read where a severity was looked for. -/
  | member (name : String)
  deriving DecidableEq, Repr

/-- The short form in front of a message. There is none for what is no severity. -/
def Level.tag : Level → String
  | .of severity => severity.tag
  | .member _ => "undefined"

/-- What a rule reports. A rule may report any number as a line. -/
structure Finding where
  message : String
  file : String
  line : Double
  /-- The rule that the finding says it is from, if it says so. -/
  rule? : Option String := none
  /-- How severe the finding says it is, if it does. -/
  level? : Option Level := none

def Finding.on (n : Node) (message : String) : Finding :=
  { message, file := n.location.file, line := n.location.line }

/-- What a rule throws instead of reporting anything. -/
inductive Thrown where
  | error (message : String)
  /-- A value that is no error, and the text it is turned into. -/
  | value (text : String)
  /-- A value without a text, or an error with a message that has none. Turning it into a text throws
  something else. -/
  | mute (instead : Thrown)
  deriving DecidableEq, Repr

/-- What it says: the message of an error, the text of anything else. -/
def Thrown.text : Thrown → Except Thrown String
  | .error message => .ok message
  | .value text => .ok text
  | .mute instead => .error instead

structure Rule where
  name : String
  description : String
  /-- How severe its findings are, unless they or a selection say otherwise. -/
  severity : Severity
  run : Node → Except Thrown (List Finding)

structure Diagnostic where
  rule : String
  severity : Level
  message : String
  file : String
  line : Double

/-- The finding of a rule that hands a diagnostic on. -/
def Diagnostic.finding (d : Diagnostic) : Finding :=
  ⟨d.message, d.file, d.line, some d.rule, some d.severity⟩

def Diagnostic.format (d : Diagnostic) : String :=
  s!"  {d.file}:{d.line}  {d.severity.tag}  {d.message}  ({d.rule})"

end Treewalk.Lint
