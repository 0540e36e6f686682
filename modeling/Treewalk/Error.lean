import Treewalk.Kind
import Treewalk.Location
import Treewalk.Value

/-!
# Errors and jump signals

Two families of failure and one of control transfer.

* A `Misuse` is a malformed tree or a wrong use of the tree's interface; no program in the
  language can bring one about on a well-formed tree.
* A `Fault` is a failure of a program: an unbound name, a call with too many arguments, a change
  to a frozen class. It has a place in the source, when one is known.
* A `Signal` is a jump on its way to whatever receives it, and is no error.

Errors are kept as causes. The wording of each cause stands once, in `Misuse.message` and
`Fault.detail`; the class of each in `Misuse.errorClass` and `Fault.sort`.
-/

set_option autoImplicit false

namespace Treewalk

/-! ## Classes -/

inductive ErrorClass where
  | base
  | internal
  | unsupported
  | index
  | config
  | runtime
  | type
  | name
  | noMethod
  | argument
  | frozen
  | localJump
  deriving DecidableEq, Repr

namespace ErrorClass

/-- Every class, the general ones before those they include. -/
def all : List ErrorClass :=
  [.base, .internal, .unsupported, .index, .config, .runtime, .type, .name, .noMethod, .argument,
   .frozen, .localJump]

/-- A class and the classes that include it, the narrowest first. -/
def lineage : ErrorClass → List ErrorClass
  | .base => [.base]
  | .internal => [.internal, .base]
  | .unsupported => [.unsupported, .internal, .base]
  | .index => [.index, .internal, .base]
  | .config => [.config, .base]
  | .runtime => [.runtime, .base]
  | .type => [.type, .runtime, .base]
  | .name => [.name, .runtime, .base]
  | .noMethod => [.noMethod, .name, .runtime, .base]
  | .argument => [.argument, .runtime, .base]
  | .frozen => [.frozen, .runtime, .base]
  | .localJump => [.localJump, .runtime, .base]

/-- Is an error of the first class also one of the second? -/
def within (c d : ErrorClass) : Bool := c.lineage.contains d

end ErrorClass

/-! ## Misuse -/

/-- A malformed tree, or a wrong use of the tree's interface. -/
inductive Misuse where
  | location (defect : Location.Defect)
  | missingLocation
  | notInteger (value : Double)
  | notEvaluable (kind : Kind)
  | notAssignable (kind : Kind)
  | noValue (name : String)
  | noDestructuredValue
  | unknownKind (kind : String) (location : Location)
  | unsupported (operation : String)
  | index (index : Double) (size : Nat)
  | range (first past : Double) (size : Nat)
  /-- A misuse described in words alone. -/
  | stated (message : String)
  /-- An index error described in words alone. -/
  | statedIndex (message : String)

namespace Misuse

/-- A node of unknown kind, with its fields by name. -/
def unknownNodeText (kind : String) (place : Location) : String :=
  let file := Text.quoted place.file
  "\x7b\"kind\":" ++ Text.quoted kind ++ ",\"location\":\x7b\"file\":" ++ file
    ++ ",\"startLine\":" ++ place.line.text ++ "\x7d\x7d"

def message : Misuse → String
  | .location defect => defect.message
  | .missingLocation => "Node constructed without a source location"
  | .notInteger value => s!"Int node requires an integer, got {value}"
  | .notEvaluable kind => s!"Invalid node for evaluation: {kind.name}"
  | .notAssignable kind => s!"Invalid assignment target: {kind.name}"
  | .noValue name => s!"Assignment to '{name}' has no value to evaluate"
  | .noDestructuredValue => "Destructuring assignment has no value to evaluate"
  | .unknownKind kind place => "Unhandled node: " ++ unknownNodeText kind place
  | .unsupported operation => s!"'{operation}' is not supported on a node sequence"
  | .index i size => s!"Index: {i}, Size: {size}"
  | .range first past size => s!"From: {first}, To: {past}, Size: {size}"
  | .stated message | .statedIndex message => message

def errorClass : Misuse → ErrorClass
  | .unsupported _ => .unsupported
  | .index .. | .range .. | .statedIndex _ => .index
  | _ => .internal

end Misuse

/-! ## Faults -/

/-- The sorts of fault. Those about a missing name hold it. -/
inductive FaultSort where
  | runtime
  | type
  | name (missing : String)
  | noMethod (missing : String)
  | argument
  | frozen
  | localJump
  deriving DecidableEq, Repr

namespace FaultSort

def errorClass : FaultSort → ErrorClass
  | .runtime => .runtime
  | .type => .type
  | .name _ => .name
  | .noMethod _ => .noMethod
  | .argument => .argument
  | .frozen => .frozen
  | .localJump => .localJump

/-- The word that starts the message of a fault of this sort. -/
def label : FaultSort → String
  | .runtime => "RuntimeError"
  | .type => "TypeError"
  | .name _ => "NameError"
  | .noMethod _ => "NoMethodError"
  | .argument => "ArgumentError"
  | .frozen => "FrozenError"
  | .localJump => "LocalJumpError"

def missing? : FaultSort → Option String
  | .name missing | .noMethod missing => some missing
  | _ => none

end FaultSort

inductive Fault where
  | noScopeToDefine (name : String)
  /-- The name is known where it is spelled out. -/
  | noScopeToUndef (name : Option String)
  | noScopeToAlias
  | notAName (value : Value)
  | wrongSort (name : String) (sort : ScopeSort)
  | unboundLocal (name : String)
  | undefinedMethod (name : String) (scope : ScopeName)
  /-- A call to a method that its receiver lacks; without a scope the receiver is `main`. -/
  | noMethod (name : String) (receiver : Option ScopeName)
  | arity (given expected : Double)
  | frozen (scope : ScopeName)
  | tooDeep
  | unexpectedJump (keyword : String)
  /-- A fault described in words alone, with a label of its own. -/
  | stated (sort : FaultSort) (label detail : String)

namespace Fault

def sort : Fault → FaultSort
  | .noScopeToDefine _ | .noScopeToUndef _ | .noScopeToAlias | .notAName _ | .wrongSort .. => .type
  | .unboundLocal name | .undefinedMethod name _ => .name name
  | .noMethod name _ => .noMethod name
  | .arity .. => .argument
  | .frozen _ => .frozen
  | .tooDeep => .runtime
  | .unexpectedJump _ => .localJump
  | .stated sort _ _ => sort

def label : Fault → String
  | .stated _ label _ => label
  | f => f.sort.label

/-- The wording of a fault, without its label and place. -/
def detail : Fault → String
  | .noScopeToDefine name => s!"No class to add method '{name}' to"
  | .noScopeToUndef (some name) => s!"No class to undef method '{name}'."
  | .noScopeToUndef none => "No class to undef method."
  | .noScopeToAlias => "No class to make alias"
  | .notAName value => s!"{value.inspect} is not a symbol nor a string"
  | .wrongSort name sort => s!"'{name}' is not a {sort.name}"
  | .unboundLocal name => s!"undefined local variable '{name}'"
  | .undefinedMethod name scope => s!"undefined method '{name}' for {scope.describe}"
  | .noMethod name (some scope) => s!"undefined method '{name}' for {scope.describe}"
  | .noMethod name none => s!"undefined method '{name}' for main"
  | .arity given expected => s!"wrong number of arguments (given {given}, expected {expected})"
  | .frozen scope => s!"can't modify frozen {scope.describe}"
  | .tooDeep => "stack level too deep"
  | .unexpectedJump keyword => s!"unexpected {keyword}"
  | .stated _ _ detail => detail

end Fault

/-! ## Errors -/

/-- A failure of either family, or one of the evaluator's configuration. -/
inductive Error where
  /-- An error described in words alone. -/
  | stated (message : String)
  | config (issues : List String)
  | misuse (cause : Misuse)
  | fault (cause : Fault) (location : Option Location)

namespace Error

def errorClass : Error → ErrorClass
  | .stated _ => .base
  | .config _ => .config
  | .misuse cause => cause.errorClass
  | .fault cause _ => cause.sort.errorClass

/-- A place between brackets, for the start of a message. -/
def placeText : Option Location → String
  | none => ""
  | some l => s!" [{l}]"

def message : Error → String
  | .stated message => message
  | .config issues => "Invalid interpreter options: " ++ "; ".intercalate issues
  | .misuse cause => cause.message
  | .fault cause location => cause.label ++ placeText location ++ ": " ++ cause.detail

def fault? : Error → Option (Fault × Option Location)
  | .fault cause location => some (cause, location)
  | _ => none

end Error

/-! ## Jumps -/

/-- A jump under way: the keyword that raised it, the value it carries and where it was raised. -/
structure Signal where
  keyword : Keyword
  value : Value
  location : Option Location

end Treewalk
