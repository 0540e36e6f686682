/-!
# Node kinds

The closed set of kinds of syntax node, the keywords that jump and the two sorts of scope with
their names. Every kind has one name, and `Kind.ofName?` finds a kind by it.
-/

set_option autoImplicit false

namespace Treewalk

inductive Kind where
  | nilLit
  | trueLit
  | falseLit
  | int
  | float
  | str
  | dstr
  | symbol
  | dsymbol
  | literal
  | array
  | localVar
  | localAssign
  | multiAssign
  | block
  | newline
  | whileLoop
  | brk
  | next
  | ret
  | defined
  | args
  | define
  | call
  | klass
  | module
  | undef
  | aliasName
  deriving DecidableEq, Repr

/-- The statements that transfer control. -/
inductive Keyword where
  | brk
  | next
  | ret
  deriving DecidableEq, Repr

/-- The two sorts of scope that hold methods. -/
inductive ScopeSort where
  | klass
  | module
  deriving DecidableEq, Repr

namespace Kind

/-- Every kind: literals, variables, statements, definitions. -/
def all : List Kind :=
  [.nilLit, .trueLit, .falseLit, .int, .float, .str, .dstr, .symbol, .dsymbol, .literal, .array,
   .localVar, .localAssign, .multiAssign,
   .block, .newline, .whileLoop, .brk, .next, .ret, .defined,
   .args, .define, .call, .klass, .module, .undef, .aliasName]

def name : Kind → String
  | .nilLit => "Nil"
  | .trueLit => "True"
  | .falseLit => "False"
  | .int => "Int"
  | .float => "Float"
  | .str => "Str"
  | .dstr => "DStr"
  | .symbol => "Symbol"
  | .dsymbol => "DSymbol"
  | .literal => "Literal"
  | .array => "Array"
  | .localVar => "LocalVar"
  | .localAssign => "LocalAsgn"
  | .multiAssign => "MultipleAsgn"
  | .block => "Block"
  | .newline => "Newline"
  | .whileLoop => "While"
  | .brk => "Break"
  | .next => "Next"
  | .ret => "Return"
  | .defined => "Defined"
  | .args => "Args"
  | .define => "Def"
  | .call => "Call"
  | .klass => "Class"
  | .module => "Module"
  | .undef => "Undef"
  | .aliasName => "Alias"

def ofName? (s : String) : Option Kind := all.find? (·.name = s)

/-- A kind with no surface form of its own. -/
def isInvisible (k : Kind) : Bool := k = .newline

theorem mem_all (k : Kind) : k ∈ all := by cases k <;> decide

@[simp] theorem ofName?_name (k : Kind) : ofName? k.name = some k := by cases k <;> decide

theorem name_injective {j k : Kind} (h : j.name = k.name) : j = k := by
  have hk := congrArg ofName? h
  simpa using hk

end Kind

namespace Keyword

def name : Keyword → String
  | .brk => "break"
  | .next => "next"
  | .ret => "return"

def kind : Keyword → Kind
  | .brk => .brk
  | .next => .next
  | .ret => .ret

end Keyword

namespace ScopeSort

def name : ScopeSort → String
  | .klass => "class"
  | .module => "module"

def kind : ScopeSort → Kind
  | .klass => .klass
  | .module => .module

end ScopeSort

structure ScopeName where
  sort : ScopeSort
  name : String
  deriving DecidableEq, Repr

/-- The sort and the quoted name, as messages show them. -/
def ScopeName.describe (s : ScopeName) : String := s.sort.name ++ " '" ++ s.name ++ "'"

end Treewalk
