import Treewalk.Number.Shortest
import Treewalk.Text.Quoted

/-!
# Values

What evaluation yields, and its two texts. `Value.inspect` shows a value to a developer: strings
between quotes, symbols behind a colon, lists between brackets. `Value.text` is what interpolation
inserts: the contents of a string, the name of a symbol, nothing for nil, and otherwise what
`inspect` shows. The elements of a list are always inspected.
-/

set_option autoImplicit false

namespace Treewalk

inductive Value where
  | nil
  | bool (value : Bool)
  | int (value : Double)
  | float (value : Double)
  | string (text : String)
  | symbol (name : String)
  | list (elements : List Value)
  deriving Inhabited

namespace Value

/-- Only nil and false count as false. -/
def isTruthy : Value → Bool
  | .nil => false
  | .bool b => b
  | _ => true

/-- A float shows that it is one: a whole number gets a fraction. -/
def floatText (x : Double) : String := if x.isInteger then x.text ++ ".0" else x.text

mutual

def inspect : Value → String
  | .nil => "nil"
  | .bool b => if b then "true" else "false"
  | .int x => x.text
  | .float x => floatText x
  | .string s => Text.quoted s
  | .symbol name => ":" ++ name
  | .list vs => "[" ++ ", ".intercalate (inspectAll vs) ++ "]"

def inspectAll : List Value → List String
  | [] => []
  | v :: vs => inspect v :: inspectAll vs

end

def text : Value → String
  | .nil => ""
  | .string s => s
  | .symbol name => name
  | v => v.inspect

/-- The elements that destructuring hands out: those of a list, or the value itself. -/
def elements : Value → List Value
  | .list vs => vs
  | v => [v]

/-- The method name that a value stands for: a symbol's or a string's text. -/
def methodName? : Value → Option String
  | .symbol name | .string name => some name
  | _ => none

end Value

end Treewalk
