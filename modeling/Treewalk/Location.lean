import Treewalk.Number.Shortest

/-!
# Source locations

Where a construct starts: a file with a name and a line. Lines are numbers as a parser reports
them, so a line is a `Double`; that it is a whole number and not negative is part of the type.
-/

set_option autoImplicit false

namespace Treewalk

/-- Can this number be a line? Negative zero counts as zero. -/
def Double.isLine (x : Double) : Bool := x.isInteger && !x.isNegative

/-- The place where a construct starts. -/
structure Location where
  file : String
  line : Double
  file_ne_empty : file ≠ ""
  line_isLine : line.isLine = true
  deriving DecidableEq

namespace Location

/-- Why a file and a line are no location. -/
inductive Defect where
  | emptyFile
  | notALine (file : String) (line : Double)
  deriving DecidableEq

def Defect.message : Defect → String
  | .emptyFile => "Source location requires a file name"
  | .notALine file line => s!"Invalid start line for {file}: {line}"

/-- A location, checked. The file's name is looked at first. -/
def make (file : String) (line : Double) : Except Defect Location :=
  if hf : file = "" then .error .emptyFile
  else if hl : line.isLine = true then .ok ⟨file, line, hf, hl⟩
  else .error (.notALine file line)

def describe (l : Location) : String := s!"{l.file}:{l.line}"

instance : ToString Location := ⟨describe⟩

end Location

end Treewalk
