import Treewalk.Eval.Run
import Treewalk.Lint.Standard
import Treewalk.Syntax.Build
import Treewalk.Syntax.Debug
import Treewalk.Syntax.Sequence
import Treewalk.Syntax.Visitor
import Treewalk.Proofs.Step
import Treewalk.Proofs.Journal
import Treewalk.Proofs.Contract
import Treewalk.Proofs.Balance
import Treewalk.Proofs.Scopes
import Treewalk.Proofs.Reach
import Treewalk.Proofs.Evaluable
import Treewalk.Proofs.Simulation
import Treewalk.Proofs.Sharing
import Treewalk.Proofs.Fuel
import Treewalk.Proofs.Occurs
import Treewalk.Proofs.Termination
import Treewalk.Proofs.Bodies
import Treewalk.Proofs.Prune
import Treewalk.Proofs.CallLimit
import Treewalk.Proofs.Jumps
import Treewalk.Proofs.Locals
import Treewalk.Proofs.TopLevel
import Treewalk.Proofs.OutsideDefinition
import Treewalk.Proofs.Converse
import Treewalk.Proofs.LineBreaks
import Treewalk.Proofs.Footprint
import Treewalk.Proofs.Visible
import Treewalk.Proofs.Failure
import Treewalk.Proofs.Repositioning
import Treewalk.Proofs.Warnings
import Treewalk.Proofs.MethodTables
import Treewalk.Proofs.Replay
import Treewalk.Proofs.Resolution
import Treewalk.Proofs.Destructuring
import Treewalk.Proofs.CallProtocol
import Treewalk.Proofs.Openings
import Treewalk.Proofs.Constants
import Treewalk.Proofs.StableSort
import Treewalk.Proofs.Linting
import Treewalk.Proofs.Selection
import Treewalk.Proofs.Addresses
import Treewalk.Proofs.Walks
import Treewalk.Proofs.UnreachableCode
import Treewalk.Proofs.Numerals
import Treewalk.Proofs.Rounding
import Treewalk.Proofs.Shortest
import Treewalk.Proofs.NumberText
import Treewalk.Proofs.FloatText
import Treewalk.Proofs.Delimiters
import Treewalk.Proofs.Inspection
import Treewalk.Proofs.Outline
import Treewalk.Proofs.Sequences
