import Rill.Command.Arguments
import Rill.Command.Perform
import Rill.Command.Report
import Rill.Config.Basic
import Rill.Config.Discovery
import Rill.Decimal.Binary64
import Rill.Decimal.Layout
import Rill.Decimal.Shortest
import Rill.Diagnostic
import Rill.Error
import Rill.Files.Access
import Rill.Files.Path
import Rill.Files.Tree
import Rill.Grammar.Expression
import Rill.Grammar.Parser
import Rill.Grammar.Program
import Rill.Grammar.Statement
import Rill.Grammar.Table
import Rill.Main
import Rill.Proofs.Shape
import Rill.Proofs.Stream
import Rill.Proofs.Written
import Rill.Run.Env
import Rill.Run.Eval
import Rill.Run.Outcome
import Rill.Run.Program
import Rill.Run.Sink
import Rill.Run.Stack
import Rill.Source.Buffer
import Rill.Source.Cursor
import Rill.Source.Position
import Rill.Syntax.Builtin
import Rill.Syntax.Edit
import Rill.Syntax.Mention
import Rill.Syntax.Operator
import Rill.Syntax.Outline
import Rill.Syntax.Scopes
import Rill.Syntax.Tree
import Rill.Text.Alphabetic
import Rill.Text.Class
import Rill.Text.Hidden
import Rill.Text.Json
import Rill.Text.Numeric
import Rill.Text.Quoted
import Rill.Token.Basic
import Rill.Token.Filter
import Rill.Token.Json
import Rill.Token.Number
import Rill.Token.Scan
import Rill.Toml.Document
import Rill.Toml.Reader
import Rill.Value.Basic
import Rill.Value.Fault
import Rill.Value.Operation
import Rill.Proofs.ExpressionSound
import Rill.Proofs.ExpressionComplete
import Rill.Proofs.Precedence
import Rill.Proofs.StatementSound
import Rill.Proofs.Lines
import Rill.Proofs.StatementComplete
import Rill.Proofs.Script
import Rill.Proofs.Agreement
import Rill.Proofs.ProgramAgreement
import Rill.Proofs.RunRelabel
import Rill.Proofs.Wording
import Rill.Proofs.Layout
import Rill.Proofs.Balance
import Rill.Proofs.CallResult
import Rill.Proofs.Places
import Rill.Proofs.Extent
import Rill.Proofs.Closure
import Rill.Proofs.Steady
import Rill.Proofs.ParsePlaces
import Rill.Proofs.RunPlaces
import Rill.Proofs.Marks
import Rill.Proofs.Mirror
import Rill.Proofs.MoreSteps
import Rill.Proofs.Onward
import Rill.Proofs.Joined
import Rill.Proofs.Globals
import Rill.Proofs.Modes
import Rill.Proofs.Boundaries
import Rill.Proofs.LexErrors
import Rill.Proofs.Composed
import Rill.Proofs.CallLimit
import Rill.Proofs.Contract
import Rill.Proofs.LoopFree
import Rill.Proofs.Moves
import Rill.Proofs.Progress
import Rill.Proofs.Operations
import Rill.Proofs.History
import Rill.Proofs.Constants
import Rill.Proofs.Pieces
import Rill.Proofs.Reread
import Rill.Proofs.Conduct
import Rill.Proofs.Jumps
import Rill.Proofs.Lockstep
import Rill.Proofs.DeclarationOrder
import Rill.Proofs.Erasure
import Rill.Proofs.Truncation
import Rill.Proofs.Literals
import Rill.Proofs.Respacing
import Rill.Proofs.LongestMatch
import Rill.Proofs.Rounding
import Rill.Proofs.NumberWords
import Rill.Proofs.NumberExtent
import Rill.Proofs.DeclarationsOnly
import Rill.Proofs.ScopeLookup
import Rill.Proofs.Roles
import Rill.Proofs.Names
import Rill.Proofs.VisitOrder
import Rill.Proofs.OutlineLines
import Rill.Proofs.HiddenFrame
import Rill.Proofs.Replacement
import Rill.Proofs.ForLoops
import Rill.Proofs.SwitchChain
import Rill.Proofs.CompoundAssignment
import Rill.Proofs.OperatorDomain
import Rill.Proofs.IntegerArithmetic
import Rill.Proofs.EncodingOrder
import Rill.Proofs.ValueOrder
import Rill.Proofs.Characters
import Rill.Proofs.Columns
import Rill.Proofs.SingleSteps
import Rill.Proofs.Entries
import Rill.Proofs.DirectoryCheck
import Rill.Proofs.Filtering
