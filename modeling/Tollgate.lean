import Tollgate.Json.Printer
import Tollgate.Json.Reader
import Tollgate.Expr.Scan
import Tollgate.Expr.Evaluator
import Tollgate.Definition.Document
import Tollgate.Definition.Store
import Tollgate.Plan.Cache
import Tollgate.Risk.Document
import Tollgate.Engine.Arithmetic
import Tollgate.Engine.Registry
import Tollgate.Engine.Retry
import Tollgate.Engine.Rehearsal
import Tollgate.Run.Config
import Tollgate.Run.Context
import Tollgate.Run.Session
import Tollgate.Command.Transcript
import Tollgate.Main
import Tollgate.Run.Timeline
import Tollgate.Proofs.Number.Amount
import Tollgate.Proofs.Plan.Soundness
import Tollgate.Proofs.Plan.Levelling
import Tollgate.Proofs.Run.Pool
import Tollgate.Proofs.Json.Fields
import Tollgate.Proofs.Run.Level
import Tollgate.Proofs.Run.Stage
import Tollgate.Proofs.Risk.Routing
import Tollgate.Proofs.Definition.Accepted
import Tollgate.Proofs.Run.Course
import Tollgate.Proofs.Json.Text
import Tollgate.Proofs.Plan.Cache
import Tollgate.Proofs.Run.Session
import Tollgate.Proofs.Run.Outcome
import Tollgate.Proofs.Audit.Trail
import Tollgate.Proofs.Run.Termination
import Tollgate.Proofs.Expr.Scan
import Tollgate.Proofs.Expr.Variables
import Tollgate.Proofs.Expr.Template
import Tollgate.Proofs.Run.Visibility
import Tollgate.Proofs.Run.Sequence
import Tollgate.Proofs.Expr.Grammar
import Tollgate.Proofs.Expr.Reading
import Tollgate.Proofs.Expr.Sentence
import Tollgate.Proofs.Expr.Occurrence
import Tollgate.Proofs.Plan.Validity
import Tollgate.Proofs.Run.Scheduling
import Tollgate.Proofs.Run.Barrier
import Tollgate.Proofs.Expr.Trimming
import Tollgate.Proofs.Definition.Conditions
import Tollgate.Proofs.Plan.Search
import Tollgate.Proofs.Plan.Analysis
import Tollgate.Proofs.Run.Consideration
import Tollgate.Proofs.Document.Record
import Tollgate.Proofs.Definition.Document
import Tollgate.Proofs.Plan.History
import Tollgate.Proofs.Run.Preparation
import Tollgate.Proofs.Expr.Excerpt
import Tollgate.Proofs.Text.Digits
import Tollgate.Proofs.Json.Numeral
import Tollgate.Proofs.Json.Reading
import Tollgate.Proofs.Document.Written
import Tollgate.Proofs.Clock.Calendar
import Tollgate.Proofs.Clock.Rfc3339
import Tollgate.Proofs.Audit.Entry
import Tollgate.Proofs.Audit.Log
import Tollgate.Proofs.Plan.Circuits
import Tollgate.Proofs.Risk.Monotone
import Tollgate.Proofs.Risk.Verdict
import Tollgate.Proofs.Plan.Depth
import Tollgate.Proofs.Plan.CriticalPath
import Tollgate.Proofs.Plan.Reachability
import Tollgate.Proofs.Plan.Listing
import Tollgate.Proofs.Engine.Retry
import Tollgate.Proofs.Number.Nearest
import Tollgate.Proofs.Number.Operations
import Tollgate.Proofs.Number.Decimal
import Tollgate.Proofs.Number.Order
import Tollgate.Proofs.Number.Product
import Tollgate.Proofs.Number.Numeral
import Tollgate.Proofs.Engine.Backoff
import Tollgate.Proofs.Expr.Comparison
import Tollgate.Proofs.Expr.Literal
import Tollgate.Proofs.Run.ErrorPolicy
import Tollgate.Proofs.Expr.History
import Tollgate.Proofs.Run.Commits
import Tollgate.Proofs.Expr.Splitting
import Tollgate.Proofs.Number.Computed
import Tollgate.Proofs.Expr.Sums
import Tollgate.Proofs.Engine.Arithmetic
import Tollgate.Proofs.Risk.Message
import Tollgate.Proofs.Text.Lines
import Tollgate.Proofs.Run.Chart
import Tollgate.Proofs.Number.Score
import Tollgate.Proofs.Risk.Assessment
import Tollgate.Proofs.Expr.Phrase
import Tollgate.Proofs.Expr.Layout
import Tollgate.Proofs.Expr.Cursor
import Tollgate.Proofs.Expr.Standalone
