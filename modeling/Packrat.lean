import Packrat.Command.Run
import Packrat.Cursor.Walk
import Packrat.Main
import Packrat.NodeId
import Packrat.Proofs.Arithmetic
import Packrat.Proofs.Audit
import Packrat.Proofs.Caching
import Packrat.Proofs.Csv.Language
import Packrat.Proofs.Cut
import Packrat.Proofs.Expression.Display
import Packrat.Proofs.FoldRule
import Packrat.Proofs.Json.Print
import Packrat.Proofs.Json.Spelling
import Packrat.Proofs.Longest
import Packrat.Proofs.OperatorTable
import Packrat.Proofs.Precedence
import Packrat.Proofs.Repetition
import Packrat.Proofs.Reuse
import Packrat.Proofs.Sums.Descent
import Packrat.Proofs.Termination
import Packrat.Proofs.Trace
import Packrat.Proofs.Tracing
import Packrat.Proofs.Yield
import Packrat.Trace.Editing
import Packrat.Workbench.Step
