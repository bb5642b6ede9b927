import TaskBasic.Text.Blank
import TaskBasic.Text.Word
import TaskBasic.Text.Alphanumeric
import TaskBasic.Text.Lowercase
import TaskBasic.Text.Quoted
import TaskBasic.Text.Style
import TaskBasic.Number.Shortest
import TaskBasic.Number.Numeral
import TaskBasic.Builtin
import TaskBasic.Token.Scan
import TaskBasic.Expr.Parse
import TaskBasic.Stmt.Parse
import TaskBasic.Code.OfProgram
import TaskBasic.Chunk.Listing
import TaskBasic.Files
import TaskBasic.ModuleCache
import TaskBasic.Console
import TaskBasic.Config.Sources
import TaskBasic.Task
import TaskBasic.Machine.Step
import TaskBasic.World.Tick
import TaskBasic.Session
import TaskBasic.Prompt.Completion
import TaskBasic.Prompt.Highlight
import TaskBasic.Prompt.Dialogue
import TaskBasic.CommandLine
import TaskBasic.Main
import TaskBasic.Proofs.World.WellFormed
import TaskBasic.Proofs.Code.Imports
import TaskBasic.Proofs.World.Lone
import TaskBasic.Proofs.World.Turn
import TaskBasic.Proofs.World.Books
import TaskBasic.Proofs.World.Wakeups
import TaskBasic.Proofs.Code.Bookkeeping
import TaskBasic.Proofs.Code.Anchors
import TaskBasic.Proofs.Code.Copies
import TaskBasic.Proofs.Modules.Waits
import TaskBasic.Proofs.World.Outline
import TaskBasic.Proofs.World.Moves
import TaskBasic.Proofs.Modules.Sound
import TaskBasic.Proofs.World.Loads
import TaskBasic.Proofs.World.Stage
import TaskBasic.Proofs.World.Parked
import TaskBasic.Proofs.World.Join
import TaskBasic.Proofs.World.ImportGraph
import TaskBasic.Proofs.World.Orphans
import TaskBasic.Proofs.Code.Layout
import TaskBasic.Proofs.Chunk.Growth
import TaskBasic.Proofs.Code.Heights
import TaskBasic.Proofs.Code.Balance
import TaskBasic.Proofs.Code.Plan
import TaskBasic.Proofs.Machine.Confined
import TaskBasic.Proofs.Machine.Stacked
import TaskBasic.Proofs.Expr.Meaning
import TaskBasic.Proofs.Machine.Evaluates
import TaskBasic.Proofs.World.Discipline
import TaskBasic.Proofs.Expr.Grammar
import TaskBasic.Proofs.Heap.Literal
import TaskBasic.Proofs.World.RoundTrip
import TaskBasic.Proofs.Prompt.Brackets
import TaskBasic.Proofs.Prompt.Completion
import TaskBasic.Proofs.Prompt.Colours
import TaskBasic.Proofs.Stmt.Ends
import TaskBasic.Proofs.Stmt.Grammar
import TaskBasic.Proofs.Stmt.DataPool
import TaskBasic.Proofs.Stmt.Rendering
import TaskBasic.Proofs.Expr.Precedence
import TaskBasic.Proofs.Token.Literal
import TaskBasic.Proofs.Heap.Grid
import TaskBasic.Proofs.Machine.Calls
import TaskBasic.Proofs.World.Restored
import TaskBasic.Proofs.Number.Exact
