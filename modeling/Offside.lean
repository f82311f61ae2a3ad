import Offside.Text
import Offside.Number.Shortest
import Offside.Diagnostic
import Offside.Token
import Offside.Piece
import Offside.Layout
import Offside.Tree
import Offside.Tree.Listing
import Offside.Grammar
import Offside.Scope
import Offside.Value
import Offside.Store
import Offside.Machine
import Offside.Eval
import Offside.Session
import Offside.Text.GraphemeExtend
import Offside.Text.EastAsianWide
import Offside.Text.Width
import Offside.Report
import Offside.Entry
import Offside.Folder
import Offside.Command
import Offside.Main
import Offside.Proofs.Marks
import Offside.Proofs.Operators
import Offside.Proofs.Tracking
import Offside.Proofs.Scanning
import Offside.Proofs.Frames
import Offside.Proofs.Lockstep.Relation
import Offside.Proofs.Lockstep.Store
import Offside.Proofs.Lockstep.Evaluation
import Offside.Proofs.References
import Offside.Proofs.Renaming
import Offside.Proofs.Compiling
import Offside.Proofs.Agreement
import Offside.Proofs.Grammar.Derivation
import Offside.Proofs.Grammar.Yields
import Offside.Proofs.Grammar.Soundness
import Offside.Proofs.Grammar.Completeness
import Offside.Proofs.Backtrace
import Offside.Proofs.Attribution
import Offside.Proofs.Alpha
import Offside.Proofs.Visibility
import Offside.Proofs.Distances
import Offside.Proofs.Relocation
import Offside.Proofs.Phases
import Offside.Proofs.Points
import Offside.Proofs.Accounting
import Offside.Proofs.Discipline
import Offside.Proofs.Recursion
import Offside.Proofs.Nesting
import Offside.Proofs.Pieces
import Offside.Proofs.Lines
import Offside.Proofs.Levels
import Offside.Proofs.OffsideRule
import Offside.Proofs.Coverage
import Offside.Proofs.Spelling
import Offside.Proofs.Grammar.Relabeling
import Offside.Proofs.Grammar.Rebuilding
import Offside.Proofs.Rendering
import Offside.Proofs.Transport
import Offside.Proofs.Grammar.Naturality
import Offside.Proofs.Concatenation
import Offside.Proofs.Joining
import Offside.Proofs.Insertion
import Offside.Proofs.Invisible
import Offside.Proofs.Grammar.Locality
import Offside.Proofs.Grammar.Skipping
import Offside.Proofs.Grammar.Isolation
import Offside.Proofs.Highlighting
import Offside.Proofs.Grammar.Taking
import Offside.Proofs.Grammar.Bounds
import Offside.Proofs.Grammar.Progress
import Offside.Proofs.Literals
import Offside.Proofs.Truncation
import Offside.Proofs.Wrapping
import Offside.Proofs.TabWidth
import Offside.Proofs.Coloring
import Offside.Proofs.Counting
import Offside.Proofs.Fuel
import Offside.Proofs.Repetition
import Offside.Proofs.Unwinding
import Offside.Proofs.Grammar.Headers
import Offside.Proofs.LineEndings
import Offside.Proofs.Reporting
import Offside.Proofs.Rounding
import Offside.Proofs.Numerals
