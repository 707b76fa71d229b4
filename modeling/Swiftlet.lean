import Swiftlet.Highlight
import Swiftlet.IR.Edit
import Swiftlet.Main
import Swiftlet.Proofs.IR.Faithful
import Swiftlet.Proofs.Resolution
import Swiftlet.Sandbox
import Swiftlet.Proofs.Parsing.Grammar
import Swiftlet.Proofs.Parsing.Reading
import Swiftlet.Proofs.Parsing.Acceptance
import Swiftlet.Proofs.Parsing.Printing
import Swiftlet.Proofs.Parsing.RoundTrip
import Swiftlet.Proofs.Parsing.Refusal
import Swiftlet.Proofs.Lexing.Partition
import Swiftlet.Proofs.Run.Stepping
import Swiftlet.Proofs.IR.Blocks
import Swiftlet.Proofs.IR.Dominance
import Swiftlet.Proofs.IR.Problems
import Swiftlet.Proofs.IR.WellFormed
import Swiftlet.Proofs.Run.Eager
import Swiftlet.Proofs.IR.Symbols
import Swiftlet.Proofs.IR.Strings
import Swiftlet.Proofs.CSource.Types
import Swiftlet.Proofs.Typing.Repeated
import Swiftlet.Proofs.Lexing.Refusal
import Swiftlet.Proofs.Source.Excerpt
import Swiftlet.Proofs.Diagnostics
import Swiftlet.Proofs.Run.Nesting
import Swiftlet.Proofs.Run.Arguments
import Swiftlet.Proofs.Reordering
import Swiftlet.Proofs.Trimming
import Swiftlet.Proofs.Typing.Filling
import Swiftlet.Proofs.Session
import Swiftlet.Proofs.CSource.Literals
import Swiftlet.Proofs.CSource.Expressions
import Swiftlet.Proofs.CSource.Declared
import Swiftlet.Proofs.Run.Completion
import Swiftlet.Proofs.Run.Results
import Swiftlet.Proofs.Run.Cutoff
import Swiftlet.Proofs.Lexing.Lines
import Swiftlet.Proofs.Highlight
import Swiftlet.Proofs.Run.Exactness
import Swiftlet.Proofs.Config
import Swiftlet.Proofs.Source.Bounds
