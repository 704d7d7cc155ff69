import TreeWalk.Main
import TreeWalk.Console.History
import TreeWalk.Proofs.Grammar.Derivation
import TreeWalk.Proofs.Grammar.Statement
import TreeWalk.Proofs.Grammar.Acceptance
import TreeWalk.Proofs.Grammar.Sentence
import TreeWalk.Proofs.Grammar.Program
import TreeWalk.Proofs.Grammar.Chunk
import TreeWalk.Proofs.Lexis.LongestMatch
import TreeWalk.Proofs.Lexis.Seam
import TreeWalk.Proofs.Grammar.WellFormed
import TreeWalk.Proofs.Semantics.Stops
import TreeWalk.Proofs.Console.Safety
import TreeWalk.Proofs.Console.Joined
import TreeWalk.Proofs.Console.Reports
import TreeWalk.Proofs.Grammar.Provenance
import TreeWalk.Proofs.Console.Places
import TreeWalk.Proofs.Semantics.Flat
import TreeWalk.Proofs.Text.Sink
import TreeWalk.Proofs.Semantics.Output
import TreeWalk.Proofs.Grammar.Viable
import TreeWalk.Proofs.Lexis.Lines
import TreeWalk.Proofs.Lexis.Layout
import TreeWalk.Proofs.Console.Layout
import TreeWalk.Proofs.Console.InputLines
import TreeWalk.Proofs.Console.Output
import TreeWalk.Proofs.Console.Prompt
import TreeWalk.Proofs.Console.Limited
import TreeWalk.Proofs.Console.Rejected
import TreeWalk.Proofs.Semantics.Declared
import TreeWalk.Proofs.Lexis.Rendering
import TreeWalk.Proofs.Text.Rounding
import TreeWalk.Proofs.Text.Packing
import TreeWalk.Proofs.Text.Decimal
import TreeWalk.Proofs.Text.Numeral
import TreeWalk.Proofs.Console.Literal
import TreeWalk.Proofs.Text.Shortest
import TreeWalk.Proofs.Grammar.Bracketing
import TreeWalk.Proofs.Semantics.Blame
import TreeWalk.Proofs.Console.Pointing
import TreeWalk.Proofs.Console.Muffled
import TreeWalk.Proofs.Console.Completion
import TreeWalk.Proofs.Grammar.Unfinished
import TreeWalk.Proofs.Grammar.Targets
import TreeWalk.Proofs.Grammar.Progress
import TreeWalk.Proofs.Grammar.Resuming
import TreeWalk.Proofs.Grammar.Ending
import TreeWalk.Proofs.Lexis.Blanking
import TreeWalk.Proofs.Text.Unsigned
import TreeWalk.Proofs.Semantics.Coupling
import TreeWalk.Proofs.Semantics.Frame
import TreeWalk.Proofs.Semantics.Renaming
import TreeWalk.Proofs.Semantics.Operations
import TreeWalk.Proofs.Semantics.Equality
import TreeWalk.Proofs.Grammar.Form
import TreeWalk.Proofs.Grammar.Legible
import TreeWalk.Proofs.Grammar.Printed
import TreeWalk.Proofs.Console.Printed
