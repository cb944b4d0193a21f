import ExprCompiler.Main
import ExprCompiler.Proofs.Names
import ExprCompiler.Proofs.Store
import ExprCompiler.Proofs.Sealing
import ExprCompiler.Proofs.Building
import ExprCompiler.Proofs.Emission
import ExprCompiler.Proofs.Generation
import ExprCompiler.Proofs.Outcome
import ExprCompiler.Proofs.Growth
import ExprCompiler.Proofs.Reached
import ExprCompiler.Proofs.Printing
import ExprCompiler.Proofs.Failure
import ExprCompiler.Proofs.Grammatical
import ExprCompiler.Proofs.Parsed
import ExprCompiler.Proofs.Reporting
import ExprCompiler.Proofs.Sessions
import ExprCompiler.Proofs.History
import ExprCompiler.Proofs.Symbols
import ExprCompiler.Proofs.Integrity
import ExprCompiler.Proofs.CallGraph
import ExprCompiler.Proofs.Reachability
import ExprCompiler.Proofs.Meaning
import ExprCompiler.Proofs.Simulation
import ExprCompiler.Proofs.SessionSymbols
import ExprCompiler.Proofs.Running
import ExprCompiler.Proofs.Evaluation
import ExprCompiler.Proofs.TokensAhead
import ExprCompiler.Proofs.Layered
import ExprCompiler.Proofs.Climbing
import ExprCompiler.Proofs.Words
import ExprCompiler.Proofs.RoundTrip
import ExprCompiler.Proofs.Positions
import ExprCompiler.Proofs.UnitsAhead
import ExprCompiler.Proofs.Relocation
import ExprCompiler.Proofs.Turns
import ExprCompiler.Proofs.Rounds
import ExprCompiler.Proofs.Keywords
import ExprCompiler.Proofs.Indistinct
import ExprCompiler.Proofs.Flaws
import ExprCompiler.Proofs.Programs
import ExprCompiler.Proofs.Agreement
import ExprCompiler.Proofs.LongestMatch
import ExprCompiler.Proofs.Tokenization
import ExprCompiler.Proofs.Accounts
import ExprCompiler.Proofs.Productions
import ExprCompiler.Proofs.Recording
import ExprCompiler.Proofs.Ledger
import ExprCompiler.Proofs.Residue
import ExprCompiler.Proofs.Listing
import ExprCompiler.Proofs.Derivations
import ExprCompiler.Proofs.Commitment
import ExprCompiler.Proofs.Language
import ExprCompiler.Proofs.BrokenTexts
import ExprCompiler.Proofs.BrokenSessions
import ExprCompiler.Proofs.Decoding
import ExprCompiler.Proofs.Commands
import ExprCompiler.Proofs.Asking
import ExprCompiler.Proofs.Completions
import ExprCompiler.Proofs.UnitCompletions
import ExprCompiler.Proofs.Onward
import ExprCompiler.Proofs.Promptness
import ExprCompiler.Proofs.Rounding
import ExprCompiler.Proofs.Numerals
import ExprCompiler.Proofs.LiteralValues
import ExprCompiler.Proofs.Blame
import ExprCompiler.Proofs.Progress
import ExprCompiler.Proofs.Layout
import ExprCompiler.Proofs.Operations
import ExprCompiler.Proofs.LocalNames
import ExprCompiler.Proofs.NameTable
import ExprCompiler.Proofs.Remains
import ExprCompiler.Proofs.Permanence
import ExprCompiler.Proofs.LineEnds
import ExprCompiler.Proofs.Demand
import ExprCompiler.Proofs.Extents
import ExprCompiler.Proofs.Readability
import ExprCompiler.Proofs.Spans
import ExprCompiler.Proofs.Preorder
