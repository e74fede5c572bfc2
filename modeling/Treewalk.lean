import Treewalk.Binary64
import Treewalk.Bindings
import Treewalk.CommandLine.Execution
import Treewalk.CommandLine.Help
import Treewalk.CommandLine.Invocation
import Treewalk.Decimal.Shortest
import Treewalk.Diagnostic
import Treewalk.Evaluation
import Treewalk.Grammar.Cursor
import Treewalk.Grammar.Expression
import Treewalk.Grammar.Parser
import Treewalk.Grammar.Statement
import Treewalk.Heap
import Treewalk.Json
import Treewalk.Machine
import Treewalk.Main
import Treewalk.Number
import Treewalk.Proofs.Binary64.Rounding
import Treewalk.Proofs.Binary64.Signs
import Treewalk.Proofs.Decimal.Intervals
import Treewalk.Proofs.Decimal.Reading
import Treewalk.Proofs.Decimal.Shortest
import Treewalk.Proofs.Decimal.Texts
import Treewalk.Proofs.Grammar.Acceptance
import Treewalk.Proofs.Grammar.Appending
import Treewalk.Proofs.Grammar.Completeness.Expression
import Treewalk.Proofs.Grammar.Completeness.Statement
import Treewalk.Proofs.Grammar.Derivation
import Treewalk.Proofs.Grammar.Ebnf
import Treewalk.Proofs.Grammar.Extension
import Treewalk.Proofs.Grammar.Indexed.Compositional
import Treewalk.Proofs.Grammar.Indexed.Range
import Treewalk.Proofs.Grammar.Indexed.Recovery
import Treewalk.Proofs.Grammar.Indexed.Rules
import Treewalk.Proofs.Grammar.Indexed.Standing
import Treewalk.Proofs.Grammar.Meeting
import Treewalk.Proofs.Grammar.Numbering
import Treewalk.Proofs.Grammar.Reading
import Treewalk.Proofs.Grammar.Soundness.Expression
import Treewalk.Proofs.Grammar.Soundness.Statement
import Treewalk.Proofs.Looping.Counting
import Treewalk.Proofs.Looping.Layout
import Treewalk.Proofs.Looping.Machines
import Treewalk.Proofs.Looping.Meaning
import Treewalk.Proofs.Looping.Rounds
import Treewalk.Proofs.Looping.Running
import Treewalk.Proofs.Looping.Trees
import Treewalk.Proofs.Printing.Programs
import Treewalk.Proofs.Renaming.Fits
import Treewalk.Proofs.Renaming.Invariance
import Treewalk.Proofs.Renaming.Resolution
import Treewalk.Proofs.Renaming.Respelling
import Treewalk.Proofs.Renaming.Text
import Treewalk.Proofs.Renaming.Wording
import Treewalk.Proofs.Running.Origin
import Treewalk.Proofs.Running.Output
import Treewalk.Proofs.Running.Restoring
import Treewalk.Proofs.Running.Returning
import Treewalk.Proofs.Running.Steps
import Treewalk.Proofs.Running.Trace
import Treewalk.Proofs.Running.Unbound
import Treewalk.Proofs.Scanning.Bytes
import Treewalk.Proofs.Scanning.Encoding
import Treewalk.Proofs.Scanning.Lexemes
import Treewalk.Proofs.Scanning.Pieces
import Treewalk.Proofs.Scanning.Rescanning
import Treewalk.Proofs.Scanning.Seams
import Treewalk.Proofs.Scanning.Words
import Treewalk.Proofs.Scoping.Addressing
import Treewalk.Proofs.Scoping.Assignment
import Treewalk.Proofs.Scoping.Chronicle
import Treewalk.Proofs.Scoping.Declarations
import Treewalk.Proofs.Scoping.Layers
import Treewalk.Proofs.Scoping.Links
import Treewalk.Proofs.Scoping.Order
import Treewalk.Proofs.Scoping.Outline
import Treewalk.Proofs.Scoping.Receivers
import Treewalk.Proofs.Scoping.Searching
import Treewalk.Proofs.Scoping.Stack
import Treewalk.Proofs.Scoping.Superclasses
import Treewalk.Proofs.Scoping.Timeline
import Treewalk.Proofs.Scoping.Unfolding
import Treewalk.Proofs.Scoping.Uniform
import Treewalk.Proofs.Scoping.WellScoped
import Treewalk.Proofs.Session.Channels
import Treewalk.Proofs.Session.Joining
import Treewalk.Proofs.Session.Numbers
import Treewalk.Proofs.Session.Printing
import Treewalk.Proofs.Session.Provenance
import Treewalk.Proofs.Session.Rejection
import Treewalk.Proofs.Session.Script
import Treewalk.Proofs.Session.Truncation
import Treewalk.Proofs.SideBySide.Machine
import Treewalk.Proofs.SideBySide.Parsing
import Treewalk.Proofs.SideBySide.Resolving
import Treewalk.Proofs.SideBySide.Running
import Treewalk.Proofs.SideBySide.Session
import Treewalk.Proofs.SideBySide.Tree
import Treewalk.Resolution
import Treewalk.Session
import Treewalk.Text.CodeRanges
import Treewalk.Text.Combining
import Treewalk.Text.Quoted
import Treewalk.Text.Unprintable
import Treewalk.Token
import Treewalk.Token.Json
import Treewalk.Token.Scan
import Treewalk.Token.Scanner
import Treewalk.Tree
import Treewalk.Tree.Printer
import Treewalk.Value
