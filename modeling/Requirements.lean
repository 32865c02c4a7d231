import Requirements.CommandLine.Invocation
import Requirements.CommandLine.Run
import Requirements.CommandLine.Word
import Requirements.Decimal.Numeral
import Requirements.Decimal.Shortest
import Requirements.Diagnostic
import Requirements.Document.Basic
import Requirements.Document.Checked
import Requirements.Document.Scalar
import Requirements.Document.Yaml
import Requirements.Environment.Basic
import Requirements.Environment.Reader
import Requirements.Environment.Registry
import Requirements.Evaluation.Basic
import Requirements.Evaluation.Stack
import Requirements.Evaluation.Trace
import Requirements.Expr.Alternatives
import Requirements.Expr.Basic
import Requirements.Expr.Operator
import Requirements.Expr.Printer
import Requirements.Expr.Prune
import Requirements.Host.FileTree
import Requirements.Host.Path
import Requirements.Host.Search
import Requirements.Logging.Basic
import Requirements.Main
import Requirements.Position
import Requirements.Program.Basic
import Requirements.Program.Parser
import Requirements.Program.Resolver
import Requirements.Program.Selection
import Requirements.Proofs.CommandLine.Files
import Requirements.Proofs.CommandLine.Outcome
import Requirements.Proofs.Document.Checked
import Requirements.Proofs.Document.Yaml
import Requirements.Proofs.Environment.Description
import Requirements.Proofs.Environment.History
import Requirements.Proofs.Environment.Registry
import Requirements.Proofs.Evaluation.Agreement
import Requirements.Proofs.Evaluation.BigStep
import Requirements.Proofs.Evaluation.Chains
import Requirements.Proofs.Evaluation.Coupling
import Requirements.Proofs.Evaluation.Errors
import Requirements.Proofs.Evaluation.Findings
import Requirements.Proofs.Evaluation.FirstReferences
import Requirements.Proofs.Evaluation.Folding
import Requirements.Proofs.Evaluation.Frames
import Requirements.Proofs.Evaluation.Installing
import Requirements.Proofs.Evaluation.KeptAnswers
import Requirements.Proofs.Evaluation.Lockstep
import Requirements.Proofs.Evaluation.Mirroring
import Requirements.Proofs.Evaluation.Nodes
import Requirements.Proofs.Evaluation.Outcome
import Requirements.Proofs.Evaluation.Questions
import Requirements.Proofs.Evaluation.Refusals
import Requirements.Proofs.Evaluation.Respelling
import Requirements.Proofs.Evaluation.Reuse
import Requirements.Proofs.Evaluation.Shape
import Requirements.Proofs.Evaluation.Sharing
import Requirements.Proofs.Evaluation.ShortCircuit
import Requirements.Proofs.Evaluation.Stack
import Requirements.Proofs.Evaluation.Strict
import Requirements.Proofs.Evaluation.Unselected
import Requirements.Proofs.Expr.Alternatives
import Requirements.Proofs.Expr.Nodes
import Requirements.Proofs.Expr.Prune
import Requirements.Proofs.Expr.Respelling
import Requirements.Proofs.Expr.Survivors
import Requirements.Proofs.Grammar.Completeness
import Requirements.Proofs.Grammar.Derivation
import Requirements.Proofs.Grammar.Frames
import Requirements.Proofs.Grammar.Groups
import Requirements.Proofs.Grammar.NormalForm
import Requirements.Proofs.Grammar.Parentheses
import Requirements.Proofs.Grammar.Places
import Requirements.Proofs.Grammar.Printing
import Requirements.Proofs.Grammar.Readers
import Requirements.Proofs.Grammar.ScriptTree
import Requirements.Proofs.Grammar.Segments
import Requirements.Proofs.Grammar.Soundness
import Requirements.Proofs.Grammar.Spelling
import Requirements.Proofs.Grammar.Tree
import Requirements.Proofs.Grammar.Unambiguity
import Requirements.Proofs.Logging.Setup
import Requirements.Proofs.Program.Chains
import Requirements.Proofs.Program.Cycles
import Requirements.Proofs.Program.Faults
import Requirements.Proofs.Program.Inlining
import Requirements.Proofs.Program.Names
import Requirements.Proofs.Program.Parentheses
import Requirements.Proofs.Program.Places
import Requirements.Proofs.Program.Positive
import Requirements.Proofs.Program.PrintOrder
import Requirements.Proofs.Program.Printing
import Requirements.Proofs.Program.Reordering
import Requirements.Proofs.Program.Rereading
import Requirements.Proofs.Program.Selection
import Requirements.Proofs.Program.SourceOrder
import Requirements.Proofs.Program.TagOrder
import Requirements.Proofs.Report.Actionable
import Requirements.Proofs.Report.Addresses
import Requirements.Proofs.Report.Cells
import Requirements.Proofs.Report.Diagnoses
import Requirements.Proofs.Report.Entries
import Requirements.Proofs.Report.Explanations
import Requirements.Proofs.Report.References
import Requirements.Proofs.Report.Tables
import Requirements.Proofs.Settings.Reading
import Requirements.Proofs.Text.Blank
import Requirements.Proofs.Text.Matcher
import Requirements.Proofs.Text.NameSet
import Requirements.Proofs.Text.Split
import Requirements.Proofs.Token.Cutting
import Requirements.Proofs.Token.Layout
import Requirements.Proofs.Token.Lines
import Requirements.Proofs.Token.Pieces
import Requirements.Proofs.Token.Spans
import Requirements.Proofs.Token.Spelling
import Requirements.Proofs.Version.Literal
import Requirements.Proofs.Version.Order
import Requirements.Proofs.Version.Pattern
import Requirements.Proofs.Version.Preorder
import Requirements.Proofs.Version.RangeForms
import Requirements.Proofs.Version.Reading
import Requirements.Proofs.Version.Verdict
import Requirements.Report.Basic
import Requirements.Report.Builder
import Requirements.Settings.Basic
import Requirements.Settings.Reader
import Requirements.Text.Blank
import Requirements.Text.CodeRange
import Requirements.Text.Json
import Requirements.Text.NameSet
import Requirements.Text.Quoted
import Requirements.Text.Similarity
import Requirements.Text.Split
import Requirements.Text.Word
import Requirements.Token.Basic
import Requirements.Token.Lexer
import Requirements.Version.Basic
import Requirements.Version.Range
import Requirements.Version.Reader
