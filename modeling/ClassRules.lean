import ClassRules.CommandLine
import ClassRules.CommandLine.Arguments
import ClassRules.CommandLine.Files
import ClassRules.CommandLine.Path
import ClassRules.CommandLine.Surroundings
import ClassRules.Content
import ClassRules.Cursor
import ClassRules.Decimal.Shortest
import ClassRules.Diagnostic
import ClassRules.ItemList
import ClassRules.Json
import ClassRules.Json.Number
import ClassRules.Json.Printer
import ClassRules.Json.Reader
import ClassRules.KeyedList
import ClassRules.Lowering
import ClassRules.Lowering.Component
import ClassRules.Lowering.Namespace
import ClassRules.Lowering.Progress
import ClassRules.Lowering.State
import ClassRules.Lowering.Utility
import ClassRules.Main
import ClassRules.Naming.Convention
import ClassRules.Naming.RuleKind
import ClassRules.Naming.Style
import ClassRules.Options
import ClassRules.Options.OfJson
import ClassRules.ParseError
import ClassRules.Proofs.CommandLine.Files
import ClassRules.Proofs.CommandLine.Runs
import ClassRules.Proofs.ItemList.Pieces
import ClassRules.Proofs.ItemList.Rejoining
import ClassRules.Proofs.ItemList.Slices
import ClassRules.Proofs.ItemList.TokenItems
import ClassRules.Proofs.Json.Ordered
import ClassRules.Proofs.Lowering.Acyclic
import ClassRules.Proofs.Lowering.BlockNamespace
import ClassRules.Proofs.Lowering.CarriedAlong
import ClassRules.Proofs.Lowering.Change
import ClassRules.Proofs.Lowering.Clocked
import ClassRules.Proofs.Lowering.ClockedSteps
import ClassRules.Proofs.Lowering.Component
import ClassRules.Proofs.Lowering.Conservation
import ClassRules.Proofs.Lowering.Distribution
import ClassRules.Proofs.Lowering.Edit
import ClassRules.Proofs.Lowering.Enclosure
import ClassRules.Proofs.Lowering.Exchange
import ClassRules.Proofs.Lowering.FixedPoint
import ClassRules.Proofs.Lowering.Flattening
import ClassRules.Proofs.Lowering.Inputs
import ClassRules.Proofs.Lowering.Joint
import ClassRules.Proofs.Lowering.Leftovers
import ClassRules.Proofs.Lowering.Likeness
import ClassRules.Proofs.Lowering.Mirror
import ClassRules.Proofs.Lowering.Misplaced
import ClassRules.Proofs.Lowering.Namespaces
import ClassRules.Proofs.Lowering.Nesting
import ClassRules.Proofs.Lowering.NewSelectors
import ClassRules.Proofs.Lowering.Parallel
import ClassRules.Proofs.Lowering.ParallelPasses
import ClassRules.Proofs.Lowering.ParallelRun
import ClassRules.Proofs.Lowering.ParallelSteps
import ClassRules.Proofs.Lowering.PassOrder
import ClassRules.Proofs.Lowering.Plan
import ClassRules.Proofs.Lowering.PlanCopy
import ClassRules.Proofs.Lowering.Progress
import ClassRules.Proofs.Lowering.Region
import ClassRules.Proofs.Lowering.Renaming
import ClassRules.Proofs.Lowering.Resolution
import ClassRules.Proofs.Lowering.Runs
import ClassRules.Proofs.Lowering.Safety
import ClassRules.Proofs.Lowering.SelectorItems
import ClassRules.Proofs.Lowering.Settled
import ClassRules.Proofs.Lowering.SiblingOrder
import ClassRules.Proofs.Lowering.StateOrder
import ClassRules.Proofs.Lowering.StateRules
import ClassRules.Proofs.Lowering.StateSelector
import ClassRules.Proofs.Lowering.Steps
import ClassRules.Proofs.Lowering.Takeover
import ClassRules.Proofs.Lowering.Unwrapping
import ClassRules.Proofs.Lowering.UtilityRules
import ClassRules.Proofs.Options.Reading
import ClassRules.Proofs.Options.Routes
import ClassRules.Proofs.Sheet.Blocks
import ClassRules.Proofs.Sheet.Copy
import ClassRules.Proofs.Sheet.DocumentOrder
import ClassRules.Proofs.Sheet.Forest
import ClassRules.Proofs.Sheet.Gathering
import ClassRules.Proofs.Sheet.Layout
import ClassRules.Proofs.Sheet.Move
import ClassRules.Proofs.Sheet.Origins
import ClassRules.Proofs.Sheet.Places
import ClassRules.Proofs.Sheet.Preorder
import ClassRules.Proofs.Sheet.Read
import ClassRules.Proofs.Sheet.SourceOrder
import ClassRules.Proofs.Sheet.Trees
import ClassRules.Proofs.Sheet.Walks
import ClassRules.Proofs.Text.Significant
import ClassRules.Proofs.Text.Trim
import ClassRules.Proofs.Token.Cut
import ClassRules.Proofs.Token.Lexeme
import ClassRules.Proofs.Token.Relexing
import ClassRules.Proofs.Token.Shape
import ClassRules.Proofs.Token.Tiling
import ClassRules.Proofs.Tree.Alike
import ClassRules.Proofs.Tree.Braces
import ClassRules.Proofs.Tree.Colons
import ClassRules.Proofs.Tree.Everywhere
import ClassRules.Proofs.Tree.Field
import ClassRules.Proofs.Tree.Order
import ClassRules.Proofs.Tree.Printing
import ClassRules.Proofs.Tree.Reading
import ClassRules.Proofs.Tree.Retention
import ClassRules.Proofs.Tree.RoundTrip
import ClassRules.Proofs.Tree.Significant
import ClassRules.Proofs.Tree.Spans
import ClassRules.Proofs.Tree.Statement
import ClassRules.Proofs.Tree.Steps
import ClassRules.Proofs.Tree.Totality
import ClassRules.Sheet
import ClassRules.Sheet.Move
import ClassRules.Sheet.Walk
import ClassRules.Source
import ClassRules.Span
import ClassRules.Text.Alphanumeric
import ClassRules.Text.Blank
import ClassRules.Text.CodeRange
import ClassRules.Text.Printable
import ClassRules.Text.Quoted
import ClassRules.Text.Slice
import ClassRules.Text.Terminal
import ClassRules.Token
import ClassRules.Token.Lexer
import ClassRules.Tree
import ClassRules.Tree.Parser
import ClassRules.Tree.Printer
