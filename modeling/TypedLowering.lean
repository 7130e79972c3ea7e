import TypedLowering.Dart.Lower.Declaration
import TypedLowering.Dart.Lower.Expression
import TypedLowering.Dart.Lower.Parts
import TypedLowering.Dart.Lower.Statement
import TypedLowering.Dart.Lower.Types
import TypedLowering.Dart.Tree
import TypedLowering.Datum.Dart
import TypedLowering.Datum.JavaScript
import TypedLowering.Datum.Session
import TypedLowering.Imports
import TypedLowering.Ir.Declaration
import TypedLowering.Ir.Expr
import TypedLowering.Ir.Location
import TypedLowering.Ir.Renaming
import TypedLowering.Ir.Shape
import TypedLowering.Ir.Traversal
import TypedLowering.Ir.Ty
import TypedLowering.JavaScript.Elision
import TypedLowering.JavaScript.Lower.Declaration
import TypedLowering.JavaScript.Lower.Expression
import TypedLowering.JavaScript.Lower.Parts
import TypedLowering.JavaScript.Lower.Statement
import TypedLowering.JavaScript.Operator
import TypedLowering.JavaScript.Spelling
import TypedLowering.JavaScript.Template
import TypedLowering.JavaScript.Tree
import TypedLowering.JavaScript.Wrapping
import TypedLowering.Lowering.Classification
import TypedLowering.Lowering.Files
import TypedLowering.Lowering.Inlining
import TypedLowering.Lowering.Sharing
import TypedLowering.Number.Shortest
import TypedLowering.Printing.Code
import TypedLowering.Printing.Layout
import TypedLowering.Printing.Mapping
import TypedLowering.Printing.Printer
import TypedLowering.Printing.Program
import TypedLowering.Proofs.BoundNames
import TypedLowering.Proofs.Control.Assignment
import TypedLowering.Proofs.Control.Behaviour
import TypedLowering.Proofs.Control.Compound
import TypedLowering.Proofs.Control.Delivery
import TypedLowering.Proofs.Control.Discipline
import TypedLowering.Proofs.Control.Ending
import TypedLowering.Proofs.Control.Flow
import TypedLowering.Proofs.Control.Frame
import TypedLowering.Proofs.Control.Switch
import TypedLowering.Proofs.Control.World
import TypedLowering.Proofs.Dart.Blocks
import TypedLowering.Proofs.Dart.Control
import TypedLowering.Proofs.Dart.Declaration
import TypedLowering.Proofs.Dart.Delivery
import TypedLowering.Proofs.Dart.Depth
import TypedLowering.Proofs.Dart.Evaluation
import TypedLowering.Proofs.Dart.Flags
import TypedLowering.Proofs.Dart.Flow
import TypedLowering.Proofs.Dart.Follows
import TypedLowering.Proofs.Dart.FreeNames
import TypedLowering.Proofs.Dart.Function
import TypedLowering.Proofs.Dart.OperandOrder
import TypedLowering.Proofs.Dart.Ownership
import TypedLowering.Proofs.Dart.Selection
import TypedLowering.Proofs.Dart.ShortCircuit
import TypedLowering.Proofs.Dart.Types
import TypedLowering.Proofs.Dart.Update
import TypedLowering.Proofs.Dart.Uses
import TypedLowering.Proofs.DeadStatements
import TypedLowering.Proofs.DebugInformation
import TypedLowering.Proofs.DefiniteAssignment
import TypedLowering.Proofs.DistinctDeclarations
import TypedLowering.Proofs.EvaluationOrder
import TypedLowering.Proofs.ExpressionModes
import TypedLowering.Proofs.ForwardedCallee
import TypedLowering.Proofs.GenuineSelfCalls
import TypedLowering.Proofs.GuardedHoisting
import TypedLowering.Proofs.ImportForms
import TypedLowering.Proofs.ImportShadowing
import TypedLowering.Proofs.IntegerDivision
import TypedLowering.Proofs.Ir.Annotations
import TypedLowering.Proofs.Ir.Binders
import TypedLowering.Proofs.Ir.Binding
import TypedLowering.Proofs.Ir.Dangling
import TypedLowering.Proofs.Ir.Handlers
import TypedLowering.Proofs.Ir.Ownership
import TypedLowering.Proofs.Ir.Relocation
import TypedLowering.Proofs.Ir.Renaming
import TypedLowering.Proofs.Ir.Reversal
import TypedLowering.Proofs.Ir.Subterms
import TypedLowering.Proofs.Ir.TailPosition
import TypedLowering.Proofs.Ir.Uses
import TypedLowering.Proofs.Ir.WellFormed
import TypedLowering.Proofs.JavaScript.Blocks
import TypedLowering.Proofs.JavaScript.Control
import TypedLowering.Proofs.JavaScript.Declaration
import TypedLowering.Proofs.JavaScript.Delivery
import TypedLowering.Proofs.JavaScript.Depth
import TypedLowering.Proofs.JavaScript.Elision
import TypedLowering.Proofs.JavaScript.Evaluation
import TypedLowering.Proofs.JavaScript.ExpressionOrder
import TypedLowering.Proofs.JavaScript.Flow
import TypedLowering.Proofs.JavaScript.Follows
import TypedLowering.Proofs.JavaScript.FreeNames
import TypedLowering.Proofs.JavaScript.Function
import TypedLowering.Proofs.JavaScript.Grammar
import TypedLowering.Proofs.JavaScript.Grouping
import TypedLowering.Proofs.JavaScript.Handlers
import TypedLowering.Proofs.JavaScript.Making
import TypedLowering.Proofs.JavaScript.Order
import TypedLowering.Proofs.JavaScript.Orderly
import TypedLowering.Proofs.JavaScript.Ownership
import TypedLowering.Proofs.JavaScript.Parsing
import TypedLowering.Proofs.JavaScript.Places
import TypedLowering.Proofs.JavaScript.RegularExpression
import TypedLowering.Proofs.JavaScript.Relocation
import TypedLowering.Proofs.JavaScript.Scoping
import TypedLowering.Proofs.JavaScript.Selection
import TypedLowering.Proofs.JavaScript.StatementOrder
import TypedLowering.Proofs.JavaScript.StringLiteral
import TypedLowering.Proofs.JavaScript.Success
import TypedLowering.Proofs.JavaScript.TailElimination
import TypedLowering.Proofs.JavaScript.Tokens
import TypedLowering.Proofs.JavaScript.Uses
import TypedLowering.Proofs.LoopJumps
import TypedLowering.Proofs.Lowering.Absence
import TypedLowering.Proofs.Lowering.Below
import TypedLowering.Proofs.Lowering.Comparison
import TypedLowering.Proofs.Lowering.Declarations
import TypedLowering.Proofs.Lowering.Dispatcher
import TypedLowering.Proofs.Lowering.Follows
import TypedLowering.Proofs.Lowering.Growth
import TypedLowering.Proofs.Lowering.Hygiene
import TypedLowering.Proofs.Lowering.InUse
import TypedLowering.Proofs.Lowering.Making
import TypedLowering.Proofs.Lowering.Outcome
import TypedLowering.Proofs.Lowering.Ownership
import TypedLowering.Proofs.Lowering.Relocation
import TypedLowering.Proofs.Lowering.Room
import TypedLowering.Proofs.Lowering.Slots
import TypedLowering.Proofs.Lowering.Success
import TypedLowering.Proofs.Lowering.Temporaries
import TypedLowering.Proofs.Lowering.Unused
import TypedLowering.Proofs.Lowering.Uses
import TypedLowering.Proofs.Lowering.Within
import TypedLowering.Proofs.Names.ImportRuns
import TypedLowering.Proofs.Names.LeastVariant
import TypedLowering.Proofs.Names.Nesting
import TypedLowering.Proofs.Names.OpenDeclarations
import TypedLowering.Proofs.NestedTrees
import TypedLowering.Proofs.Number.Nearest
import TypedLowering.Proofs.Number.ShortestText
import TypedLowering.Proofs.OperandOrder
import TypedLowering.Proofs.OptionPayloads
import TypedLowering.Proofs.Printing.Branching
import TypedLowering.Proofs.Printing.Flushing
import TypedLowering.Proofs.Printing.Mappings
import TypedLowering.Proofs.Printing.Occurrences
import TypedLowering.Proofs.Printing.Relocation
import TypedLowering.Proofs.Printing.Rendering
import TypedLowering.Proofs.Printing.Streaming
import TypedLowering.Proofs.PropertyNames
import TypedLowering.Proofs.RegexLiterals
import TypedLowering.Proofs.Rethrow
import TypedLowering.Proofs.ReturnDiscipline
import TypedLowering.Proofs.SeparateFiles
import TypedLowering.Proofs.SharedTargets
import TypedLowering.Proofs.SourceMap.Quantities
import TypedLowering.Proofs.SourceMap.Reader
import TypedLowering.Proofs.SourceMap.RoundTrip
import TypedLowering.Proofs.StatementStarts
import TypedLowering.Proofs.StringLiterals
import TypedLowering.Proofs.TailCalls
import TypedLowering.Proofs.TemplateIndentation
import TypedLowering.Proofs.TemplateOperands
import TypedLowering.Proofs.TemplateTiling
import TypedLowering.Proofs.Termination
import TypedLowering.Proofs.Text.Json
import TypedLowering.Proofs.TypeVariables
import TypedLowering.Proofs.UnitBinders
import TypedLowering.Proofs.WellFormedLowers
import TypedLowering.Session.OptionsText
import TypedLowering.SourceMap.Render
import TypedLowering.Text.CharacterClass
import TypedLowering.Text.Escape
import TypedLowering.Text.Json
