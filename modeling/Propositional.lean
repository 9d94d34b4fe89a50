import Propositional.Main
import Propositional.Proofs.Formula.Grammar
import Propositional.Proofs.Formula.Renaming
import Propositional.Proofs.Latex.Elimination
import Propositional.Proofs.Text.Blank
import Propositional.Proofs.Token.Spelling
import Propositional.Proofs.Evaluation.Substitution
import Propositional.Proofs.Latex.Rendering
import Propositional.Proofs.Latex.Acceptance
import Propositional.Proofs.Latex.Complement
import Propositional.Proofs.Text.Replace
import Propositional.Proofs.Latex.Respelling
import Propositional.Proofs.Latex.NativeText
import Propositional.Proofs.Latex.Translation
import Propositional.Proofs.Formula.Bracketing
import Propositional.Proofs.Formula.ReadOnce
import Propositional.Proofs.Formula.Yield
import Propositional.Proofs.Formula.ArrowBehindAnd
import Propositional.Proofs.Latex.Precedence
import Propositional.Proofs.Token.Renaming
import Propositional.Proofs.Valuation.Keys
import Propositional.Proofs.Valuation.Enumeration
import Propositional.Proofs.Evaluation.Variables
import Propositional.Proofs.Table.Rows
import Propositional.Proofs.Verdict.Equivalence
import Propositional.Proofs.Derivation.Items
import Propositional.Proofs.Latex.Arrangement
import Propositional.Proofs.Text.Lines
import Propositional.Proofs.Derivation.Layout
import Propositional.Proofs.Derivation.Steps
import Propositional.Proofs.Latex.Strictness
import Propositional.Proofs.Token.Native
import Propositional.Proofs.Formula.RunLength
import Propositional.Proofs.Evaluation.Tidying
import Propositional.Proofs.Latex.NativeFormula
import Propositional.Proofs.Table.Columns
import Propositional.Proofs.Table.NativeFormulas
import Propositional.Proofs.Command.ExitCode
import Propositional.Proofs.Table.Validity
import Propositional.Proofs.Json.Text
import Propositional.Proofs.Json.Value
import Propositional.Proofs.Config.File
import Propositional.Proofs.Command.Outcome
import Propositional.Proofs.Command.Presentation
import Propositional.Proofs.Formula.Faults
import Propositional.Proofs.Formula.Printing
import Propositional.Proofs.Latex.Edits
import Propositional.Proofs.Token.Munch
import Propositional.Proofs.Evaluation.Failures
import Propositional.Proofs.Latex.Canonical
import Propositional.Proofs.Latex.Overlined
import Propositional.Proofs.Latex.ClosedOverlines
import Propositional.Proofs.Text.Reflow
import Propositional.Proofs.Latex.Reflow
import Propositional.Proofs.Latex.Layout
import Propositional.Proofs.Derivation.Sources
import Propositional.Proofs.Valuation.Order
import Propositional.Proofs.Text.Parts
import Propositional.Proofs.Latex.Junction
import Propositional.Proofs.Latex.Loosening
import Propositional.Proofs.Verdict.CutOperators
import Propositional.Proofs.Derivation.Marks
import Propositional.Proofs.Verdict.Arrangement
import Propositional.Proofs.Text.Joining
import Propositional.Proofs.Report.Columns
import Propositional.Proofs.Table.Built
import Propositional.Proofs.Report.PlainTable
import Propositional.Proofs.Report.PlainVerdict
import Propositional.Proofs.Text.Bars
import Propositional.Proofs.Latex.Broken
import Propositional.Proofs.Report.MarkdownTable
import Propositional.Proofs.Text.LineEnds
import Propositional.Proofs.Report.MarkdownLines
import Propositional.Proofs.Report.VerdictMarks
import Propositional.Proofs.Report.Tags
import Propositional.Proofs.Report.EscapedTags
import Propositional.Proofs.Report.ConsoleGlyphs
import Propositional.Proofs.Config.Layers
import Propositional.Proofs.Command.Loading
import Propositional.Proofs.Latex.LeftOperand
import Propositional.Proofs.Config.Overrides
import Propositional.Proofs.Command.Budget
