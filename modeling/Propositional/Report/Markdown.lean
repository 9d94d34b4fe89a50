import Propositional.Report.Glyphs
import Propositional.Table

/-!
# Markdown reports

A truth table as a table of markdown whose cells are mathematics: headings are formulas, and truth values are coloured symbols.
-/

namespace Propositional.Report

/-- The symbol of a truth value. -/
def mathSymbol (b : Bool) : List Char := if b then "\\color\x7bgreen\x7d\\top".toList else "\\color\x7bred\x7d\\bot".toList

/-- A text as it can stand in a cell: its bars are escaped, and a line feed becomes a space. -/
def escapeCell (s : List Char) : List Char :=
  s.flatMap fun c => if c = '|' then ['\\', '|'] else if c = '\n' then [' '] else [c]

/-- A text as mathematics. -/
def math (s : List Char) : List Char := '$' :: (s ++ ['$'])

/-- The headings of a table: its letters and the texts of its formulas. -/
def markdownHeadings (t : TruthTable) : List (List Char) :=
  (t.letters.map ([·]) ++ t.headers.map String.toList).map fun h => math (escapeCell h)

/-- The cells of a row. -/
def markdownCells (t : TruthTable) (r : Row) : List (List Char) := (r.cells t.letters).map fun b => math (mathSymbol b)

/-- The widths of the columns: what the widest cell needs, and at least three. -/
def markdownWidths (t : TruthTable) : List Nat :=
  t.rows.foldl (fun widths r => List.zipWith (fun w cell => max w cell.length) widths (markdownCells t r))
    ((markdownHeadings t).map fun h => max 3 h.length)

/-- A line of cells between bars. -/
def markdownRow (cells : List (List Char)) : List Char :=
  '|' :: ' ' :: (Text.joinWith [' ', '|', ' '] cells ++ [' ', '|'])

/-- The lines of a table. -/
def markdownLines (t : TruthTable) : List (List Char) :=
  let widths := markdownWidths t
  markdownRow (List.zipWith padRight widths (markdownHeadings t)) ::
    markdownRow (widths.map fun w => List.replicate w '-') ::
    t.rows.map fun r => markdownRow (List.zipWith padRight widths (markdownCells t r))

/-- A table as markdown. -/
def markdownTable (t : TruthTable) : String := if t.isEmpty then t.status.message else ofLines (markdownLines t)

end Propositional.Report
