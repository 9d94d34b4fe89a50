import Propositional.Report.Glyphs
import Propositional.Verdict

/-!
# Plain reports

Tables and verdicts as lines of text. A legend gives each formula a label, and the table below it has a column for each letter
and each label, ruled off by bars. The columns of a table are as wide as their headings and the glyphs need; those of a verdict
are as wide as their headings need, and at least two.
-/

namespace Propositional.Report

/-- A line of cells set to the right in columns of the given widths. -/
def plainRow (widths : List Nat) (cells : List (List Char)) : List Char :=
  Text.joinWith [' ', '|', ' '] (List.zipWith padLeft widths cells)

/-- The line that rules the headings off. -/
def plainRule (widths : List Nat) : List Char :=
  Text.joinWith ['-', '+', '-'] (widths.map fun w => List.replicate w '-')

/-- The legend: one line for each label and what it stands for. -/
def legend (labels : List (List Char)) (texts : List String) : List (List Char) :=
  List.zipWith (fun label text => ' ' :: ' ' :: (label ++ ':' :: ' ' :: text.toList)) labels texts

/-- The headings of a table: its letters and the labels of its formulas. -/
def tableHeadings (t : TruthTable) : List (List Char) := t.letters.map ([·]) ++ labels 'E' t.formulas.length

/-- The widths of the columns of a table. -/
def tableWidths (g : Glyphs) (t : TruthTable) : List Nat :=
  (tableHeadings t).map fun h => max h.length (max g.yes.length g.no.length)

/-- The line of a row of a table. -/
def tableRow (g : Glyphs) (t : TruthTable) (r : Row) : List Char :=
  plainRow (tableWidths g t) ((r.cells t.letters).map fun b => (g.ofBool b).toList)

/-- The lines of a table. -/
def tableLines (g : Glyphs) (t : TruthTable) : List (List Char) :=
  "Expressions:".toList :: legend (labels 'E' t.formulas.length) t.headers ++
    [] :: plainRow (tableWidths g t) (tableHeadings t) :: plainRule (tableWidths g t) :: t.rows.map (tableRow g t)

/-- A table as plain text. -/
def plainTable (g : Glyphs) (t : TruthTable) : String :=
  if t.isEmpty then t.status.message else ofLines (tableLines g t)

/-- The line that sums a verdict up. -/
def summary (v : Verdict) : List Char :=
  if v.allEqual then check :: " All steps are equivalent!".toList
  else cross :: (" Found ".toList ++ decimal v.mismatchCount ++ " row(s) with mismatches".toList)

/-- The headings of a verdict: its letters, the labels of its steps, and the mark of agreement. -/
def verdictHeadings (v : Verdict) : List (List Char) :=
  v.letters.map ([·]) ++ labels 'S' v.steps.length ++ [['E', 'Q']]

/-- The widths of the columns of a verdict. -/
def verdictWidths (v : Verdict) : List Nat := (verdictHeadings v).map fun h => max h.length 2

/-- The mark of agreement of a row. -/
def agreementMark (r : Row) : Char := if r.isAgreeing then check else cross

/-- The line of a row of a verdict. -/
def verdictRow (g : Glyphs) (v : Verdict) (r : Row) : List Char :=
  plainRow (verdictWidths v) ((r.cells v.letters).map (fun b => (g.ofBool b).toList) ++ [[agreementMark r]])

/-- The lines of a verdict. -/
def verdictLines (g : Glyphs) (v : Verdict) : List (List Char) :=
  "Steps:".toList :: legend (labels 'S' v.steps.length) v.steps ++
    [] :: plainRow (verdictWidths v) (verdictHeadings v) :: plainRule (verdictWidths v) :: v.rows.map (verdictRow g v) ++
    [[], summary v]

/-- A verdict as plain text. -/
def plainVerdict (g : Glyphs) (v : Verdict) : String :=
  if v.status = .ok then ofLines (verdictLines g v) else v.status.message

end Propositional.Report
