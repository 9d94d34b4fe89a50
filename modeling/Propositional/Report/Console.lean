import Propositional.Report.Markup
import Propositional.Report.Plain

/-!
# Console reports

What is handed to the console, which lays out the tables and colours the text by itself: a list of prints, each with its items.
True is green and false is red in a table; in a verdict, the steps that differ from the first one are red.
-/

namespace Propositional.Report

/-- A column of a console table. Cells are centred. `fold` asks to break a long heading and not to cut it. -/
structure Column where
  header : String
  style : String := ""
  headerStyle : String := ""
  fold : Bool := false
  cells : List String
  deriving DecidableEq, Repr

/-- A console table. -/
structure Grid where
  title : Option String := none
  titleStyle : Option String := none
  columns : List Column
  deriving DecidableEq, Repr

/-- What is printed: text with markup, a rule across the console with a title, or a table. -/
inductive Item where
  | text (markup : String)
  | rule (title : String)
  | grid (grid : Grid)
  deriving DecidableEq, Repr

/-- How a print treats its text: with markup and highlighting, with markup alone, or as it is. -/
inductive Treatment where
  | full | unhighlighted | verbatim
  deriving DecidableEq, Repr

/-- One print on the console. A print without an item is an empty line. -/
structure Print where
  item : Option Item
  treatment : Treatment := .full
  deriving DecidableEq, Repr

/-- A print of text with markup. -/
def Print.text (s : String) : Print := ⟨some (.text s), .full⟩

/-- A print of text with markup that is not highlighted. -/
def Print.unhighlighted (s : String) : Print := ⟨some (.text s), .unhighlighted⟩

/-- A print of text as it is. -/
def Print.verbatim (s : String) : Print := ⟨some (.text s), .verbatim⟩

/-- An empty line. -/
def Print.blank : Print := ⟨none, .full⟩

/-- A print of a table. -/
def Print.grid (g : Grid) : Print := ⟨some (.grid g), .full⟩

/-- A print of a rule. -/
def Print.rule (title : String) : Print := ⟨some (.rule title), .full⟩

/-- A table from its columns, each without cells, and the cells of its rows. -/
def fillColumns (columns : List Column) (rows : List (List String)) : List Column :=
  columns.zipIdx.map fun (c, i) => { c with cells := rows.map fun r => r[i]?.getD "" }

/-- The column of a letter. -/
def letterColumn (x : Char) : Column := { header := String.ofList [x], style := "bold", cells := [] }

/-- A text in a colour. -/
def coloured (colour text : String) : String := s!"[{colour}]{text}[/]"

/-- The cell of a truth value in a table. -/
def tableCell (g : Glyphs) (b : Bool) : String := coloured (if b then "green" else "red") (g.ofBool b)

/-- The columns of a table before it has cells. -/
def tableColumns (t : TruthTable) : List Column :=
  t.letters.map letterColumn ++
    List.zipWith
      (fun label header => { header := s!"{String.ofList label}: {escaped header}", fold := true, cells := [] })
      (labels 'E' t.headers.length) t.headers

/-- The console table of a truth table. -/
def tableGrid (g : Glyphs) (t : TruthTable) : Grid :=
  { columns := fillColumns (tableColumns t) (t.rows.map fun r => (r.cells t.letters).map (tableCell g)) }

/-- The columns of a verdict before it has cells. -/
def verdictColumns (v : Verdict) : List Column :=
  v.letters.map letterColumn ++
    (labels 'S' v.steps.length).map (fun l => { header := String.ofList l, headerStyle := "yellow", cells := [] }) ++
    [{ header := "EQ", cells := [] }]

/-- The cells of a row of a verdict. -/
def verdictCells (g : Glyphs) (v : Verdict) (r : Row) : List String :=
  v.letters.map (fun x => g.ofBool (r.assignment.value x)) ++
    r.results.zipIdx.map (fun (b, i) =>
      if r.mismatchedSteps.contains i then coloured "red" (g.ofBool b) else g.ofBool b) ++
    [coloured (if r.isAgreeing then "green" else "red") (String.ofList [agreementMark r])]

/-- The console table of a verdict. -/
def verdictGrid (g : Glyphs) (v : Verdict) : Grid :=
  { title := some "Equality Verification", titleStyle := some "bold cyan",
    columns := fillColumns (verdictColumns v) (v.rows.map (verdictCells g v)) }

/-- The print of a request that has no rows. -/
def statusPrint (s : Status) : Print := .text (coloured "yellow" s.message)

/-- The prints of a table. -/
def consoleTable (g : Glyphs) (t : TruthTable) : List Print :=
  if t.isEmpty then [statusPrint t.status] else [.grid (tableGrid g t)]

/-- The prints of a verdict. -/
def consoleVerdict (g : Glyphs) (v : Verdict) : List Print :=
  if v.status = .ok then
    .text "\n[bold]Steps:[/]" ::
      List.zipWith (fun label step => .unhighlighted s!"  [yellow]{String.ofList label}[/]: {escaped step}")
        (labels 'S' v.steps.length) v.steps ++
      [.blank, .grid (verdictGrid g v), .blank,
        .text (coloured (if v.allEqual then "bold green" else "bold red") (String.ofList (summary v)))]
  else [statusPrint v.status]

end Propositional.Report
