import Propositional.Report.Console

/-!
# Prints on a plain terminal

Where no console lays tables out and colours text, prints become lines: tags are left out, rules become titles between dashes,
and tables have their columns set to the left.
-/

namespace Propositional.Report

/-- The rest of a text without its tags, of which `skip` characters belong to a tag. A tag behind an odd number of backslashes
is text, and of the backslashes before a tag one of two is kept. -/
def withoutTagsFrom (skip : Nat) : List Char → List Char
  | [] => []
  | c :: cs =>
    match skip with
    | k + 1 => withoutTagsFrom k cs
    | 0 =>
      match escapedTag? (c :: cs) with
      | some (slashes, length) =>
        let tag := if slashes % 2 = 1 then ((c :: cs).drop slashes).take length else []
        List.replicate (slashes / 2) '\\' ++ tag ++ withoutTagsFrom (slashes + length - 1) cs
      | none => c :: withoutTagsFrom 0 cs

/-- A text with markup as it reads. -/
def withoutTags (s : String) : List Char := withoutTagsFrom 0 s.toList

/-- The cells of a column from its heading down, all of one width. -/
def columnCells (c : Column) : List (List Char) :=
  let cells := withoutTags c.header :: c.cells.map withoutTags
  let width := (cells.map List.length).foldl max 0
  cells.map (padRight width)

/-- The lines of a table. -/
def gridLines (g : Grid) : List (List Char) :=
  let columns := g.columns.map columnCells
  let count := columns.foldl (fun n c => max n c.length) 0
  (g.title.map String.toList).toList ++
    (List.range count).map fun i => Text.joinWith [' ', '|', ' '] (columns.map fun cells => cells[i]?.getD [])

/-- The text of a print, without a line feed at its end. -/
def Print.plainText (p : Print) : String :=
  match p.item with
  | none => ""
  | some (.text s) => if p.treatment = .verbatim then s else String.ofList (withoutTags s)
  | some (.rule s) => String.ofList ("--- ".toList ++ withoutTags s ++ " ---".toList)
  | some (.grid g) => ofLines (gridLines g)

end Propositional.Report
