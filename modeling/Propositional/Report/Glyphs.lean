import Propositional.Text.Split

/-!
# Glyphs and padding

Reports show truth values by glyphs and set texts into columns of a fixed width.
-/

namespace Propositional

/-- The texts that stand for true and false. -/
structure Glyphs where
  yes : String := "T"
  no : String := "F"
  deriving DecidableEq, Repr

/-- The glyph of a truth value. -/
def Glyphs.ofBool (g : Glyphs) (b : Bool) : String := if b then g.yes else g.no

namespace Report

/-- The text with spaces before it, up to a width. A wider text stays as it is. -/
def padLeft (width : Nat) (s : List Char) : List Char := List.replicate (width - s.length) ' ' ++ s

/-- The text with spaces behind it, up to a width. A wider text stays as it is. -/
def padRight (width : Nat) (s : List Char) : List Char := s ++ List.replicate (width - s.length) ' '

/-- A number in decimal digits. -/
def decimal (n : Nat) : List Char := Nat.toDigits 10 n

/-- The labels `E1`, `E2`, … of a report, as many as there are columns. -/
def labels (initial : Char) (count : Nat) : List (List Char) := (List.range count).map fun i => initial :: decimal (i + 1)

/-- Lines as one text, with a line feed between neighbours. -/
def ofLines (lines : List (List Char)) : String := String.ofList (Text.joinWith ['\n'] lines)

/-- The mark of what agrees. -/
def check : Char := '✓'

/-- The mark of what differs. -/
def cross : Char := '✗'

end Report

end Propositional
