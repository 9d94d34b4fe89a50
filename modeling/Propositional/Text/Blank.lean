/-!
# Blanks

The characters that separate words, and the operations on texts that depend on them alone. A text is a list of characters
here and in every module that takes text apart; `String` is kept for what the library shows.
-/

namespace Propositional.Text

/-- A blank is one of the 29 characters of Unicode that separate words: the ASCII controls that move the cursor or separate
records, the space, and the wider spaces and line separators beyond ASCII. A zero-width space is not a blank. -/
def isBlank (c : Char) : Bool :=
  let n := c.toNat
  (9 ≤ n && n ≤ 13) || (28 ≤ n && n ≤ 32) || n == 0x85 || n == 0xA0 || n == 0x1680 || (0x2000 ≤ n && n ≤ 0x200A) ||
    n == 0x2028 || n == 0x2029 || n == 0x202F || n == 0x205F || n == 0x3000

/-- The text without the blanks at its end. -/
def trimEnd (s : List Char) : List Char := (s.reverse.dropWhile isBlank).reverse

/-- The text without the blanks at its two ends. -/
def trim (s : List Char) : List Char := trimEnd (s.dropWhile isBlank)

/-- The text with each run of blanks replaced by one space. -/
def squeeze : List Char → List Char
  | [] => []
  | c :: cs =>
    if isBlank c then
      match squeeze cs with
      | ' ' :: r => ' ' :: r
      | r => ' ' :: r
    else c :: squeeze cs

/-- The words of the text with one space between neighbours. -/
def collapse (s : List Char) : List Char := trim (squeeze s)

end Propositional.Text
