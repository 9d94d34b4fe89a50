import Propositional.Latex.Macro

/-!
# Spellings of constants and connectives

LaTeX and Unicode spell a constant or a connective in several ways. Each group of spellings has one native spelling, and the
groups are taken in a fixed order. Arrows of implication are not among them: they have no native spelling.
-/

namespace Propositional.Latex

open Text

/-- A group of spellings and the text that replaces them. -/
structure Spelling where
  matcher : Matcher
  native : List Char

/-- The groups of spellings in the order in which they are replaced. A negation is written right before its operand, so the
blanks behind it go with it. -/
def spellings : List Spelling := [
  ⟨either (macroMatcher ["bot"]) (charMatcher ['⊥']), ['0']⟩,
  ⟨either (macroMatcher ["top"]) (charMatcher ['⊤']), ['1']⟩,
  ⟨either (macroMatcher ["lor", "vee"]) (charMatcher ['∨']), [' ', '|', ' ']⟩,
  ⟨either (macroMatcher ["land", "wedge"]) (charMatcher ['∧']), [' ', '&', ' ']⟩,
  ⟨andBlanks (either (macroMatcher ["lnot", "neg", "sim"]) (charMatcher ['¬', '~'])), ['!']⟩,
  ⟨either (macroMatcher ["leftrightarrow", "Leftrightarrow", "iff", "equiv"]) (charMatcher ['↔', '⇔']),
    [' ', '=', '=', ' ']⟩]

/-- The text with every group of spellings replaced. -/
def respell (s : List Char) : List Char := spellings.foldl (fun s g => replaceMatches g.matcher g.native s) s

end Propositional.Latex
