/-!
# Cutting a text

A text is cut at separators that are dropped. There is one part more than there are cuts, and joining the parts with the
separator gives back the text.
-/

namespace Propositional.Text

/-- Puts one character before the first part. -/
def pushFirst (c : Char) : List (List Char) → List (List Char)
  | [] => [[c]]
  | p :: ps => (c :: p) :: ps

/-- The parts of a text between the occurrences of a character. -/
def splitAtChar (sep : Char) : List Char → List (List Char)
  | [] => [[]]
  | c :: cs => if c = sep then [] :: splitAtChar sep cs else pushFirst c (splitAtChar sep cs)

/-- The depth of brackets behind a character. It never falls below zero: what closes no bracket is ignored. -/
def depthAfter (depth : Nat) (c : Char) : Nat :=
  if c = '(' || c = '{' then depth + 1 else if c = ')' || c = '}' then depth - 1 else depth

/-- The parts of the rest of a text, which starts at the given depth of brackets, between the occurrences of the separator
outside brackets. The separator is compared with single characters. -/
def splitTopLevelFrom (sep : List Char) (depth : Nat) : List Char → List (List Char)
  | [] => [[]]
  | c :: cs =>
    let parts := splitTopLevelFrom sep (depthAfter depth c) cs
    if [c] = sep ∧ depthAfter depth c = 0 then [] :: parts else pushFirst c parts

/-- The parts of a text between the occurrences of the separator outside parentheses and braces. -/
def splitTopLevel (sep s : List Char) : List (List Char) := splitTopLevelFrom sep 0 s

/-- The parts joined with a separator between neighbours. -/
def joinWith (sep : List Char) : List (List Char) → List Char
  | [] => []
  | [p] => p
  | p :: ps => p ++ sep ++ joinWith sep ps

end Propositional.Text
