/-!
# Replacing parts of a text

A part is found by a matcher, which says how many characters a match takes at the start of a text. Matches are replaced from
left to right and do not overlap: after a match the search goes on behind it, and what was put in is not searched again.
-/

namespace Propositional.Text

/-- How many characters a match takes at the start of the text, if one starts there. A match of no characters counts as
none. -/
abbrev Matcher := List Char → Option Nat

/-- `replaceFrom m new k s` skips `k` characters of `s`, which belong to a match that was replaced, and replaces the matches
in the rest. -/
def replaceFrom (m : Matcher) (new : List Char) : Nat → List Char → List Char
  | _, [] => []
  | k + 1, _ :: cs => replaceFrom m new k cs
  | 0, c :: cs =>
    match m (c :: cs) with
    | some (k + 1) => new ++ replaceFrom m new k cs
    | _ => c :: replaceFrom m new 0 cs

/-- The text with every match replaced. -/
def replaceMatches (m : Matcher) (new s : List Char) : List Char := replaceFrom m new 0 s

/-- The matcher of one given text. -/
def literal (old : List Char) : Matcher := fun s => if old.isPrefixOf s then some old.length else none

/-- A text occurs in another. -/
def occursIn (part : List Char) : List Char → Bool
  | [] => part.isEmpty
  | c :: cs => part.isPrefixOf (c :: cs) || occursIn part cs

/-- The text with every occurrence of `old` replaced by `new`. The empty text occurs before every character and at the end. -/
def replaceText (old new s : List Char) : List Char :=
  if old.isEmpty then new ++ s.flatMap (fun c => c :: new) else replaceMatches (literal old) new s

end Propositional.Text
