import Propositional.Text.Blank
import Propositional.Text.Replace

/-!
# Macros

A macro is a backslash and the longest run of Latin letters behind it, so `\to` is not the start of `\top`. The matchers of
this module recognise macros by name, single characters, and either of two things.
-/

namespace Propositional.Latex

open Text

/-- The name of the macro at the start of a text, if one starts there. -/
def macroName? : List Char → Option (List Char)
  | '\\' :: cs => if (cs.takeWhile Char.isAlpha).isEmpty then none else some (cs.takeWhile Char.isAlpha)
  | _ => none

/-- A name is one of a list of names. -/
def isNamed (names : List String) (name : List Char) : Bool := names.any (·.toList == name)

/-- Matches a macro with one of the given names. -/
def macroMatcher (names : List String) : Matcher := fun s =>
  match macroName? s with
  | some name => if isNamed names name then some (name.length + 1) else none
  | none => none

/-- Matches one of the given characters. -/
def charMatcher (cs : List Char) : Matcher
  | c :: _ => if cs.contains c then some 1 else none
  | [] => none

/-- Matches what the first matcher matches, else what the second does. -/
def either (m m' : Matcher) : Matcher := fun s => (m s).or (m' s)

/-- Matches what the matcher does, and the blanks behind it. -/
def andBlanks (m : Matcher) : Matcher := fun s => (m s).map fun n => n + ((s.drop n).takeWhile isBlank).length

end Propositional.Latex
