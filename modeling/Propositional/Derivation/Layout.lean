import Propositional.Latex.Macro
import Propositional.Text.Split

/-!
# The layout of a derivation

A derivation is laid out with notes, environments, line breaks, brackets of adjusted size, spaces of all widths, alignment
marks and delimiters of mathematics. None of them is part of a formula, and all of them are taken out before the derivation
is cut into steps.
-/

namespace Propositional.Derivation

open Text Latex

/-- The length of a group in braces at the start of a text whose content the given characters make up and which is not empty
unless `allowEmpty`. -/
def bracedLength? (inside : Char → Bool) (allowEmpty : Bool) : List Char → Option Nat
  | '{' :: cs =>
    let content := cs.takeWhile inside
    match cs.drop content.length with
    | '}' :: _ => if content.isEmpty && !allowEmpty then none else some (content.length + 2)
    | _ => none
  | _ => none

/-- Matches one of the given openings, blanks, and a group in braces. -/
def bracedMatcher (openings : List String) (inside : Char → Bool) (allowEmpty : Bool) : Matcher := fun s =>
  openings.findSome? fun opening =>
    match literal opening.toList s with
    | some n =>
      let blanks := ((s.drop n).takeWhile isBlank).length
      (bracedLength? inside allowEmpty (s.drop (n + blanks))).map (n + blanks + ·)
    | none => none

/-- A note: free text in braces behind one of the text macros. -/
def note : Matcher := bracedMatcher ["\\text", "\\textrm", "\\textbf", "\\textit"] (· != '}') true

/-- The beginning or end of an environment. -/
def environment : Matcher := bracedMatcher ["\\begin", "\\end"] (fun c => c.isAlpha || c = '*') false

/-- A macro that adjusts the size of the bracket behind it. -/
def sizing : Matcher := macroMatcher ["left", "right", "bigl", "bigr", "Bigl", "Bigr", "big", "Big"]

/-- A macro of horizontal space. -/
def spacing : Matcher :=
  either (macroMatcher ["qquad", "quad"]) fun s =>
    match s with
    | '\\' :: c :: _ => if c = ',' || c = ';' || c = ':' then some 2 else none
    | _ => none

/-- A derivation without its layout: one line for each line that still holds something. -/
def clean (s : List Char) : List Char :=
  let s := replaceMatches note [] s
  let s := replaceMatches environment [] s
  let s := replaceMatches (literal ['\\', '\\']) [] s
  let s := replaceMatches sizing [] s
  let s := replaceMatches spacing [' '] s
  let s := s.filter fun c => c != '$' && c != '&'
  joinWith ['\n'] (((splitAtChar '\n' s).map trim).filter (!·.isEmpty))

end Propositional.Derivation
