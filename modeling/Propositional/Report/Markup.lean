/-!
# Markup of the console

On the console a tag is a bracket, one of the characters that may start a tag, and what follows up to the closing bracket with
no other opening bracket between. A backslash before a tag makes it plain text, and a text is escaped by putting one there; the
backslashes that stand before a tag already are doubled.
-/

namespace Propositional.Report

/-- A character that may follow the bracket of a tag. -/
def startsTag (c : Char) : Bool := c.isLower || c = '#' || c = '/' || c = '@'

/-- The length of the tag at the start of a text, if one stands there. -/
def tagLength? : List Char → Option Nat
  | '[' :: c :: cs =>
    let content := cs.takeWhile fun d => d != '[' && d != ']'
    match cs.drop content.length with
    | ']' :: _ => if startsTag c then some (content.length + 3) else none
    | _ => none
  | _ => none

/-- The number of backslashes at the start of a text and the length of the tag behind them, if a tag stands there. -/
def escapedTag? (s : List Char) : Option (Nat × Nat) :=
  let slashes := (s.takeWhile (· = '\\')).length
  (tagLength? (s.drop slashes)).map (slashes, ·)

/-- Escapes the rest of a text, of which the first `keep` characters belong to a tag that was escaped. -/
def escapeTagsFrom : Nat → List Char → List Char
  | _, [] => []
  | k + 1, c :: cs => c :: escapeTagsFrom k cs
  | 0, c :: cs =>
    match escapedTag? (c :: cs) with
    | some (slashes, length) =>
      List.replicate (slashes + 1) '\\' ++ c :: escapeTagsFrom (slashes + length - 1) cs
    | none => c :: escapeTagsFrom 0 cs

/-- The text ends in exactly one backslash. -/
def endsInBackslash (s : List Char) : Bool :=
  match s.reverse with
  | ['\\'] => true
  | '\\' :: c :: _ => c != '\\'
  | _ => false

/-- A text that the console shows as it is. One backslash at the end is doubled, since a tag may be put behind it. -/
def escapeMarkup (s : List Char) : List Char :=
  let t := escapeTagsFrom 0 s
  if endsInBackslash t then t ++ ['\\'] else t

/-- `escapeMarkup` on strings. -/
def escaped (s : String) : String := String.ofList (escapeMarkup s.toList)

end Propositional.Report
