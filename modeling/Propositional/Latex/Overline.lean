import Propositional.Latex.Macro
import Propositional.Letter

/-!
# Overlines

`\overline{…}` is the complement of what stands between its braces. Overlines nest, and the braces of an overline may hold
groups of their own. A text is read once from left to right, with a frame for each overline that is open. An overline whose
brace is never closed is no overline: the text from it on stays as it is.
-/

namespace Propositional.Latex

open Text

/-- The width of the opening of an overline at the start of a text: the macro, any blanks, and the brace. -/
def overlineOpening? (s : List Char) : Option Nat :=
  match literal "\\overline".toList s with
  | some n =>
    let blanks := (s.drop n).takeWhile isBlank
    match s.drop (n + blanks.length) with
    | '{' :: _ => some (n + blanks.length + 1)
    | _ => none
  | none => none

/-- The complement of a text: `!` before a single letter, `!` and parentheses around anything else. -/
def complement (content : List Char) : List Char :=
  match trim content with
  | [x] => if x.isUpper then ['!', x] else ['!', '(', x, ')']
  | s => '!' :: '(' :: (s ++ [')'])

/-- An overline that is open: what was written before it, last character first, how many braces are open inside it, and the
text from its macro on. -/
structure OverlineFrame where
  before : List Char
  depth : Nat
  source : List Char

/-- Replaces the overlines in the rest of a text. `skip` characters belong to an opening that was read, `frames` are the
overlines that are open, innermost first, and `out` is what was written since the innermost opening, last character first. -/
def replaceOverlinesFrom (skip : Nat) (frames : List OverlineFrame) (out : List Char) : List Char → List Char
  | [] =>
    match frames.getLast? with
    | some f => f.before.reverse ++ f.source
    | none => out.reverse
  | c :: cs =>
    match skip with
    | k + 1 => replaceOverlinesFrom k frames out cs
    | 0 =>
      match overlineOpening? (c :: cs) with
      | some n => replaceOverlinesFrom (n - 1) (⟨out, 0, c :: cs⟩ :: frames) [] cs
      | none =>
        match frames with
        | [] => replaceOverlinesFrom 0 [] (c :: out) cs
        | f :: fs =>
          if c = '{' then replaceOverlinesFrom 0 ({ f with depth := f.depth + 1 } :: fs) (c :: out) cs
          else if c = '}' then
            match f.depth with
            | 0 => replaceOverlinesFrom 0 fs ((complement out.reverse).reverse ++ f.before) cs
            | d + 1 => replaceOverlinesFrom 0 ({ f with depth := d } :: fs) (c :: out) cs
          else replaceOverlinesFrom 0 (f :: fs) (c :: out) cs

/-- The text with every closed overline replaced by the complement of its content. -/
def replaceOverlines (s : List Char) : List Char := replaceOverlinesFrom 0 [] [] s

end Propositional.Latex
