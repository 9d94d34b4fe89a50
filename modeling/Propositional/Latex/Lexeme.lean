import Propositional.Latex.Macro

/-!
# Lexemes of a LaTeX formula

The text of a formula, once its constants and connectives have their native spellings, is cut into lexemes: atoms, connectives,
arrows, parentheses, and whatever else stands there, which is kept as it is and never makes a formula. Writing lexemes puts one
space around each binary connective, arrow, macro and word, and none elsewhere.
-/

namespace Propositional.Latex

open Text

/-- A lexeme. An atom is a capital letter, `0` or `1`; `other` is any other text. -/
inductive Lexeme where
  | atom (c : Char)
  | not
  | and
  | or
  | equiv
  | xor
  | arrow
  | lparen
  | rparen
  | other (text : List Char)
  deriving DecidableEq, Repr

/-- A character that stands for a formula by itself. -/
def isAtom (c : Char) : Bool := c.isUpper || c = '0' || c = '1'

namespace Lexeme

/-- The lexeme with a given text. -/
def ofText : List Char → Lexeme
  | [c] =>
    if c = '!' then not
    else if c = '&' then and
    else if c = '|' then or
    else if c = '(' then lparen
    else if c = ')' then rparen
    else if isAtom c then atom c
    else other [c]
  | ['=', '='] => equiv
  | ['!', '='] => xor
  | ['-', '>'] => arrow
  | s => other s

/-- The text of a lexeme. -/
def text : Lexeme → List Char
  | atom c => [c]
  | not => ['!']
  | and => ['&']
  | or => ['|']
  | equiv => ['=', '=']
  | xor => ['!', '=']
  | arrow => ['-', '>']
  | lparen => ['(']
  | rparen => [')']
  | other s => s

/-- The macros that are arrows of implication. -/
def arrowMacros : List String := ["rightarrow", "to", "implies", "Rightarrow", "longrightarrow"]

/-- The lexeme at the start of the text `c :: cs`, none if `c` is a blank, and how many characters of `cs` belong to it. A
backslash without a name takes the one character behind it. -/
def next (c : Char) (cs : List Char) : Option Lexeme × Nat :=
  if isBlank c then (none, 0)
  else if c = '\\' then
    match cs.takeWhile Char.isAlpha with
    | [] => (some (other ('\\' :: cs.take 1)), 1)
    | name => (some (if isNamed arrowMacros name then arrow else other ('\\' :: name)), name.length)
  else
    match c, cs with
    | '<', '-' :: '>' :: _ => (some equiv, 2)
    | '<', '=' :: '>' :: _ => (some equiv, 2)
    | '-', '>' :: _ => (some arrow, 1)
    | '=', '>' :: _ => (some arrow, 1)
    | '→', _ => (some arrow, 0)
    | '⇒', _ => (some arrow, 0)
    | '!', '=' :: r => (some xor, (r.takeWhile (· = '=')).length + 1)
    | '=', r => (some equiv, (r.takeWhile (· = '=')).length)
    | c, r =>
      if c.isLower then (some (other (c :: r.takeWhile Char.isLower)), (r.takeWhile Char.isLower).length)
      else (some (ofText [c]), 0)

/-- The lexemes of the rest of a text, of which `skip` characters belong to a lexeme that was read. -/
def lexFrom : Nat → List Char → List Lexeme
  | _, [] => []
  | k + 1, _ :: cs => lexFrom k cs
  | 0, c :: cs =>
    match next c cs with
    | (some t, n) => t :: lexFrom n cs
    | (none, n) => lexFrom n cs

/-- The lexemes of a text. -/
def lex (s : List Char) : List Lexeme := lexFrom 0 s

/-- A lexeme is written with a space on each side if it is a binary connective, an arrow, a macro or a word. -/
def isSpaced : Lexeme → Bool
  | and | or | equiv | xor | arrow => true
  | other ('\\' :: _) => true
  | other s => !s.isEmpty && s.all Char.isLower
  | _ => false

/-- A lexeme with the spaces around it. -/
def spaced (t : Lexeme) : List Char := if t.isSpaced then ' ' :: (t.text ++ [' ']) else t.text

/-- The canonical text of a list of lexemes. -/
def render (ts : List Lexeme) : List Char := collapse (ts.flatMap spaced)

end Lexeme

end Propositional.Latex
