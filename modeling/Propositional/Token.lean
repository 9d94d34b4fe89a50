import Propositional.Text.Blank

/-!
# Tokens of a formula

A formula in the native notation is written with `!`, `&`, `|`, runs of `=` with or without a `!` before them, parentheses and
leaves of one character. The text is first cut into pieces, a piece being as long a run of operator characters as belongs
together, and the pieces are then read as tokens. Which characters are leaves is a parameter: the truth values `0` and `1` once
values are put in, and the letters too while they are not.
-/

namespace Propositional

/-- The kinds of token, with the end of a formula as a kind of its own. -/
inductive Kind where
  | const | not | and | or | equiv | xor | lparen | rparen | eof
  deriving DecidableEq, Repr

/-- The name of a kind in messages. -/
def Kind.name : Kind → String
  | .const => "CONST"
  | .not => "NOT"
  | .and => "AND"
  | .or => "OR"
  | .equiv => "EQUIV"
  | .xor => "XOR"
  | .lparen => "LPAREN"
  | .rparen => "RPAREN"
  | .eof => "EOF"

/-- A token with leaves of type `α`. An equivalence is written as a run of one to three `=`, an exclusive disjunction as `!`
and a run of one or two; `run` is the length of the run. -/
inductive Token (α : Type) where
  | leaf (a : α)
  | not
  | and
  | or
  | equiv (run : Nat)
  | xor (run : Nat)
  | lparen
  | rparen
  deriving DecidableEq, Repr

namespace Token

variable {α : Type}

/-- The kind of a token. -/
def kind : Token α → Kind
  | leaf _ => .const
  | not => .not
  | and => .and
  | or => .or
  | equiv _ => .equiv
  | xor _ => .xor
  | lparen => .lparen
  | rparen => .rparen

/-- The text of a token, given the character each leaf is written with. -/
def text (write : α → Char) : Token α → List Char
  | leaf a => [write a]
  | not => ['!']
  | and => ['&']
  | or => ['|']
  | equiv n => List.replicate n '='
  | xor n => '!' :: List.replicate n '='
  | lparen => ['(']
  | rparen => [')']

end Token

/-- The character a truth value is written with. -/
def bit (b : Bool) : Char := if b then '1' else '0'

/-- The truth value a character stands for. -/
def bit? : Char → Option Bool
  | '0' => some false
  | '1' => some true
  | _ => none

/-- A piece of a formula's text: a run of `=`, a `!` with the run of `=` that follows it (which may be empty), or one other
character. -/
inductive Piece where
  | equals (run : Nat)
  | bang (run : Nat)
  | other (c : Char)
  deriving DecidableEq, Repr

/-- The number of characters a piece takes. -/
def Piece.width : Piece → Nat
  | equals n => n
  | bang n => n + 1
  | other _ => 1

/-- Puts one character before a text that is cut into pieces. -/
def Piece.push (c : Char) (ps : List Piece) : List Piece :=
  if c = '=' then
    match ps with
    | equals n :: qs => equals (n + 1) :: qs
    | qs => equals 1 :: qs
  else if c = '!' then
    match ps with
    | equals n :: qs => bang n :: qs
    | qs => bang 0 :: qs
  else other c :: ps

/-- The pieces of a text. Every run is as long as it can be, since a character joins the run that starts behind it. -/
def pieces (s : List Char) : List Piece := s.foldr Piece.push []

/-- Why a text has no tokens, and the place where that shows. -/
inductive ScanFault where
  | unknownOperator (position : Nat)
  | unknownCharacter (position : Nat) (c : Char)
  deriving DecidableEq, Repr

/-- The token of a single character that belongs to no run, if there is one. -/
def Token.ofChar? {α : Type} (leaf? : Char → Option α) (c : Char) : Option (Token α) :=
  match c with
  | '(' => some .lparen
  | ')' => some .rparen
  | '&' => some .and
  | '|' => some .or
  | c => (leaf? c).map .leaf

/-- Reads pieces as tokens, `position` being the place of the first. Blanks are skipped, and the first piece that is too long
a run or no token is the fault. -/
def Token.ofPieces {α : Type} (leaf? : Char → Option α) (position : Nat) : List Piece → Except ScanFault (List (Token α))
  | [] => .ok []
  | p :: ps =>
    match p with
    | .equals n =>
      if n ≤ 3 then (ofPieces leaf? (position + p.width) ps).map (.equiv n :: ·) else .error (.unknownOperator position)
    | .bang n =>
      if n = 0 then (ofPieces leaf? (position + p.width) ps).map (.not :: ·)
      else if n ≤ 2 then (ofPieces leaf? (position + p.width) ps).map (.xor n :: ·)
      else .error (.unknownOperator position)
    | .other c =>
      if Text.isBlank c then ofPieces leaf? (position + p.width) ps
      else
        match Token.ofChar? leaf? c with
        | some t => (ofPieces leaf? (position + p.width) ps).map (t :: ·)
        | none => .error (.unknownCharacter position c)

/-- The tokens of a text. -/
def Token.scan {α : Type} (leaf? : Char → Option α) (s : List Char) : Except ScanFault (List (Token α)) :=
  ofPieces leaf? 0 (pieces s)

end Propositional
