import Propositional.Latex.Lexeme

/-!
# Eliminating implications

An implication `L → R` is written `!L | R`. The list of lexemes is read from left to right, and what was read holds no arrow
any more. At an arrow its left operand is looked for at the end of what was read: an atom, or a group in parentheses, with the
negations before it. An arrow without a left operand becomes a plain `|`, which is put on record, or is an error where that is
asked for.
-/

namespace Propositional.Latex

/-! ## The left operand

What was read is held with its last lexeme first, so that the search for an operand goes forward in the list. -/

/-- How many lexemes a group takes at the start of a reversed list, up to the `(` at which the depth comes down to zero. -/
def groupLength? (depth : Int) : List Lexeme → Option Nat
  | [] => none
  | .rparen :: ts => (groupLength? (depth + 1) ts).map (· + 1)
  | .lparen :: ts => if depth = 1 then some 1 else (groupLength? (depth - 1) ts).map (· + 1)
  | _ :: ts => (groupLength? depth ts).map (· + 1)

/-- How many negations stand at the start of a reversed list. -/
def negationCount (ts : List Lexeme) : Nat := (ts.takeWhile (· = .not)).length

/-- How many lexemes an operand takes at the start of a reversed list: an atom or a group, and the negations behind it. -/
def operandLength? (ts : List Lexeme) : Option Nat :=
  let core :=
    match ts with
    | .rparen :: _ => groupLength? 0 ts
    | .atom _ :: _ => some 1
    | _ => none
  core.map fun n => n + negationCount (ts.drop n)

/-- A place behind the end of a list of lexemes was read. -/
structure PastEnd where
  deriving DecidableEq, Repr

/-- The lexemes before a place, last one first. -/
def readBack (ts : List Lexeme) (k : Nat) : List Lexeme := (ts.take k).reverse

/-- The place of the `(` that opens the group which the `)` at a place closes. There is no place before the list, and no group
ends there. -/
def matchOpen? (ts : List Lexeme) : Int → Except PastEnd (Option Nat)
  | .ofNat k => if k < ts.length then .ok ((groupLength? 0 (readBack ts (k + 1))).map (k + 1 - ·)) else .error {}
  | .negSucc _ => .ok none

/-- The place where the negations before a place start. -/
def absorbNegations (ts : List Lexeme) : Int → Except PastEnd Int
  | .ofNat k => if k ≤ ts.length then .ok (k - negationCount (readBack ts k)) else .error {}
  | k => .ok k

/-- The place where the left operand of the arrow at a place starts, if it has one. -/
def findLeftOperand? (ts : List Lexeme) : Int → Except PastEnd (Option Nat)
  | .ofNat k => if k ≤ ts.length then .ok ((operandLength? (readBack ts k)).map (k - ·)) else .error {}
  | .negSucc _ => .ok none

/-! ## The elimination -/

/-- A list of lexemes that is an atom with negations before it. -/
def isNegatedAtom : List Lexeme → Bool
  | [.atom _] => true
  | .not :: ts => isNegatedAtom ts
  | _ => false

/-- An operand as `!` can stand before it: in parentheses, unless it is a group or an atom with negations. -/
def guardOperand (operand : List Lexeme) : List Lexeme :=
  match operand with
  | .lparen :: _ => operand
  | _ => if isNegatedAtom operand then operand else .lparen :: (operand ++ [.rparen])

/-- The surroundings of an arrow in messages: six lexemes before it and three behind it. `done` is what was read before it,
last lexeme first. -/
def arrowContext (done rest : List Lexeme) : List Char :=
  Lexeme.render ((done.take 6).reverse ++ .arrow :: rest.take 3)

/-- The left operand of an arrow cannot be found, in the surroundings given. -/
structure UnresolvedScope where
  context : String
  deriving DecidableEq, Repr

/-- Lexemes without arrows, and the surroundings of each arrow that became a plain `|`. -/
structure Elimination where
  lexemes : List Lexeme
  degraded : List String
  deriving DecidableEq, Repr

/-- Eliminates the implications of the rest of a list, of which `done` was read before, last lexeme first. With `strict` an
arrow without a left operand is an error. -/
def eliminateFrom (strict : Bool) (done : List Lexeme) : List Lexeme → Except UnresolvedScope Elimination
  | [] => .ok ⟨done.reverse, []⟩
  | .arrow :: ts =>
    match operandLength? done with
    | some n => eliminateFrom strict (.or :: ((guardOperand (done.take n).reverse).reverse ++ .not :: done.drop n)) ts
    | none =>
      let context := String.ofList (arrowContext done ts)
      if strict then .error ⟨context⟩
      else (eliminateFrom strict (.or :: done) ts).map fun e => ⟨e.lexemes, context :: e.degraded⟩
  | t :: ts => eliminateFrom strict (t :: done) ts

/-- Eliminates the implications of a list of lexemes. -/
def eliminate (strict : Bool) (ts : List Lexeme) : Except UnresolvedScope Elimination := eliminateFrom strict [] ts

end Propositional.Latex
