import Propositional.Token

/-!
# Formulas

A formula is a tree of negations and binary operations over leaves. The operators are a parameter of the tree: over the four
connectives every tree has a value, while a tree whose nodes carry any kind of token may hold an operator that means nothing.
-/

namespace Propositional

/-- A tree of negations and binary operations with operators `ω` and leaves `α`. -/
inductive Tree (ω α : Type) where
  | leaf (a : α)
  | not (operand : Tree ω α)
  | binary (op : ω) (left right : Tree ω α)
  deriving DecidableEq, Repr

/-- The binary connectives. -/
inductive Connective where
  | and | or | equiv | xor
  deriving DecidableEq, Repr

/-- A formula over the binary connectives. -/
abbrev Formula (α : Type) := Tree Connective α

namespace Connective

/-- The truth function of a connective. -/
def apply : Connective → Bool → Bool → Bool
  | and, a, b => a && b
  | or, a, b => a || b
  | equiv, a, b => a == b
  | xor, a, b => a != b

/-- The kind of token that writes a connective. -/
def kind : Connective → Kind
  | and => .and
  | or => .or
  | equiv => .equiv
  | xor => .xor

/-- How a connective is written in a formula. -/
def symbol : Connective → List Char
  | and => ['&']
  | or => ['|']
  | equiv => ['=', '=']
  | xor => ['!', '=']

end Connective

/-- The connective that a kind of token writes, if it writes one. -/
def Kind.connective? : Kind → Option Connective
  | .and => some .and
  | .or => some .or
  | .equiv => some .equiv
  | .xor => some .xor
  | _ => none

/-- How an operator of any kind is written: as its connective, or as `?` if it is none. -/
def Kind.symbol (k : Kind) : List Char := (k.connective?.map Connective.symbol).getD ['?']

namespace Tree

variable {ω α : Type}

/-- The full writing of a tree: `!(x)` for a negation and `(l & r)` for a binary operation. -/
def render (symbol : ω → List Char) (write : α → Char) : Tree ω α → List Char
  | leaf a => [write a]
  | not x => '!' :: '(' :: (x.render symbol write ++ [')'])
  | binary op l r => '(' :: (l.render symbol write ++ ' ' :: (symbol op ++ ' ' :: (r.render symbol write ++ [')'])))

/-- The value of a tree over any kinds of operator. Both operands have their value before the operator is looked at, the left
one first; an operator that is no connective is answered by the node that has it. -/
def value? : Tree Kind Bool → Except (Tree Kind Bool) Bool
  | leaf b => .ok b
  | not x => x.value?.map (!·)
  | binary op l r => do
    let a ← l.value?
    let b ← r.value?
    match op.connective? with
    | some c => .ok (c.apply a b)
    | none => .error (.binary op l r)

end Tree

namespace Formula

variable {α : Type}

/-- The value of a formula under values for its leaves. -/
def eval (val : α → Bool) : Formula α → Bool
  | .leaf a => val a
  | .not x => !eval val x
  | .binary c l r => c.apply (eval val l) (eval val r)

/-- A formula with `n` negations before it. -/
def negate : Nat → Formula α → Formula α
  | 0, f => f
  | n + 1, f => .not (negate n f)

end Formula

end Propositional
