import Propositional.Formula

/-!
# Reading formulas

Tokens are read from left to right by a machine that holds, for every group that is open, the left sides that wait for a right
one. `!` binds tightest, then `&`, then `|`, then the equivalences; every binary connective groups to the left, and parentheses
leave no node. The machine stops at the first token that no formula can have there.
-/

namespace Propositional

/-- What one group waits to combine with the operand to come: a left side for each level of binding that has one, loosest
first, and the number of negations that stand right before the operand. -/
structure Pending (α : Type) where
  equivalence : Option (Connective × Formula α) := none
  disjunction : Option (Formula α) := none
  conjunction : Option (Formula α) := none
  negations : Nat := 0

namespace Pending

variable {α : Type}

/-- The operand with its negations. -/
def unary (p : Pending α) (f : Formula α) : Formula α := f.negate p.negations

/-- The conjunction that ends with the operand. -/
def conjoin (p : Pending α) (f : Formula α) : Formula α :=
  match p.conjunction with
  | some l => .binary .and l (p.unary f)
  | none => p.unary f

/-- The disjunction that ends with the operand. -/
def disjoin (p : Pending α) (f : Formula α) : Formula α :=
  match p.disjunction with
  | some l => .binary .or l (p.conjoin f)
  | none => p.conjoin f

/-- The whole of the group that ends with the operand. -/
def close (p : Pending α) (f : Formula α) : Formula α :=
  match p.equivalence with
  | some (c, l) => .binary c l (p.disjoin f)
  | none => p.disjoin f

end Pending

/-- The state of the reader: the groups that are open around the innermost one, what the innermost one waits for, and the
operand just read. Without an operand, one is due. -/
structure Reading (α : Type) where
  outer : List (Pending α) := []
  group : Pending α := {}
  operand : Option (Formula α) := none

/-- Why tokens are no formula: there are none, an operand is due, the innermost group can only go on or be closed, or the
formula is complete and something follows. `found` is the token that stands there, none at the end, and `position` counts the
tokens before it. -/
inductive ParseFault (α : Type) where
  | empty
  | operandDue (found : Option (Token α)) (position : Nat)
  | closeDue (found : Option (Token α)) (position : Nat)
  | leftover (found : Token α) (position : Nat)
  deriving DecidableEq, Repr

namespace Reading

variable {α : Type}

/-- The state after one more token, none if no formula has that token there. -/
def step (s : Reading α) (t : Token α) : Option (Reading α) :=
  match s.operand, t with
  | none, .not => some { s with group := { s.group with negations := s.group.negations + 1 } }
  | none, .lparen => some { outer := s.group :: s.outer }
  | none, .leaf a => some { s with operand := some (.leaf a) }
  | some f, .and =>
    some { s with group := { s.group with conjunction := some (s.group.conjoin f), negations := 0 }, operand := none }
  | some f, .or =>
    some { s with group := { equivalence := s.group.equivalence, disjunction := some (s.group.disjoin f) }, operand := none }
  | some f, .equiv _ => some { s with group := { equivalence := some (.equiv, s.group.close f) }, operand := none }
  | some f, .xor _ => some { s with group := { equivalence := some (.xor, s.group.close f) }, operand := none }
  | some f, .rparen =>
    match s.outer with
    | g :: gs => some { outer := gs, group := g, operand := some (s.group.close f) }
    | [] => none
  | _, _ => none

/-- The fault of a token that the state does not take. -/
def fault (s : Reading α) (t : Token α) (position : Nat) : ParseFault α :=
  match s.operand, s.outer with
  | none, _ => .operandDue (some t) position
  | some _, _ :: _ => .closeDue (some t) position
  | some _, [] => .leftover t position

/-- The formula read, if the state is one in which a formula may end. -/
def finish (s : Reading α) (position : Nat) : Except (ParseFault α) (Formula α) :=
  match s.operand, s.outer with
  | none, _ => .error (.operandDue none position)
  | some _, _ :: _ => .error (.closeDue none position)
  | some f, [] => .ok (s.group.close f)

/-- Reads the tokens that are left, `position` of them having been read. -/
def run (s : Reading α) (position : Nat) : List (Token α) → Except (ParseFault α) (Formula α)
  | [] => s.finish position
  | t :: ts =>
    match s.step t with
    | some s' => s'.run (position + 1) ts
    | none => .error (s.fault t position)

end Reading

/-- The formula that a list of tokens writes. -/
def Formula.parse {α : Type} : List (Token α) → Except (ParseFault α) (Formula α)
  | [] => .error .empty
  | ts => Reading.run {} 0 ts

end Propositional
