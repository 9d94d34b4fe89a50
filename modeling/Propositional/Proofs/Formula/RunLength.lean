import Propositional.Proofs.Formula.Renaming

/-!
# Runs of any length

An equivalence is written with one to three `=`, an exclusive disjunction with one or two behind `!`. The reader does not look at
the length of a run, so tokens with other lengths are read as the same formula, and refused at the same place
(`Formula.parse_canonical`).
-/

namespace Propositional

variable {α β : Type}

/-- The token with the usual length of its run: two for an equivalence, and one for an exclusive disjunction. -/
def Token.canonical : Token α → Token α
  | equiv _ => .equiv 2
  | xor _ => .xor 1
  | t => t

/-- Renaming leaves the lengths of runs as they are. -/
theorem Token.map_canonical (g : α → β) (t : Token α) : t.canonical.map g = (t.map g).canonical := by cases t <;> rfl

/-- A token is a leaf whatever the length of its run. -/
theorem Token.canonical_eq_leaf {t : Token α} {a : α} : t.canonical = .leaf a ↔ t = .leaf a := by
  cases t <;> simp [canonical]

namespace ParseFault

/-- The fault with the token that was found replaced. -/
def map (g : Token α → Token β) : ParseFault α → ParseFault β
  | empty => .empty
  | operandDue found p => .operandDue (found.map g) p
  | closeDue found p => .closeDue (found.map g) p
  | leftover found p => .leftover (g found) p

/-- The number of the token at which the reading stops. Nothing is read where there are no tokens. -/
def position? : ParseFault α → Option Nat
  | empty => none
  | operandDue _ p | closeDue _ p | leftover _ p => some p

/-- Replacing the token that was found leaves the position as it is. -/
@[simp] theorem position?_map (g : Token α → Token β) (e : ParseFault α) : (e.map g).position? = e.position? := by cases e <;> rfl

end ParseFault

namespace Reading

/-- A step does not depend on the length of a run. -/
theorem step_canonical (s : Reading α) (t : Token α) : s.step t.canonical = s.step t := by
  rcases s with ⟨gs, g, _ | f⟩ <;> cases t <;> rfl

/-- A fault depends on the length of a run in the token found alone. -/
theorem fault_canonical (s : Reading α) (t : Token α) (p : Nat) : s.fault t.canonical p = (s.fault t p).map .canonical := by
  rcases s with ⟨_ | ⟨p, ps⟩, g, _ | f⟩ <;> rfl

/-- At the end no token is found, so no length of a run counts. -/
theorem finish_canonical (s : Reading α) (p : Nat) : s.finish p = (s.finish p).mapError (.map .canonical) := by
  rcases s with ⟨_ | ⟨p, ps⟩, g, _ | f⟩ <;> rfl

/-- The reader goes through the same states whatever the lengths of runs are, and stops at the same token. -/
theorem run_canonical (ts : List (Token α)) :
    ∀ (s : Reading α) (p : Nat), s.run p (ts.map .canonical) = (s.run p ts).mapError (.map .canonical) := by
  induction ts with
  | nil => exact finish_canonical
  | cons t ts ih =>
    intro s p
    rw [List.map_cons, run, run, step_canonical]
    cases s.step t with
    | some s' => exact ih s' (p + 1)
    | none =>
      rw [fault_canonical]
      rfl

end Reading

/-- What tokens are parsed to does not depend on the lengths of runs, and where they are not, the fault does only in the token
found. -/
theorem Formula.parse_canonical (ts : List (Token α)) :
    Formula.parse (ts.map .canonical) = (Formula.parse ts).mapError (.map .canonical) := by
  cases ts with
  | nil => rfl
  | cons t ts => exact Reading.run_canonical (t :: ts) {} 0

end Propositional
