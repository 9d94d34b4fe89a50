import Propositional.Proofs.Formula.Reading

/-!
# Renaming leaves

Tokens, formulas and the states of the reader with their leaves renamed. The reader never looks at a leaf, so it makes the renamed
formula of the renamed tokens, and takes no others (`Formula.parse_map_eq_ok_iff`).
-/

namespace Propositional

variable {α β : Type}

/-- The token with its leaf renamed. -/
def Token.map (g : α → β) : Token α → Token β
  | leaf a => .leaf (g a)
  | not => .not
  | and => .and
  | or => .or
  | equiv n => .equiv n
  | xor n => .xor n
  | lparen => .lparen
  | rparen => .rparen

/-- The formula with its leaves renamed. -/
def Formula.map (g : α → β) : Formula α → Formula β
  | .leaf a => .leaf (g a)
  | .not f => .not (map g f)
  | .binary c l r => .binary c (map g l) (map g r)

/-- A formula with its leaves renamed has its value under the values of the new names. -/
theorem Formula.eval_map (g : α → β) (val : β → Bool) (f : Formula α) : (f.map g).eval val = f.eval (val ∘ g) := by
  induction f with
  | leaf a => rfl
  | not f ih => simp [Formula.map, Formula.eval, ih]
  | binary c l r ihl ihr => simp [Formula.map, Formula.eval, ihl, ihr]

/-- Renaming leaves negations before a formula as they are. -/
theorem Formula.map_negate (g : α → β) (n : Nat) (f : Formula α) : (f.negate n).map g = (f.map g).negate n := by
  induction n with
  | zero => rfl
  | succ n ih => simp [Formula.negate, Formula.map, ih]

namespace Pending

/-- What a group waits with, with leaves renamed. -/
def map (g : α → β) (p : Pending α) : Pending β where
  equivalence := p.equivalence.map fun q => (q.1, q.2.map g)
  disjunction := p.disjunction.map (·.map g)
  conjunction := p.conjunction.map (·.map g)
  negations := p.negations

/-- Renaming goes through the conjunction that ends with an operand. -/
theorem conjoin_map (g : α → β) (p : Pending α) (f : Formula α) : (p.map g).conjoin (f.map g) = (p.conjoin f).map g := by
  cases h : p.conjunction <;> simp [conjoin, map, unary, h, Formula.map, Formula.map_negate]

/-- Renaming goes through the disjunction that ends with an operand. -/
theorem disjoin_map (g : α → β) (p : Pending α) (f : Formula α) : (p.map g).disjoin (f.map g) = (p.disjoin f).map g := by
  have hc := conjoin_map g p f
  cases h : p.disjunction <;> simp [disjoin, hc, h, Formula.map] <;> simp [map, h]

/-- Renaming goes through the whole of a group. -/
theorem close_map (g : α → β) (p : Pending α) (f : Formula α) : (p.map g).close (f.map g) = (p.close f).map g := by
  have hd := disjoin_map g p f
  cases h : p.equivalence <;> simp [close, hd, h, Formula.map] <;> simp [map, h]

end Pending

namespace Reading

/-- A state with leaves renamed. -/
def map (g : α → β) (s : Reading α) : Reading β where
  outer := s.outer.map (·.map g)
  group := s.group.map g
  operand := s.operand.map (·.map g)

/-- A step on renamed leaves leads to the renamed state. -/
theorem step_map (g : α → β) (s : Reading α) (t : Token α) : (s.map g).step (t.map g) = (s.step t).map (map g) := by
  obtain ⟨gs, p, o⟩ := s
  cases o with
  | none => cases t <;> rfl
  | some f =>
    cases t with
    | and => simp [map, step, Token.map, Pending.conjoin_map]; simp [Pending.map]
    | or => simp [map, step, Token.map, Pending.disjoin_map]; simp [Pending.map]
    | equiv n => simp [map, step, Token.map, Pending.close_map]; simp [Pending.map]
    | xor n => simp [map, step, Token.map, Pending.close_map]; simp [Pending.map]
    | rparen => cases gs <;> simp [map, step, Token.map, Pending.close_map]
    | _ => rfl

/-- Tokens with renamed leaves lead to the renamed state. -/
theorem after_map (g : α → β) (ts : List (Token α)) :
    ∀ s : Reading α, (s.map g).after (ts.map (·.map g)) = (s.after ts).map (map g) := by
  induction ts with
  | nil => intro s; rfl
  | cons t ts ih =>
    intro s
    rw [List.map_cons, after_cons, after_cons, step_map]
    cases h : s.step t with
    | none => rfl
    | some r => exact ih r

/-- The formula of a renamed state is the renamed formula. -/
theorem formula?_map (g : α → β) (s : Reading α) : (s.map g).formula? = s.formula?.map (·.map g) := by
  rcases s with ⟨_ | ⟨p, ps⟩, q, _ | f⟩ <;> simp [map, formula?, Pending.close_map]

end Reading

/-- Renamed tokens are read as the renamed formula. -/
theorem Formula.parse_map_eq_ok_iff (g : α → β) {ts : List (Token α)} {k : Formula β} :
    Formula.parse (ts.map (·.map g)) = .ok k ↔ ∃ f, Formula.parse ts = .ok f ∧ f.map g = k := by
  have h : (({} : Reading β).after (ts.map (·.map g))).bind Reading.formula? =
      ((({} : Reading α).after ts).bind Reading.formula?).map (·.map g) := by
    rw [show ({} : Reading β) = ({} : Reading α).map g from rfl, Reading.after_map]
    cases ({} : Reading α).after ts with
    | none => rfl
    | some s => exact Reading.formula?_map g s
  simp only [Formula.parse_eq_ok_iff, h, Option.map_eq_some_iff]

end Propositional
