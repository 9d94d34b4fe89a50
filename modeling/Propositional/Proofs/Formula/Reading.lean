import Propositional.Formula.Parser

/-!
# Runs of the reader

`Reading.after` is the state of the reader behind some tokens, without the places where it stops. It takes appended tokens one
part after the other, and it says all about `Formula.parse` that does not concern faults: a list of tokens is a formula exactly
when the reader takes all of it and ends in a state with an operand and no open group (`parse_eq_ok_iff`).
-/

namespace Propositional

variable {α : Type}

namespace Reading

/-- The state after some tokens, none if one of them cannot stand where it does. -/
def after (s : Reading α) (ts : List (Token α)) : Option (Reading α) := ts.foldlM step s

@[simp] theorem after_nil (s : Reading α) : s.after [] = some s := rfl

@[simp] theorem after_cons (s : Reading α) (t : Token α) (ts : List (Token α)) :
    s.after (t :: ts) = (s.step t).bind (·.after ts) := rfl

theorem after_append (s : Reading α) (ts us : List (Token α)) :
    s.after (ts ++ us) = (s.after ts).bind (·.after us) := by
  simp [after, List.foldlM_append]

/-- The formula read, if the state is one in which a formula may end. -/
def formula? (s : Reading α) : Option (Formula α) :=
  match s.operand, s.outer with
  | some f, [] => some (s.group.close f)
  | _, _ => none

/-- A formula may end where no group is open around and an operand was read, and it is the whole of the group. -/
theorem formula?_eq_some {s : Reading α} {f : Formula α} :
    s.formula? = some f ↔ ∃ g c, s = ⟨[], g, some c⟩ ∧ f = g.close c := by
  constructor
  · intro h
    rcases s with ⟨_ | ⟨p, ps⟩, g, _ | c⟩ <;> simp only [formula?, reduceCtorEq, Option.some.injEq] at h
    exact ⟨g, c, rfl, h.symm⟩
  · rintro ⟨g, c, rfl, rfl⟩
    rfl

/-- The end is reached with a formula exactly where one may end. -/
theorem finish_eq_ok_iff {s : Reading α} {p : Nat} {f : Formula α} : s.finish p = .ok f ↔ s.formula? = some f := by
  rcases s with ⟨_ | ⟨g, gs⟩, h, _ | c⟩ <;> simp [finish, formula?]

/-- Tokens are read as a formula exactly if they lead to where it may end. -/
theorem run_eq_ok_iff {ts : List (Token α)} :
    ∀ {s : Reading α} {p : Nat} {f : Formula α}, s.run p ts = .ok f ↔ (s.after ts).bind formula? = some f := by
  induction ts with
  | nil => intro s p f; simp [run, finish_eq_ok_iff]
  | cons t ts ih =>
    intro s p f
    cases h : s.step t with
    | none => simp [run, h]
    | some s' => simp [run, h, ih]

/-! ## What a step does when an operand is due, and when it is there -/

section Steps

variable (gs : List (Pending α)) (g : Pending α) (f : Formula α)

/-- A negation counts before the operand that is due. -/
@[simp] theorem step_not : (⟨gs, g, none⟩ : Reading α).step .not = some ⟨gs, { g with negations := g.negations + 1 }, none⟩ := rfl

/-- A `(` opens a group where an operand is due. -/
@[simp] theorem step_lparen : (⟨gs, g, none⟩ : Reading α).step .lparen = some ⟨g :: gs, {}, none⟩ := rfl

/-- A leaf is the operand that is due. -/
@[simp] theorem step_leaf (a : α) : (⟨gs, g, none⟩ : Reading α).step (.leaf a) = some ⟨gs, g, some (.leaf a)⟩ := rfl

/-- An `&` makes the operand the last member of the conjunction that waits. -/
@[simp] theorem step_and :
    (⟨gs, g, some f⟩ : Reading α).step .and = some ⟨gs, { g with conjunction := some (g.conjoin f), negations := 0 }, none⟩ := rfl

/-- A `|` makes the conjunction the last member of the disjunction that waits. -/
@[simp] theorem step_or :
    (⟨gs, g, some f⟩ : Reading α).step .or =
      some ⟨gs, { equivalence := g.equivalence, disjunction := some (g.disjoin f) }, none⟩ := rfl

/-- An equivalence makes the whole of the group its left side. -/
@[simp] theorem step_equiv (n : Nat) :
    (⟨gs, g, some f⟩ : Reading α).step (.equiv n) = some ⟨gs, { equivalence := some (.equiv, g.close f) }, none⟩ := rfl

/-- An exclusive disjunction makes the whole of the group its left side. -/
@[simp] theorem step_xor (n : Nat) :
    (⟨gs, g, some f⟩ : Reading α).step (.xor n) = some ⟨gs, { equivalence := some (.xor, g.close f) }, none⟩ := rfl

/-- A `)` makes the whole of the group an operand of the group around. -/
@[simp] theorem step_rparen (p : Pending α) :
    (⟨p :: gs, g, some f⟩ : Reading α).step .rparen = some ⟨gs, p, some (g.close f)⟩ := rfl

end Steps

end Reading

/-- A list of tokens is a formula exactly when the reader takes all of it and may end there. -/
theorem Formula.parse_eq_ok_iff {ts : List (Token α)} {f : Formula α} :
    Formula.parse ts = .ok f ↔ ((({} : Reading α).after ts).bind Reading.formula?) = some f := by
  cases ts with
  | nil => simp [Formula.parse, Reading.formula?]
  | cons t ts => exact Reading.run_eq_ok_iff

end Propositional
