import Propositional.Proofs.Formula.Grammar
import Propositional.Proofs.Token.Munch

/-!
# Reading a full writing

The full writing of a formula puts each negated operand and each binary operation in parentheses. Its tokens write the formula by
the grammar (`Formula.writes_tokens`), and no two of them run together in the text (`Formula.spells_render`). So the text is read
as the formula that it was made of (`compile_render`).
-/

namespace Propositional

open Grammar

variable {α : Type}

/-- The token of a connective in a full writing. -/
def Connective.token : Connective → Token α
  | and => .and
  | or => .or
  | equiv => .equiv 2
  | xor => .xor 1

theorem Connective.text_token (c : Connective) (write : α → Char) : (c.token : Token α).text write = c.symbol := by
  cases c <;> rfl

/-- The token of a connective can be written. -/
theorem Connective.writable_token (c : Connective) : (c.token : Token Char).Writable := by
  cases c with
  | and => trivial
  | or => trivial
  | equiv => exact ⟨by decide, by decide⟩
  | xor => exact ⟨by decide, by decide⟩

namespace Formula

/-- The tokens of the full writing of a formula. -/
def tokens : Formula α → List (Token α)
  | .leaf a => [.leaf a]
  | .not x => .not :: .lparen :: (tokens x ++ [.rparen])
  | .binary c l r => .lparen :: (tokens l ++ c.token :: (tokens r ++ [.rparen]))

/-- What is written as a unary may stand by itself. -/
theorem writes_biconditional {f : Formula α} {ts : List (Token α)} (h : Writes .unary f ts) : Writes .biconditional f ts :=
  .ofDisjunction (.ofConjunction (.ofUnary h))

/-- Two unaries with a connective between them, whichever level that belongs to. -/
theorem writes_binary (c : Connective) {l r : Formula α} {ts us : List (Token α)} (hl : Writes .unary l ts)
    (hr : Writes .unary r us) : Writes .biconditional (.binary c l r) (ts ++ c.token :: us) := by
  cases c with
  | and => exact .ofDisjunction (.ofConjunction (.and (.ofUnary hl) hr))
  | or => exact .ofDisjunction (.or (.ofConjunction (.ofUnary hl)) (.ofUnary hr))
  | equiv => exact .equivalence rfl (writes_biconditional hl) (.ofConjunction (.ofUnary hr))
  | xor => exact .equivalence rfl (writes_biconditional hl) (.ofConjunction (.ofUnary hr))

/-- The tokens of a full writing write the formula, at the tightest level. -/
theorem writes_tokens (f : Formula α) : Writes .unary f f.tokens := by
  induction f with
  | leaf a => exact .leaf a
  | not x ih => exact .not (.group (writes_biconditional ih))
  | binary c l r ihl ihr =>
    have h := Writes.group (writes_binary c ihl ihr)
    rwa [List.append_assoc, List.cons_append] at h

/-- A full writing spells its tokens, before any text: it ends with a leaf or a parenthesis, which no character joins. -/
theorem spells_render {write : α → Char} (hw : ∀ a, (write a).isAlphanum) (f : Formula α) :
    ∀ {us : List (Token Char)} {s : List Char}, Token.Spells us s →
      Token.Spells (f.tokens.map (·.map write) ++ us) (f.render Connective.symbol write ++ s) := by
  induction f with
  | leaf a => exact fun h => .token (t := .leaf (write a)) (hw a) nofun h
  | not x ih =>
    intro us s h
    have hclose : Token.Spells (.rparen :: us) (')' :: s) := .token (t := .rparen) trivial nofun h
    have hopen := Token.Spells.token (t := .lparen) trivial nofun (ih hclose)
    have hnot := Token.Spells.token (t := .not) trivial (fun _ => by simp [Token.text]) hopen
    simpa [tokens, Tree.render, Token.text, Token.map] using hnot
  | binary c l r ihl ihr =>
    intro us s h
    have hclose : Token.Spells (.rparen :: us) (')' :: s) := .token (t := .rparen) trivial nofun h
    have hright : Token.Spells _ (' ' :: _) := .blank Text.isBlank_space (ihr hclose)
    have hsymbol := Token.Spells.token c.writable_token (fun _ => by simp) hright
    have hleft := ihl (.blank Text.isBlank_space hsymbol)
    have hopen := Token.Spells.token (t := .lparen) trivial nofun hleft
    have hmap : (c.token : Token α).map write = c.token := by cases c <;> rfl
    have hl : (Token.lparen : Token α).map write = .lparen := rfl
    have hr : (Token.rparen : Token α).map write = .rparen := rfl
    have htext : (Token.lparen : Token Char).text id = ['('] := rfl
    simpa [tokens, Tree.render, htext, hl, hr, c.text_token, hmap] using hopen

end Formula

/-- The full writing of a formula is read as this formula. -/
theorem compile_render (f : Formula Bool) : compile (String.ofList (f.render Connective.symbol bit)) = .ok f := by
  have hbit : ∀ b, (bit b).isAlphanum := by decide
  have hspells := f.spells_render hbit .nil
  rw [List.append_nil, List.append_nil] at hspells
  have hscan := Token.scan_bit?_of_spells hspells
  rw [← String.toList_ofList (l := f.render Connective.symbol bit)] at hscan
  rw [compile_of_scan hscan, parse_eq_ok_iff_writes.mpr (Formula.writes_biconditional f.writes_tokens)]
  rfl

end Propositional
