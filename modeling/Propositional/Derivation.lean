import Propositional.Derivation.Layout
import Propositional.Latex.Normal

/-!
# Derivations

A derivation is a chain of formulas joined by `=`, each a step of it. The `=` of a derivation stand outside all parentheses
and braces.
-/

namespace Propositional

/-- A step of a derivation: its number, counted from one, its formula in the native notation, its text on one line, and the
surroundings of each arrow in it whose left operand could not be found. -/
structure Step where
  index : Nat
  formula : String
  source : String
  diagnostics : List String
  deriving DecidableEq, Repr

/-- The label of the step with a given number. -/
def stepLabel (index : Nat) : String := s!"S{index}"

/-- The label of a step. -/
def Step.label (s : Step) : String := stepLabel s.index

namespace Derivation

/-- The texts of the steps of a derivation. -/
def segments (s : List Char) : List (List Char) :=
  ((Text.splitTopLevel ['='] (clean s)).map Text.trim).filter (!·.isEmpty)

/-- Reads texts as the steps from a given number on. -/
def stepsFrom (strict : Bool) (index : Nat) : List (List Char) → Except Latex.UnresolvedScope (List Step)
  | [] => .ok []
  | s :: ss => do
    let n ← Latex.normalize strict (String.ofList s)
    let steps ← stepsFrom strict (index + 1) ss
    pure (⟨index, n.formula, String.ofList (Text.collapse s), n.diagnostics⟩ :: steps)

/-- The steps of a derivation. With `strict` an arrow without a left operand is an error. -/
def steps (strict : Bool) (s : String) : Except Latex.UnresolvedScope (List Step) := stepsFrom strict 1 (segments s.toList)

end Derivation

end Propositional
