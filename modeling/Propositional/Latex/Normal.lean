import Propositional.Latex.Overline
import Propositional.Latex.Spelling
import Propositional.Latex.Implication
import Propositional.Text.Quoted

/-!
# Normal form

A LaTeX formula is brought to the native notation step by step: overlines, spellings, lexemes, implications, canonical text.
-/

namespace Propositional.Latex

/-- A formula in the native notation, with the surroundings of each arrow whose left operand could not be found. -/
structure Normalized where
  formula : String
  diagnostics : List String
  deriving DecidableEq, Repr

/-- The lexemes of a LaTeX formula. -/
def lexemes (s : String) : List Lexeme := Lexeme.lex (respell (replaceOverlines s.toList))

/-- The native notation of a LaTeX formula. With `strict` an arrow without a left operand is an error. -/
def normalize (strict : Bool) (s : String) : Except UnresolvedScope Normalized :=
  (eliminate strict (lexemes s)).map fun e => ⟨String.ofList (Lexeme.render e.lexemes), e.degraded⟩

/-- The wording of an arrow whose left operand cannot be found. -/
def UnresolvedScope.message (e : UnresolvedScope) : String :=
  s!"No se puede determinar el operando izquierdo de la implicacion en: {Text.quoted e.context}"

end Propositional.Latex
