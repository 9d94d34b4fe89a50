import Propositional.Formula.Parser
import Propositional.Text.Quoted
import Propositional.Text.Replace
import Propositional.Letter
import Propositional.Valuation

/-!
# Evaluating formulas

A formula is evaluated in three steps: the values are written into its text, the text is checked against the characters that
may stand in a formula without variables, and what passes is read and evaluated. Whatever fails, the error is about the formula
as it was given.
-/

namespace Propositional

/-- A token as messages and lists show it: its kind and its text. The end of a formula is shown as a token without text. -/
def shownToken : Option (Token Bool) → Kind × String
  | some t => (t.kind, String.ofList (t.text bit))
  | none => (.eof, "")

/-- The label of a token that is shown. -/
def tokenLabel (kind : Kind) (text : String) : String := s!"Token({kind.name}, {Text.quoted text})"

/-- Why a text is not a formula: it has no tokens, its tokens are no formula, or its tree holds an operator that is no
connective. -/
inductive Malformation where
  | scan (fault : ScanFault)
  | parse (fault : ParseFault Bool)
  | unknownNode
  deriving DecidableEq, Repr

namespace Malformation

/-- The wording of a malformation. -/
def message : Malformation → String
  | scan (.unknownOperator p) => s!"operador desconocido en posicion {p}"
  | scan (.unknownCharacter p c) => s!"caracter no reconocido en posicion {p}: {Text.quoted (String.ofList [c])}"
  | parse .empty => "formula vacia"
  | parse (.operandDue found p) =>
    let (kind, text) := shownToken found
    s!"se esperaba constante, '!' o '(' pero se encontro {kind.name} ('{text}') en posicion {p}"
  | parse (.closeDue found p) =>
    let (kind, text) := shownToken found
    s!"se esperaba RPAREN, se encontro {kind.name} ('{text}') en posicion {p}"
  | parse (.leftover found p) => s!"token inesperado '{(shownToken (some found)).2}' en posicion {p}"
  | unknownNode => "nodo desconocido: BinaryNode"

end Malformation

/-- What is wrong with a formula: a character that no formula may hold once values are put in, or its form. -/
inductive Defect where
  | disallowed (offending : Char)
  | malformed (reason : Malformation)
  deriving DecidableEq, Repr

/-- A defect of a formula, with the text of the formula. -/
structure FormulaError where
  formula : String
  defect : Defect
  deriving DecidableEq, Repr

/-- The wording of a formula's error. -/
def FormulaError.message (e : FormulaError) : String :=
  match e.defect with
  | .disallowed c => s!"Expresion invalida: {Text.quoted e.formula} (caracter no permitido: {Text.quoted (String.ofList [c])})"
  | .malformed r => s!"No se pudo evaluar {Text.quoted e.formula}: {r.message}"

/-- The tokens of a text without variables as they are shown, with the end behind them. -/
def tokenize (formula : String) : Except FormulaError (List (Kind × String)) :=
  match Token.scan bit? formula.toList with
  | .error e => .error ⟨formula, .malformed (.scan e)⟩
  | .ok ts => .ok (ts.map (fun t => shownToken (some t)) ++ [shownToken none])

/-- The characters that may stand in a formula without variables. -/
def isAllowed (c : Char) : Bool := ['0', '1', '&', '|', '!', '=', '(', ')'].contains c || Text.isBlank c

/-- Reads a text without variables as a formula, whatever characters it holds. -/
def parseText (s : List Char) : Except Malformation (Formula Bool) :=
  match Token.scan bit? s with
  | .error e => .error (.scan e)
  | .ok ts => (Formula.parse ts).mapError .parse

/-- Reads a text without variables as a formula, after a look at its characters. -/
def compileText (s : List Char) : Except Defect (Formula Bool) :=
  match s.find? (!isAllowed ·) with
  | some c => .error (.disallowed c)
  | none => (parseText s).mapError .malformed

/-- Writes values for variables into a text, one variable after the other: every occurrence of the variable's text becomes `1`
or `0`. -/
def substituteText (s : List Char) (v : Valuation String) : List Char :=
  v.foldl (fun s p => Text.replaceText p.1.toList [bit p.2] s) s

/-- `substituteText` on strings. -/
def substitute (formula : String) (v : Valuation String) : String := String.ofList (substituteText formula.toList v)

/-- Reads a formula without variables. -/
def compile (formula : String) : Except FormulaError (Formula Bool) := (compileText formula.toList).mapError (⟨formula, ·⟩)

/-- The value of a formula under values for its variables. -/
def evaluate (formula : String) (v : Valuation String) : Except FormulaError Bool :=
  ((compileText (substituteText formula.toList v)).map (Formula.eval id)).mapError (⟨formula, ·⟩)

/-- A valuation of letters, with each letter as a text. -/
def Valuation.byText (v : Valuation Char) : Valuation String := v.map fun p => (String.ofList [p.1], p.2)

/-- The value of a formula under values for its letters. -/
def evaluateLetters (formula : String) (v : Valuation Char) : Except FormulaError Bool := evaluate formula v.byText

/-- What a check of a formula says. -/
inductive Validity where
  | valid
  | blank
  | invalid (error : FormulaError)
  deriving DecidableEq, Repr

/-- The wording of a check. -/
def Validity.message : Validity → String
  | valid => "OK"
  | blank => "Formula vacia"
  | invalid e => e.message

/-- Checks that a formula is well formed, by evaluating it with all its letters true. -/
def validity (formula : String) : Validity :=
  if formula.toList.all Text.isBlank then .blank
  else
    match evaluateLetters formula ((letters formula).map (·, true)) with
    | .ok _ => .valid
    | .error e => .invalid e

end Propositional
