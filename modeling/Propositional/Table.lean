import Propositional.Json
import Propositional.Logged

/-!
# Truth tables

The truth table of several formulas has a column for each letter that occurs in any of them, a column for each formula, and a
row for each valuation of the letters. Formulas in LaTeX keep their own text as headings; among them a formula that is a single
letter has no column of its own and only moves its letter to the front.
-/

namespace Propositional

/-- What became of a request for a table or a verdict. -/
inductive Status where
  | ok | noExpressions | noVariables | nothingToCompare
  deriving DecidableEq, Repr

namespace Status

/-- The name of a status. -/
def name : Status → String
  | ok => "OK"
  | noExpressions => "NO_EXPRESSIONS"
  | noVariables => "NO_VARIABLES"
  | nothingToCompare => "NOTHING_TO_COMPARE"

/-- The wording of a status. -/
def message : Status → String
  | ok => "OK"
  | noExpressions => "No expressions provided."
  | noVariables => "No variables found in expressions."
  | nothingToCompare => "Need at least 2 expressions to compare."

end Status

/-- A row of a table: a valuation and the value of each formula under it. -/
structure Row where
  assignment : Valuation Char
  results : List Bool
  deriving DecidableEq, Repr

/-- The cells of a row: the values of the letters, then those of the formulas. -/
def Row.cells (r : Row) (xs : List Char) : List Bool := xs.map r.assignment.value ++ r.results

/-- The row of a valuation: the value of each formula, from the first to the last. -/
def Row.ofValuation (formulas : List String) (v : Valuation Char) : Except FormulaError Row :=
  (formulas.mapM (evaluateLetters · v)).map (⟨v, ·⟩)

/-- The rows of all valuations of the letters. -/
def rowsOf (xs : List Char) (formulas : List String) : Except FormulaError (List Row) :=
  (valuations xs).mapM (Row.ofValuation formulas)

/-- A truth table. The headings are what is shown for the formulas. -/
structure TruthTable where
  letters : List Char := []
  formulas : List String := []
  headers : List String := []
  rows : List Row := []
  status : Status := .ok
  deriving DecidableEq, Repr

namespace TruthTable

/-- A table without rows, whatever it was asked for. -/
def isEmpty (t : TruthTable) : Bool := t.status != .ok

/-- The number of columns of a table. -/
def columnCount (t : TruthTable) : Nat := t.letters.length + t.formulas.length

/-- The column of a formula. -/
def column (t : TruthTable) (j : Nat) : List Bool := t.rows.map fun r => r.results[j]?.getD false

/-- The table of formulas under all valuations of the letters. -/
def tabulate (xs : List Char) (formulas headers : List String) : Except FormulaError TruthTable :=
  (rowsOf xs formulas).map fun rows => { letters := xs, formulas := formulas, headers := headers, rows := rows }

/-- The table of several formulas. -/
def ofFormulas (formulas : List String) : Except FormulaError TruthTable :=
  if formulas.isEmpty then .ok { status := .noExpressions }
  else if (lettersOfAll formulas).isEmpty then
    .ok { formulas := formulas, headers := formulas, status := .noVariables }
  else tabulate (lettersOfAll formulas) formulas formulas

/-- The letter that a formula consists of, if it is a single one. -/
def bareLetter? (formula : String) : Option Char :=
  match Text.trim formula.toList with
  | [x] => if x.isUpper then some x else none
  | _ => none

/-- The letters of formulas in the order of a table: those that stand alone in a formula, in the order of the formulas, and
then the others in alphabetical order. -/
def columnLetters (formulas : List String) : List Char :=
  let pinned := (formulas.filterMap bareLetter?).eraseDups
  pinned ++ (lettersOfAll formulas).filter fun x => !pinned.contains x

/-- The table of formulas in native notation under the texts they were given as, without the columns of single letters. -/
def ofNormalized (sources formulas : List String) : Except FormulaError TruthTable :=
  let kept := (sources.zip formulas).filter fun p => (bareLetter? p.2).isNone
  let columns := kept.map (·.2)
  let headers := kept.map fun p => String.ofList (Text.trim p.1.toList)
  if (columnLetters formulas).isEmpty then .ok { formulas := columns, headers := headers, status := .noVariables }
  else tabulate (columnLetters formulas) columns headers

/-- The table of several formulas in LaTeX. With `strict` an arrow without a left operand is an error. -/
def ofLatex (strict : Bool) (sources : List String) : Logged LogicError TruthTable := do
  if sources.isEmpty then return { status := .noExpressions }
  let normal ← (Latex.normalizeAll strict sources).mapError .scope
  Logged.ofExcept ((ofNormalized sources (normal.map (·.formula))).mapError .formula)

/-- A row as it is exported: the values of the letters by name, and the values of the formulas. -/
def rowJson (r : Row) : Json :=
  .obj [("inputs", .obj (r.assignment.map fun (x, b) => (.string (String.ofList [x]), .bool b))),
    ("results", .arr (r.results.map .bool))]

/-- A table as it is exported. -/
def toJson (t : TruthTable) : Json :=
  .obj [("status", .str t.status.name), ("variables", .arr (t.letters.map fun x => .str (String.ofList [x]))),
    ("formulas", .arr (t.formulas.map fun (f : String) => .str f)), ("rows", .arr (t.rows.map rowJson))]

end TruthTable

end Propositional
