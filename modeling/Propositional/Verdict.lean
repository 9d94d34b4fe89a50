import Propositional.Table

/-!
# Verdicts on derivations

The steps of a derivation are compared row by row of their common table, each with the first. They are all equivalent if no
row has a step that differs.
-/

namespace Propositional

namespace Row

/-- The value of the first step in a row. -/
def first (r : Row) : Bool := r.results.headD false

/-- All steps have the value of the first one. -/
def isAgreeing (r : Row) : Bool := r.results.all (· == r.first)

/-- The numbers, counted from zero, of the steps whose value differs from that of the first one. -/
def mismatchedSteps (r : Row) : List Nat := (r.results.zipIdx.filter fun p => p.1 != r.first).map (·.2)

end Row

/-- A verdict on the steps of a derivation. -/
structure Verdict where
  allEqual : Bool := true
  steps : List String
  mismatchCount : Nat := 0
  letters : List Char := []
  rows : List Row := []
  status : Status := .ok
  deriving DecidableEq, Repr

namespace Verdict

/-- The verdict on steps whose common table has the given rows. -/
def ofRows (xs : List Char) (steps : List String) (rows : List Row) : Verdict :=
  let mismatches := (rows.filter (!·.isAgreeing)).length
  { allEqual := mismatches == 0, steps := steps, mismatchCount := mismatches, letters := xs, rows := rows }

/-- Compares steps in native notation. Fewer than two steps, or steps without letters, are not compared. -/
def ofSteps (steps : List String) : Except FormulaError Verdict :=
  if steps.length < 2 then .ok { steps := steps, status := .nothingToCompare }
  else if (lettersOfAll steps).isEmpty then .ok { steps := steps, status := .noVariables }
  else (rowsOf (lettersOfAll steps) steps).map (ofRows (lettersOfAll steps) steps)

/-- The verdict on a derivation. With `strict` an arrow without a left operand is an error. -/
def ofDerivation (strict : Bool) (s : String) : Logged LogicError Verdict := do
  let steps ← (Derivation.stepsLogged strict s).mapError .scope
  Logged.ofExcept ((ofSteps (steps.map (·.formula))).mapError .formula)

/-- A verdict as it is exported. -/
def toJson (v : Verdict) : Json :=
  .obj [("all_equal", .bool v.allEqual), ("steps", .arr (v.steps.map fun (s : String) => .str s)),
    ("mismatch_count", .int v.mismatchCount)]

end Verdict

end Propositional
