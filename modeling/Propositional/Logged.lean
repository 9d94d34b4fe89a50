import Propositional.Evaluation
import Propositional.Latex.Normal
import Propositional.Derivation

/-!
# Warnings beside a result

A computation may warn and then succeed or fail, so its warnings are kept beside its result and not inside it. Computations
follow one another as usual: warnings add up in order, and nothing is done after a failure.
-/

namespace Propositional

/-- A warning: an arrow became a plain `|`, in the surroundings given, or a step of a derivation holds such an arrow. -/
inductive Warning where
  | degraded (context : String)
  | suspect (label source : String)
  deriving DecidableEq, Repr

/-- The wording of a warning. -/
def Warning.message : Warning → String
  | degraded context => s!"Cannot parse left operand for implication at: {context}"
  | suspect label source => s!"{label} ({source}) is suspect: degraded implication"

/-- A result or a failure, and the warnings given on the way to it. -/
structure Logged (ε α : Type) where
  warnings : List Warning
  result : Except ε α

namespace Logged

variable {ε ε' α β : Type}

/-- A result without warnings. -/
def ofExcept (r : Except ε α) : Logged ε α := ⟨[], r⟩

/-- A warning and nothing else. -/
def warn (ws : List Warning) : Logged ε Unit := ⟨ws, .ok ()⟩

/-- One computation after another. -/
def bind (x : Logged ε α) (f : α → Logged ε β) : Logged ε β :=
  match x.result with
  | .ok a => ⟨x.warnings ++ (f a).warnings, (f a).result⟩
  | .error e => ⟨x.warnings, .error e⟩

instance : Monad (Logged ε) where
  pure a := ⟨[], .ok a⟩
  bind := bind

/-- The computation with its failure seen as another. -/
def mapError (f : ε → ε') (x : Logged ε α) : Logged ε' α := ⟨x.warnings, x.result.mapError f⟩

end Logged

/-- Why formulas have no table and a derivation no verdict: a formula cannot be evaluated, or an arrow has no left operand. -/
inductive LogicError where
  | formula (error : FormulaError)
  | scope (error : Latex.UnresolvedScope)
  deriving DecidableEq, Repr

/-- The wording of an error. -/
def LogicError.message : LogicError → String
  | formula e => e.message
  | scope e => e.message

namespace Latex

/-- The native notation of LaTeX formulas, with a warning for each arrow without a left operand. -/
def normalizeAll (strict : Bool) (ss : List String) : Logged UnresolvedScope (List Normalized) :=
  match ss.mapM (normalize strict) with
  | .ok ns => ⟨ns.flatMap fun n => n.diagnostics.map .degraded, .ok ns⟩
  | .error e => ⟨[], .error e⟩

end Latex

namespace Derivation

/-- The steps of a derivation, with a warning for each arrow without a left operand. -/
def stepsLogged (strict : Bool) (s : String) : Logged Latex.UnresolvedScope (List Step) :=
  match steps strict s with
  | .ok steps => ⟨steps.flatMap fun t => t.diagnostics.map .degraded, .ok steps⟩
  | .error e => ⟨[], .error e⟩

end Derivation

end Propositional
