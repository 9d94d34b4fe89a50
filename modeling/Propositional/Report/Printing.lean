import Propositional.Report.Console
import Propositional.Text.Surrogate

/-!
# Printing

A terminal has a standard output and a console. It is given one text or one print at a time, and may fail at each: the console
may not be able to make sense of its markup, a text may hold what cannot be encoded, or there may be nobody left to read it.
What fails is not tried again, and what was to come after it is not printed.
-/

namespace Propositional.Report

/-- Why a print fails: with a message that is reported, or in a way that is not expected and ends the run. -/
inductive PrintFault where
  | reported (message : String)
  | unexpected
  deriving DecidableEq, Repr

/-- What a run prints on: a print on the console, and a text on the standard output. Each may fail, and a text may be written in
part before. In what is printed, characters may stand in for surrogates. -/
structure Terminal (m : Type → Type) where
  print : Text.StandIns → Print → m (Option PrintFault)
  write : Text.StandIns → String → m (Option (String × PrintFault))

variable {m : Type → Type} [Monad m]

/-- Writes a text, unless it is empty. -/
def Terminal.writeText (t : Terminal m) (standIns : Text.StandIns) (s : String) : m (Option (String × PrintFault)) :=
  if s.isEmpty then pure none else t.write standIns s

/-- Prints one after the other up to one that fails. The result has the prints that were tried, and the fault of the last one. -/
def Terminal.printAll (t : Terminal m) (standIns : Text.StandIns) : List Print → m (List Print × Option PrintFault)
  | [] => pure ([], none)
  | p :: ps => do
    match ← t.print standIns p with
    | some fault => pure ([p], some fault)
    | none => do
      let (tried, fault) ← t.printAll standIns ps
      pure (p :: tried, fault)

end Propositional.Report
