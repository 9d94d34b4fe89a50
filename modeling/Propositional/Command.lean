import Propositional.Command.Arguments
import Propositional.Config.Environment
import Propositional.Files
import Propositional.Gallery
import Propositional.Report.Printing

/-!
# Commands

A command is run in surroundings that hold everything it reads: the environment, files and the standard input. What it finds out
is found out before anything is printed, and printed on a terminal then. An input that fails leaves one message on the console
and nothing else. A print that fails on the way leaves what was printed before it, and the message of the fault behind.
-/

namespace Propositional.Command

open Report

/-- What a command reads. Reading the environment file or the standard input may fail, with a message. In the arguments,
characters may stand in for surrogates. -/
structure Surroundings where
  environment : Environment := {}
  environmentFault : Option String := none
  file : String → Except PathFault String := fun _ => .error .missing
  stdin : String := ""
  stdinFault : Option String := none
  standIns : Text.StandIns := []

/-- What a run leaves: its exit code, whether the usage was shown, the standard output, and the prints that were tried on the
console. In the texts, characters may stand in for surrogates. -/
structure Outcome where
  exit : Nat
  usage : Bool := false
  stdout : String := ""
  console : List Print := []
  standIns : Text.StandIns := []
  deriving DecidableEq, Repr

/-- Why an input fails: formulas, a value of the configuration, a text that cannot be read or is no JSON, a path that leads to
no text or cannot be one, or too many letters for a table. -/
inductive Failure where
  | logic (error : LogicError)
  | refused (reason : Refusal)
  | unreadable (message : String)
  | path (fault : PathFault) (name : String)
  | nullInPath
  | surrogatesInPath (position : Nat) (surrogates : List Nat)
  | budget (count : Nat) (limit : Json)

/-- The wording for surrogates at a position of a text that cannot be written with them. -/
def surrogatesMessage (position : Nat) (surrogates : List Nat) : String :=
  let place :=
    match surrogates with
    | [n] => s!"character '{String.ofList (Text.escapeCode n)}' in position {position}"
    | _ => s!"characters in position {position}-{position + surrogates.length - 1}"
  s!"'utf-8' codec can't encode {place}: surrogates not allowed"

/-- The wording of a failure. -/
def Failure.message : Failure → String
  | logic e => e.message
  | refused r => r.message
  | unreadable m => m
  | path fault name => fault.message name
  | nullInPath => "embedded null byte"
  | surrogatesInPath position surrogates => surrogatesMessage position surrogates
  | budget count limit => s!"{count} variables would produce {Nat.pow 2 count} rows (max_variables={limit.display})"

/-- What ends a run without an outcome: a configuration whose values have the wrong form, or an example without a text. -/
inductive Crash where
  | config (error : ConfigError)
  | glyphs (fault : GlyphFault)
  | noDerivation

/-- What ends a command early. -/
inductive Fault where
  | failure (f : Failure)
  | crash (c : Crash)

/-! ## Reading -/

/-- The fault of values that make no configuration. -/
def faultOfConfig : ConfigError → Fault
  | .refused r => .failure (.refused r)
  | e => .crash (.config e)

/-- The fault of a file that holds no configuration. -/
def faultOfFile : FileError → Fault
  | .unreadable _ m => .failure (.unreadable m)
  | .config e => faultOfConfig e

/-- The text of a file. No path holds the character zero or a surrogate that stands for no byte. -/
def readFile (w : Surroundings) (name : String) : Except Failure String :=
  match Text.unencodable? 0 (w.standIns.codes name.toList) with
  | some (position, surrogates) => .error (.surrogatesInPath position surrogates)
  | none => if name.toList.contains '\x00' then .error .nullInPath else (w.file name).mapError (.path · name)

/-- An option with a text that is not empty. -/
def given? (o : Option String) : Option String := o.filter (· != "")

/-- The values that a run starts from: those of the file named, else those of the environment. -/
def baseValues (w : Surroundings) (file : Option String) : Except Fault Config.Values :=
  match given? file, w.environmentFault with
  | some name, _ => do
    let text ← (readFile w name).mapError .failure
    (Config.Values.ofFile text).mapError faultOfFile
  | none, some message => .error (.failure (.unreadable message))
  | none, none => (Config.Values.ofEnvironment w.environment).mapError faultOfConfig

/-- The configuration that a run starts from. -/
def baseConfig (w : Surroundings) (file : Option String) : Except Fault Config :=
  (baseValues w file).bind fun v => v.check.mapError faultOfConfig

/-- What a style option asks for. Without a style it asks for an empty list of styles. -/
def styleAsked : Option Style → Json
  | some s => .str s.name
  | none => .arr []

/-- The changes to a configuration that options make. -/
def optionChanges (i : Invocation) : List (JsonText × Json) :=
  let style := (i.style.map styleAsked).toList.map fun s => (.string "style", s)
  if i.strict then style ++ [(.string "strict_implication", .bool true)] else style

/-- The configuration of a run. -/
def loadConfig (w : Surroundings) (i : Invocation) : Except Fault Config := do
  let c ← baseConfig w i.config
  (c.withOverrides (optionChanges i)).mapError faultOfConfig

/-- A part of a path leads away from where it is met. -/
def leadsAway (part : List Char) : Bool := !part.isEmpty && part != ['.']

/-- The parts of a path between its slashes, without those that lead nowhere. -/
def pathParts (s : List Char) : List (List Char) := (Text.splitAtChar '/' s).filter leadsAway

/-- A path without the parts that lead nowhere. A path from the root keeps its slash, or two of them if it has exactly two. -/
def cleanPath (s : String) : String :=
  let slashes := s.toList.takeWhile (· = '/')
  let root := if slashes.length = 2 then slashes else slashes.take 1
  let path := root ++ Text.joinWith ['/'] (pathParts s.toList)
  if path.isEmpty then "." else String.ofList path

/-- The text of a derivation: that of the file named, else the one given, else the standard input. -/
def derivationText (w : Surroundings) (derivation file : Option String) : Except Failure String :=
  match given? file, given? derivation, w.stdinFault with
  | some name, _, _ => (readFile w (cleanPath name)).map fun s => String.ofList (Text.lineFeeds s.toList)
  | none, some s, _ => .ok s
  | none, none, some message => .error (.unreadable message)
  | none, none, none => .ok w.stdin

/-! ## Finding out -/

/-- Refuses formulas with more letters than a table may have. -/
def checkBudget (c : Config) (formulas : List String) : Except Failure Unit :=
  let count := (lettersOfAll formulas).length
  if c.exceeds count then .error (.budget count c.maxVariables) else .ok ()

/-- The table of formulas, if they are within the budget. Formulas in LaTeX are read once for the budget and once for the table,
and warn each time. -/
def findTable (c : Config) (formulas : List String) (latex : Bool) : Logged Failure TruthTable :=
  if latex then do
    let normal ← (Latex.normalizeAll c.isStrict formulas).mapError fun e => .logic (.scope e)
    .ofExcept (checkBudget c (normal.map (·.formula)))
    (TruthTable.ofLatex c.isStrict formulas).mapError .logic
  else do
    .ofExcept (checkBudget c formulas)
    .ofExcept ((TruthTable.ofFormulas formulas).mapError fun e => .logic (.formula e))

/-- The warnings on the steps that hold an arrow without a left operand. -/
def suspicions (steps : List Step) : List Warning :=
  (steps.filter fun s => !s.diagnostics.isEmpty).map fun s => .suspect s.label s.source

/-- The text of a derivation and the verdict on it, if its steps are within the budget. -/
def findVerdict (w : Surroundings) (c : Config) (derivation file : Option String) : Logged Failure (String × Verdict) := do
  let text ← .ofExcept (derivationText w derivation file)
  let steps ← (Derivation.stepsLogged c.isStrict text).mapError fun e => .logic (.scope e)
  .ofExcept (checkBudget c (steps.map (·.formula)))
  Logged.warn (suspicions steps)
  let verdict ← .ofExcept ((Verdict.ofSteps (steps.map (·.formula))).mapError fun e => .logic (.formula e))
  return (text, verdict)

/-! ## What is to be shown -/

/-- Text on the standard output. -/
def printed (exit : Nat) (s : String) : Outcome := { exit := exit, stdout := s ++ "\n" }

/-- The outcome that shows a report, with the stand-ins that it was made with. -/
def shown (exit : Nat) (standIns : Text.StandIns) : Styled → Outcome
  | .text s => { printed exit s with standIns := standIns }
  | .prints ps => { exit := exit, console := ps, standIns := standIns }

/-- The outcome of a table of formulas. -/
def tableOutcome (c : Config) (formulas : List String) (t : TruthTable) : Except Fault Outcome :=
  ((styledTable (c.withStandIns (c.standIns formulas)) t).mapError fun f => .crash (.glyphs f)).map
    (shown 0 (c.standIns formulas))

/-- The exit code for a verdict. -/
def exitCode (v : Verdict) : Nat := if v.allEqual then 0 else 1

/-- The outcome of a verdict on the steps of a text. -/
def verdictOutcome (c : Config) (text : String) (json : Bool) (v : Verdict) : Except Fault Outcome :=
  if json then .ok (printed (exitCode v) v.toJson.render)
  else
    ((styledVerdict (c.withStandIns (c.standIns [text])) v).mapError fun f => .crash (.glyphs f)).map
      (shown (exitCode v) (c.standIns [text]))

/-- A table of formulas. -/
def runTable (c : Config) (formulas : List String) (latex : Bool) : Logged Fault Outcome := do
  let t ← (findTable c formulas latex).mapError .failure
  .ofExcept (tableOutcome c formulas t)

/-- A verdict on a derivation. -/
def runVerify (w : Surroundings) (c : Config) (derivation file : Option String) (json : Bool) : Logged Fault Outcome := do
  let (text, v) ← (findVerdict w c derivation file).mapError .failure
  .ofExcept (verdictOutcome c text json v)

/-- The fault of an example of the gallery. -/
def faultOfTrouble : Gallery.Trouble → Fault
  | .noDerivation => .crash .noDerivation
  | .logic e => .failure (.logic e)
  | .glyphs f => .crash (.glyphs f)

/-- What a command is to show. -/
def runTask (w : Surroundings) (i : Invocation) : Logged Fault Outcome := do
  let c ← .ofExcept (loadConfig w i)
  match i.task with
  | .table formulas latex => runTable c formulas latex
  | .verify derivation file json => runVerify w c derivation file json
  | .demo => do
    let standIns := c.standIns Gallery.texts
    let ps ← (Gallery.run (c.withStandIns standIns)).mapError faultOfTrouble
    return shown 0 standIns (.prints ps)

/-- The print of the message of a failure. -/
def messagePrint (message : String) : Print := .text (coloured "bold red" s!"❌ {escaped message}")

/-- What is left by a failure with a message: what was left before it, and the message on the console. -/
def Outcome.failing (left : Outcome) (message : String) : Outcome :=
  { left with exit := 1, console := left.console ++ [messagePrint message] }

/-- The outcome of a failure before anything is shown. -/
def failed (f : Failure) : Outcome := { exit := 1, console := [messagePrint f.message] }

/-- The outcome of arguments that run no command. -/
def stopped : Stop → Outcome
  | .help => { exit := 0, usage := true }
  | .misuse => { exit := 2, usage := true }

/-! ## On a terminal -/

/-- What ends a run on a terminal without an outcome: what ends it on every terminal, or a print that fails in a way that is not
reported, among them every print that fails of a message. -/
inductive Abort where
  | crash (c : Crash)
  | print

section Terminal

variable {m : Type → Type} [Monad m]

/-- Shows an outcome on a terminal, up to a print that fails. The result is what is left then, and the fault. -/
def present (t : Terminal m) (o : Outcome) : m (Outcome × Option PrintFault) := do
  match ← t.writeText o.standIns o.stdout with
  | some (part, fault) => pure ({ o with stdout := part, console := [] }, some fault)
  | none => do
    let (tried, fault) ← t.printAll o.standIns o.console
    pure ({ o with console := tried }, fault)

/-- Reports a failure behind what a run has left before it. -/
def complain (t : Terminal m) (left : Outcome) (message : String) : m (Except Abort Outcome) := do
  match ← t.print left.standIns (messagePrint message) with
  | some _ => pure (.error .print)
  | none => pure (.ok (left.failing message))

/-- Shows what a command is to show, and reports the failure if there is nothing to show or a print fails. -/
def finish (t : Terminal m) : Except Fault Outcome → m (Except Abort Outcome)
  | .error (.crash c) => pure (.error (.crash c))
  | .error (.failure f) => complain t { exit := 1 } f.message
  | .ok o => do
    match ← present t o with
    | (left, some (.reported message)) => complain t left message
    | (_, some .unexpected) => pure (.error .print)
    | (left, none) => pure (.ok left)

/-- Runs the command line on a terminal. -/
def runOn (t : Terminal m) (w : Surroundings) (args : List String) : m (Logged Abort Outcome) :=
  match parse args with
  | .ok i => do
    let r ← finish t (runTask w i).result
    pure ⟨(runTask w i).warnings, r⟩
  | .error stop => pure ⟨[], .ok (stopped stop)⟩

end Terminal

/-! ## Where no print fails -/

/-- Turns a failure into its outcome. -/
def conclude (x : Logged Fault Outcome) : Logged Crash Outcome :=
  match x.result with
  | .ok o => ⟨x.warnings, .ok o⟩
  | .error (.failure f) => ⟨x.warnings, .ok (failed f)⟩
  | .error (.crash c) => ⟨x.warnings, .error c⟩

/-- Runs the command line where every print succeeds. -/
def run (w : Surroundings) (args : List String) : Logged Crash Outcome :=
  match parse args with
  | .ok i => conclude (runTask w i)
  | .error stop => ⟨[], .ok (stopped stop)⟩

end Propositional.Command
