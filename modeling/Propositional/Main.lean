import Propositional.Command
import Propositional.Report.Terminal

/-!
# The program

Reads what a command needs from the system, runs it, and writes what it leaves. What a command does is decided in
`Propositional.Command`; here it meets files, environment and terminal.
-/

namespace Propositional

open Command Report

/-- The names of the variables that are read. -/
def settingNames : List String := [
  "TRUTHTAB_STYLE", "TRUTHTAB_TRUE_GLYPH", "TRUTHTAB_FALSE_GLYPH", "TRUTHTAB_STRICT_IMPLICATION", "TRUTHTAB_MAX_VARIABLES"]

/-- How the program is used. -/
def usage : String := "usage: [-h] [-v] (table FORMULA... [--latex] | verify [DERIVATION] [-f FILE] [--json] | demo)\n" ++
  "options of every command: [-h] [--style plain|colorized|markdown] [--config FILE] [--strict]"

/-- The code and the details of an error of the system. -/
def codeOfError? : IO.Error → Option (UInt32 × String)
  | .noFileOrDirectory _ code details | .interrupted _ code details => some (code, details)
  | .alreadyExists _ code details | .invalidArgument _ code details | .permissionDenied _ code details
  | .resourceExhausted _ code details | .inappropriateType _ code details | .noSuchThing _ code details => some (code, details)
  | .otherError code details | .resourceBusy code details | .resourceVanished code details
  | .unsupportedOperation code details | .hardwareFault code details | .unsatisfiedConstraints code details
  | .illegalOperation code details | .protocolError code details | .timeExpired code details => some (code, details)
  | .unexpectedEof | .userError _ => none

/-- The number that a code is for. A code may be the number below zero. -/
def numberOfCode (code : UInt32) : Nat := if code.toNat < 0x80000000 then code.toNat else 0x100000000 - code.toNat

/-- The faults of a path that leads to no file. -/
def faultsWithoutFile : List PathFault := [.missing, .notDirectory, .isDirectory, .nameTooLong]

/-- The fault with a number. For a number without a usual wording, the details are the wording. -/
def faultOfNumber (number : Nat) (details : String) : PathFault :=
  let usual := .refused 13 "Permission denied" :: faultsWithoutFile
  let hasNumber : PathFault → Bool
    | .refused n _ => n = number
    | .unreadable _ => false
  (usual.find? hasNumber).getD (.refused number details)

/-- The fault of a path that the system reports. -/
def faultOfError (e : IO.Error) : PathFault :=
  match codeOfError? e with
  | some (code, details) => faultOfNumber (numberOfCode code) details
  | none => .unreadable (toString e)

/-- The wording of an error that is not about a path. -/
def messageOfError (e : IO.Error) : String :=
  match faultOfError e with
  | .refused number wording => s!"[Errno {number}] {wording}"
  | .unreadable message => message

/-- The text of the file that a path leads to. -/
def readPath (path : String) : IO (Except PathFault String) := do
  try
    return textOfBytes (← IO.FS.readBinFile path).toList
  catch e =>
    return .error (faultOfError e)

/-- The text of the standard input, with line feeds at its line ends, or the wording of what is wrong with it. -/
def readInput : IO (Except String String) := do
  match textOfBytes (← (← IO.getStdin).readBinToEnd).toList with
  | .ok s => return .ok (String.ofList (Text.lineFeeds s.toList))
  | .error fault => return .error (fault.message "")

/-- The variables that are set, the entries of the environment file of the directory, and the wording of what is wrong with that
file. Without the file there are no entries, and nothing is wrong. -/
def readEnvironment : IO (Environment × Option String) := do
  let mut settings := []
  for name in settingNames do
    match ← IO.getEnv name with
    | some s => settings := settings ++ [(name, s)]
    | none => pure ()
  match ← readPath ".env" with
  | .ok s => return (⟨settings, EntryFile.entries s⟩, none)
  | .error fault => return (⟨settings, []⟩, if faultsWithoutFile.contains fault then none else some (fault.message ".env"))

/-- What a command reads, read from the system. The standard input is read only if it is needed. -/
def readSurroundings (i : Invocation) : IO Surroundings := do
  let (derivation, file) :=
    match i.task with
    | .verify derivation file _ => (derivation, file)
    | _ => (some "-", none)
  let names := (given? i.config).toList ++ ((given? file).map cleanPath).toList
  let texts ← names.mapM fun name => do return (name, ← readPath name)
  let input ← if (given? derivation).isNone && (given? file).isNone then readInput else pure (.ok "")
  let (environment, environmentFault) ← readEnvironment
  return {
    environment, environmentFault, file := fun name => (texts.lookup name).getD (.error .missing),
    stdin := input.toOption.getD "", stdinFault := match input with | .ok _ => none | .error message => some message }

/-- Puts a text on the standard output. It cannot be put there with surrogates in it. -/
def put (standIns : Text.StandIns) (s : String) : IO (Option PrintFault) := do
  let codes := standIns.codes s.toList
  match Text.unheld? (fun _ => false) 0 codes with
  | some (position, surrogates) => return some (.reported (surrogatesMessage position surrogates))
  | none =>
    try
      IO.print (String.ofList (codes.map Char.ofNat))
      (← IO.getStdout).flush
      return none
    catch e =>
      return some (.reported (messageOfError e))

/-- The standard output as a terminal, for the prints on a console too. -/
def standardOutput : Terminal IO where
  print standIns p := put standIns (p.plainText ++ "\n")
  write standIns s := do return (← put standIns s).map fun fault => ("", fault)

/-- Runs the command line and gives its exit code. -/
def runProgram (args : List String) : IO UInt32 := do
  let w ←
    match parse args with
    | .ok i => readSurroundings i
    | .error _ => pure {}
  let r ← runOn standardOutput w args
  for warning in r.warnings do
    IO.eprintln warning.message
  match r.result with
  | .ok o =>
    if o.usage then IO.println usage
    return o.exit.toUInt32
  | .error (.crash _) =>
    IO.eprintln "the values of the configuration have the wrong form"
    return 1
  | .error .print =>
    IO.eprintln "the message could not be printed"
    return 1

end Propositional

/-- The program. -/
def main (args : List String) : IO UInt32 := Propositional.runProgram args
