import Propositional.Config
import Propositional.Text.Digit

/-!
# Arguments

The command line is a command with options and operands. An option has one or more names; a long name may be shortened as far
as it stays unique, a value may be attached to it with `=`, and options of one letter that take no value may be joined. Behind
`--` every argument is an operand; `--` in place of an attached value leaves the option without one. What starts with a dash and
is no option is an operand if it reads as a negative number or holds a space, and is refused otherwise. Operands stand together:
what follows once an option has come between is refused.
-/

namespace Propositional.Command

/-- The options. -/
inductive Switch where
  | help | verbose | style | config | strict | latex | file | json
  deriving DecidableEq, Repr

/-- The options that take a value. -/
def Switch.takesValue : Switch → Bool
  | style | config | file => true
  | _ => false

/-- The names of the options that may stand at a place. -/
abbrev Names := List (String × Switch)

/-- Why no command is run: help is asked for, or the arguments are misused. -/
inductive Stop where
  | help | misuse
  deriving DecidableEq, Repr

/-! ## Words

Each argument is a word of one of four kinds. -/

/-- A word: an operand, the separator `--`, an option or what looks like one and is none. An option may have a text attached. -/
inductive Word where
  | operand (s : String)
  | separator
  | option (switch : Switch) (isLong : Bool) (attached : Option (List Char))
  | unknown
  deriving DecidableEq, Repr

/-- A name with two dashes. -/
def isLongName (name : List Char) : Bool :=
  match name with
  | '-' :: '-' :: _ => true
  | _ => false

/-- A negative number: a dash and digits, which a point may divide, and perhaps a line feed behind them. -/
def isNegativeNumber (s : List Char) : Bool :=
  let isDigit (c : Char) : Bool := (Text.digitValue? c).isSome
  match s with
  | '-' :: cs =>
    let body := if cs.getLast? = some '\n' then cs.dropLast else cs
    match body.dropWhile isDigit with
    | [] => !body.isEmpty
    | '.' :: fraction => !fraction.isEmpty && fraction.all isDigit
    | _ => false
  | _ => false

/-- The text before the first `=` and the text behind it, if there is one. -/
def cutAtEquals (s : List Char) : List Char × Option (List Char) :=
  (s.takeWhile (· != '='), match s.dropWhile (· != '=') with
    | _ :: v => some v
    | [] => none)

/-- The options that a word may stand for if it is no name itself: those with a long name that it shortens, or the one with a
short name that it starts with. -/
def candidates (names : Names) (w : List Char) : List Word :=
  if isLongName w then
    let (start, attached) := cutAtEquals w
    (names.filter fun p => start.isPrefixOf p.1.toList).map fun p => .option p.2 (isLongName p.1.toList) attached
  else
    names.filterMap fun p =>
      if p.1.toList = w.take 2 then some (.option p.2 false (some (w.drop 2)))
      else if w.isPrefixOf p.1.toList then some (.option p.2 (isLongName p.1.toList) none)
      else none

/-- The word that an argument before the separator is. An argument that may stand for several options is misused. -/
def wordOf (names : Names) (arg : String) : Except Stop Word :=
  let w := arg.toList
  if w.head? ≠ some '-' then .ok (.operand arg)
  else
    match names.lookup arg with
    | some s => .ok (.option s (isLongName w) none)
    | none =>
      if w.length = 1 then .ok (.operand arg)
      else
        let (name, attached) := cutAtEquals w
        match attached, names.lookup (String.ofList name) with
        | some a, some s => .ok (.option s (isLongName name) (some a))
        | _, _ =>
          match candidates names w with
          | [word] => .ok word
          | [] => .ok (if isNegativeNumber w || w.contains ' ' then .operand arg else .unknown)
          | _ => .error .misuse

/-- The words of the arguments. -/
def wordsOf (names : Names) : List String → Except Stop (List Word)
  | [] => .ok []
  | arg :: args =>
    if arg = "--" then .ok (.separator :: args.map .operand)
    else do
      let w ← wordOf names arg
      let ws ← wordsOf names args
      pure (w :: ws)

/-! ## Joined options -/

/-- The value of an option: the next word is to be it, it is a text, or the option is left without one. -/
inductive OptionValue where
  | due
  | text (s : String)
  | nothing
  deriving DecidableEq, Repr

/-- The value that is attached to an option. -/
def OptionValue.ofAttached (s : List Char) : OptionValue := if s = ['-', '-'] then .nothing else .text (String.ofList s)

/-- The options of one word: those without a value in order, then perhaps one with a value. -/
structure Cluster where
  flags : List Switch
  valued : Option (Switch × OptionValue) := none
  deriving DecidableEq, Repr

/-- The value of the cluster is to be the next word. -/
def Cluster.isDue (c : Cluster) : Bool := c.valued.any fun p => p.2 == .due

/-- The text that is attached as a value. -/
def Cluster.attached? (c : Cluster) : Option String :=
  match c.valued with
  | some (_, .text s) => some s
  | _ => none

/-- Puts an option without a value before others. -/
def Cluster.push (s : Switch) (c : Cluster) : Cluster := { c with flags := s :: c.flags }

/-- The cluster of an option that has nothing attached. -/
def Cluster.single (s : Switch) : Cluster := if s.takesValue then ⟨[], some (s, .due)⟩ else ⟨[s], none⟩

/-- The cluster of an option of one letter with a text attached, if the text is its value or is made of letters of options. -/
def Cluster.joined? (names : Names) (s : Switch) (attached : List Char) : Option Cluster :=
  if s.takesValue then some ⟨[], some (s, .ofAttached attached)⟩
  else
    match attached with
    | [] => none
    | c :: cs =>
      match names.lookup (String.ofList ['-', c]), cs with
      | none, _ => none
      | some s', [] => some ((single s').push s)
      | some s', d :: ds => (joined? names s' (d :: ds)).map (push s)

/-- The cluster of an option. A text attached to a long name is a value. -/
def Cluster.ofOption? (names : Names) (s : Switch) (isLong : Bool) : Option (List Char) → Option Cluster
  | none => some (single s)
  | some v => if isLong && !s.takesValue then none else joined? names s v

/-! ## Settings -/

/-- How many operands a command takes. -/
inductive Arity where
  | none | optional | many
  deriving DecidableEq, Repr

/-- Where the reading of operands is: none was read, the last word read was one, or an option has come behind them. -/
inductive Phase where
  | due | reading | closed
  deriving DecidableEq, Repr

/-- What options and operands say. A style option without a style is told from no style option, since it is an error. `stray`
says that something was no option and no operand that the command takes. -/
structure Settings where
  verbose : Bool := false
  style : Option (Option Style) := none
  config : Option String := none
  strict : Bool := false
  latex : Bool := false
  json : Bool := false
  file : Option String := none
  operands : List String := []
  phase : Phase := .due
  stray : Bool := false
  deriving DecidableEq, Repr

namespace Settings

/-- An option without a value. Help ends the reading. -/
def switchOn (s : Settings) : Switch → Except Stop Settings
  | .help => .error .help
  | .verbose => .ok { s with verbose := true }
  | .strict => .ok { s with strict := true }
  | .latex => .ok { s with latex := true }
  | .json => .ok { s with json := true }
  | _ => .ok s

/-- An option with its value, or with none. A style is one of the three. -/
def assign (s : Settings) (value : Option String) : Switch → Except Stop Settings
  | .style =>
    match value with
    | none => .ok { s with style := some none }
    | some name =>
      match Style.ofName? name with
      | some style => .ok { s with style := some (some style) }
      | none => .error .misuse
  | .config => .ok { s with config := value }
  | .file => .ok { s with file := value }
  | _ => .ok s

/-- The settings once an option has come. -/
def closeOperands (s : Settings) : Settings := if s.phase = .reading then { s with phase := .closed } else s

/-- The settings after an operand. -/
def addOperand (s : Settings) (arity : Arity) (x : String) : Settings :=
  match arity, s.phase with
  | .many, .due | .many, .reading | .optional, .due => { s with operands := s.operands ++ [x], phase := .reading }
  | _, _ => { s with stray := true }

/-- The settings after the separator, which may stand before, between and behind operands. -/
def addSeparator (s : Settings) (arity : Arity) : Settings :=
  if arity = .none ∨ s.phase = .closed then { s with stray := true } else s

/-- The settings after the options of one word, of which one takes a value if one is given. -/
def addCluster (s : Settings) (c : Cluster) (value : Option String) : Except Stop Settings := do
  let s ← c.flags.foldlM switchOn s.closeOperands
  match c.valued with
  | some (switch, _) => s.assign value switch
  | none => pure s

end Settings

/-- Reads words behind a command. An option whose value is due takes the next word, which has to be an operand. -/
def readWords (names : Names) (arity : Arity) (s : Settings) : List Word → Except Stop Settings
  | [] => .ok s
  | .operand x :: ws => readWords names arity (s.addOperand arity x) ws
  | .separator :: ws => readWords names arity (s.addSeparator arity) ws
  | .unknown :: ws => readWords names arity { s.closeOperands with stray := true } ws
  | .option switch isLong attached :: ws =>
    match Cluster.ofOption? names switch isLong attached with
    | none => .error .misuse
    | some c =>
      if c.isDue then
        match ws with
        | .operand v :: ws => do
          let s ← s.addCluster c (some v)
          readWords names arity s ws
        | _ => .error .misuse
      else do
        let s ← s.addCluster c c.attached?
        readWords names arity s ws

/-! ## Commands -/

/-- What is to be done: a table of formulas, a verdict on a derivation, or the gallery. -/
inductive Task where
  | table (formulas : List String) (latex : Bool)
  | verify (derivation file : Option String) (json : Bool)
  | demo
  deriving DecidableEq, Repr

/-- A command with its options. A style option may stand without a style. -/
structure Invocation where
  style : Option (Option Style) := none
  config : Option String := none
  strict : Bool := false
  task : Task
  deriving DecidableEq, Repr

/-- The names of the options before the command. -/
def leadingNames : Names := [("-h", .help), ("--help", .help), ("--verbose", .verbose), ("-v", .verbose)]

/-- The names of the options that every command has. -/
def commonNames : Names := [
  ("-h", .help), ("--help", .help), ("--style", .style), ("--config", .config), ("--strict", .strict)]

/-- The commands. -/
inductive Verb where
  | table | verify | demo
  deriving DecidableEq, Repr

namespace Verb

/-- The command with a given name. -/
def ofName? : String → Option Verb
  | "table" => some table
  | "verify" => some verify
  | "demo" => some demo
  | _ => none

/-- The names of the options of a command. -/
def names : Verb → Names
  | table => commonNames ++ [("--latex", .latex)]
  | verify => commonNames ++ [("--file", .file), ("-f", .file), ("--json", .json)]
  | demo => commonNames

/-- How many operands a command takes. -/
def arity : Verb → Arity
  | table => .many
  | verify => .optional
  | demo => .none

/-- What a command does with the given settings. A table needs a formula. -/
def task? (v : Verb) (s : Settings) : Option Task :=
  match v with
  | table => if s.operands.isEmpty then none else some (.table s.operands s.latex)
  | verify => some (.verify s.operands.head? s.file s.json)
  | demo => some .demo

end Verb

/-- Reads the arguments behind a command. `stray` says that an argument before it was no option. -/
def readVerb (stray : Bool) (v : Verb) (args : List String) : Except Stop Invocation := do
  let ws ← wordsOf v.names args
  let s ← readWords v.names v.arity {} ws
  match v.task? s with
  | some task => if stray || s.stray then throw .misuse else pure ⟨s.style, s.config, s.strict, task⟩
  | none => throw .misuse

/-- Reads arguments, each with the word it is, up to the command and on. Without a command help is shown. -/
def readLeading (s : Settings) : List (Word × String) → Except Stop Invocation
  | [] => .error (if s.stray then .misuse else .help)
  | (.operand name, _) :: rest =>
    match Verb.ofName? name with
    | some v => readVerb s.stray v (rest.map (·.2))
    | none => .error .misuse
  | (.separator, _) :: _ => .error .misuse
  | (.unknown, _) :: rest => readLeading { s with stray := true } rest
  | (.option switch isLong attached, _) :: rest =>
    match Cluster.ofOption? leadingNames switch isLong attached with
    | none => .error .misuse
    | some c => do
      let s ← s.addCluster c none
      readLeading s rest

/-- Reads the arguments of the command line. -/
def parse (args : List String) : Except Stop Invocation := do
  let ws ← wordsOf leadingNames args
  readLeading {} (ws.zip args)

end Propositional.Command
