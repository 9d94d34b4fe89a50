import Propositional.Config
import Propositional.Json.Printer
import Propositional.Json.Reader

/-!
# Configuration files

A configuration is kept in a file of JSON, an object with its fields by name. A file may have its line ends in any form.
-/

namespace Propositional

/-- The text with every line end written as a line feed. -/
def Text.lineFeeds : List Char → List Char
  | [] => []
  | '\r' :: '\n' :: cs => '\n' :: lineFeeds cs
  | c :: cs => (if c = '\r' then '\n' else c) :: lineFeeds cs

/-- Why a file holds no configuration: its text is no JSON, for the reason given and with the wording given, or its value
describes none. -/
inductive FileError where
  | unreadable (cause : Json.Cause) (message : String)
  | config (error : ConfigError)

namespace Config

/-- The values in a file with the given text, its integers having as many digits as the limit allows. -/
def Values.ofFileWithin (limit : Option Nat) (text : String) : Except FileError Values :=
  let s := Text.lineFeeds text.toList
  match Json.readWithin limit s with
  | .error e => .error (.unreadable e.cause (e.message s))
  | .ok x => (ofJson x).mapError .config

/-- The values in a file with the given text. -/
def Values.ofFile (text : String) : Except FileError Values := ofFileWithin (some Text.digitLimit) text

/-- The configuration in a file with the given text, its integers having as many digits as the limit allows. -/
def ofFileWithin (limit : Option Nat) (text : String) : Except FileError Config :=
  (Values.ofFileWithin limit text).bind fun v => v.check.mapError .config

/-- The configuration in a file with the given text. -/
def ofFile (text : String) : Except FileError Config := ofFileWithin (some Text.digitLimit) text

/-- The text of a file that holds a configuration. -/
def toFile (c : Config) : String := c.toJson.render

/-- The text of a file that holds a configuration, if a file can hold it: none can hold a surrogate that stands alone. -/
def toFile? (c : Config) : Option String := if c.toJson.isPaired then some c.toFile else none

end Config

end Propositional
