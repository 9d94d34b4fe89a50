import Propositional.Json
import Propositional.Report.Glyphs

/-!
# Configurations

A configuration says how results are shown and what is refused: a style, the glyphs of true and false, whether an arrow without
a left operand is an error, and how many letters a table may have. A value is kept as it was given, whatever its form, as long
as it passes the checks: the style is one of three, the glyphs are neither empty nor equal, and the limit is at least one. The
checks are made in this order, each time a configuration is made.
-/

namespace Propositional

/-- A style of output. -/
inductive Style where
  | plain | colorized | markdown
  deriving DecidableEq, Repr

namespace Style

/-- The name of a style. -/
def name : Style → String
  | plain => "plain"
  | colorized => "colorized"
  | markdown => "markdown"

/-- The styles in the order in which messages list them. -/
def all : List Style := [plain, colorized, markdown]

/-- The style with a given name. -/
def ofName? (s : String) : Option Style := all.find? (·.name == s)

/-- The style that a value names. -/
def ofJson? : Json → Option Style
  | .str (.string s) => ofName? s
  | _ => none

end Style

/-- A configuration. -/
structure Config where
  style : Style := .colorized
  trueGlyph : Json := .str "T"
  falseGlyph : Json := .str "F"
  strictImplication : Json := .bool false
  maxVariables : Json := .int 12

/-- Why a text cannot be set in an environment: it holds the character zero, or a name holds an equals sign. -/
inductive SettingFault where
  | null
  | equalsInName
  deriving DecidableEq, Repr

/-- The wording of such a fault. -/
def SettingFault.message : SettingFault → String
  | null => "embedded null byte"
  | equalsInName => "illegal environment variable name"

/-- Why a value is refused. -/
inductive Refusal where
  | style (given : Json)
  | emptyGlyph
  | sameGlyphs (given : Json)
  | limitTooLow (given : Json)
  | limitNoInteger (given : String)
  | setting (fault : SettingFault)

/-- The wording of a refusal. -/
def Refusal.message : Refusal → String
  | style given =>
    let names := Json.arr (Style.all.map fun s => .str s.name)
    s!"style debe ser uno de {names.display}, recibi {String.ofList given.describe}"
  | emptyGlyph => "true_glyph y false_glyph no pueden estar vacios"
  | sameGlyphs given => s!"true_glyph y false_glyph deben ser distintos, ambos son {String.ofList given.describe}"
  | limitTooLow given => s!"max_variables debe ser positivo, recibi {given.display}"
  | limitNoInteger given => s!"TRUTHTAB_MAX_VARIABLES debe ser entero, recibi {Text.quoted given}"
  | setting fault => fault.message

/-- Why values make no configuration: one is refused, a field is unknown, the limit is no number, or there are no fields. -/
inductive ConfigError where
  | refused (reason : Refusal)
  | unknownField (name : JsonText)
  | limitNoNumber
  | notAnObject

namespace Config

/-- The names of the fields in a file. -/
def fieldNames : List JsonText := ["style", "true_glyph", "false_glyph", "strict_implication", "max_variables"]

/-- The fields of a configuration as they stand in a file. -/
def fields (c : Config) : List (JsonText × Json) := [
  ("style", .str c.style.name), ("true_glyph", c.trueGlyph), ("false_glyph", c.falseGlyph),
  ("strict_implication", c.strictImplication), ("max_variables", c.maxVariables)]

/-- The checks on values that are not checked yet. -/
def check (style trueGlyph falseGlyph strictImplication maxVariables : Json) : Except ConfigError Config :=
  match Style.ofJson? style with
  | none => .error (.refused (.style style))
  | some s =>
    if !trueGlyph.isTruthy || !falseGlyph.isTruthy then .error (.refused .emptyGlyph)
    else if Json.same trueGlyph falseGlyph then .error (.refused (.sameGlyphs trueGlyph))
    else
      match maxVariables.compareInt? 1 with
      | none => .error .limitNoNumber
      | some (some .lt) => .error (.refused (.limitTooLow maxVariables))
      | some _ =>
        .ok {
          style := s, trueGlyph := trueGlyph, falseGlyph := falseGlyph, strictImplication := strictImplication,
          maxVariables := maxVariables }

/-- Values for the fields of a configuration before they are checked. -/
structure Values where
  style : Json
  yes : Json
  no : Json
  strict : Json
  limit : Json

namespace Values

/-- The checks on values. -/
def check (v : Values) : Except ConfigError Config := Config.check v.style v.yes v.no v.strict v.limit

/-- The values of the given fields, the others having their usual values. -/
def ofFields (given : List (JsonText × Json)) : Except ConfigError Values :=
  match given.find? fun f => !fieldNames.contains f.1 with
  | some f => .error (.unknownField f.1)
  | none =>
    let usual : Config := {}
    let value (name : JsonText) (x : Json) : Json := (Json.field? given name).getD x
    .ok ⟨value "style" (.str usual.style.name), value "true_glyph" usual.trueGlyph, value "false_glyph" usual.falseGlyph,
      value "strict_implication" usual.strictImplication, value "max_variables" usual.maxVariables⟩

/-- The values that a value of a file describes. -/
def ofJson : Json → Except ConfigError Values
  | .obj given => ofFields given
  | _ => .error .notAnObject

end Values

/-- The configuration with the given fields, the others having their usual values. -/
def ofFields (given : List (JsonText × Json)) : Except ConfigError Config := (Values.ofFields given).bind Values.check

/-- The configuration that a value of a file describes. -/
def ofJson (x : Json) : Except ConfigError Config := (Values.ofJson x).bind Values.check

/-- A configuration as a value of a file. -/
def toJson (c : Config) : Json := .obj c.fields

/-- The name that stands for the configuration itself, and never for a field of it. -/
def ownName : JsonText := "self"

/-- The configuration with some fields changed and all checks made again. A change to null is no change, but even such a change
cannot have the name of the configuration itself. -/
def withOverrides (c : Config) (changes : List (JsonText × Json)) : Except ConfigError Config :=
  let real := changes.filter fun f =>
    match f.2 with
    | .null => f.1 == ownName
    | _ => true
  ofFields (real.foldl (fun fs f => Json.setField f.1 f.2 fs) c.fields)

/-- Two configurations have equal fields. -/
def same (c d : Config) : Bool := Json.same c.toJson d.toJson

/-- An arrow without a left operand is an error. -/
def isStrict (c : Config) : Bool := c.strictImplication.isTruthy

/-- A table may not have that many letters. -/
def exceeds (c : Config) (count : Nat) : Bool := c.maxVariables.compareInt? count == some (some .lt)

/-- The value that stands for a truth value. -/
def glyph (c : Config) (b : Bool) : Json := if b then c.trueGlyph else c.falseGlyph

/-- Stand-ins for the surrogates of the glyphs, beside texts that are shown with them. -/
def standIns (c : Config) (texts : List String) : Text.StandIns :=
  let codes := c.trueGlyph.codes ++ c.falseGlyph.codes
  Text.StandIns.choose codes (codes.map Text.codeChar :: texts.map String.toList)

/-- The configuration with stand-ins for the surrogates of its glyphs. -/
def withStandIns (c : Config) (m : Text.StandIns) : Config :=
  { c with trueGlyph := c.trueGlyph.withStandIns m, falseGlyph := c.falseGlyph.withStandIns m }

/-- The glyphs as texts. -/
def displayed (c : Config) : Glyphs := ⟨c.trueGlyph.display, c.falseGlyph.display⟩

end Config

end Propositional
