import Propositional.Config.Reference
import Propositional.Text.Digit
import Propositional.Text.Lowercase

/-!
# Configuration from the environment

Each field of a configuration can be set by a variable of the environment, or by an entry of an environment file where the
variable is not set. A variable that is set to the empty text is set. An entry that no variable could hold is refused. Style and
strictness are read without regard to case and to blanks around them, the limit as an integer, and the glyphs as they are.
-/

namespace Propositional

/-- Where settings come from: the variables that are set, and the entries of an environment file. -/
structure Environment where
  settings : List (String × String) := []
  entries : List EntryFile.Entry := []

namespace Environment

open Text

/-- The text of a setting: that of the variable if it is set, else that of the last entry of the name. -/
def setting? (e : Environment) (name : String) : Option String :=
  (e.settings.lookup name).or (EntryFile.value? (EntryFile.expandAll e.settings e.entries) name)

/-- Why a name cannot be set to a text, if it cannot. -/
def settingFault? (name value : String) : Option SettingFault :=
  if name.toList.contains '\x00' || value.toList.contains '\x00' then some .null
  else if name.toList.contains '=' then some .equalsInName
  else none

/-- Why the entries of the file cannot be set, if one cannot. The variables that are set already are passed over. -/
def fault? (e : Environment) : Option SettingFault :=
  (e.entries.map (·.1)).findSome? fun name =>
    if (e.settings.lookup name).isSome then none else (e.setting? name).bind (settingFault? name)

/-- The texts that switch a setting on. -/
def switchedOn : List String := ["1", "true", "yes", "on"]

/-- A setting that is read without regard to case and to blanks around it. -/
def folded (s : String) : String := String.ofList (lowercase (trim s.toList))

/-- The fields of a configuration that are set, or the text that should write the limit and does not. -/
def fields (e : Environment) : Except Refusal (List (JsonText × Json)) := do
  let style := (e.setting? "TRUTHTAB_STYLE").map fun s => (.string "style", Json.str (folded s))
  let yes := (e.setting? "TRUTHTAB_TRUE_GLYPH").map fun s => (.string "true_glyph", Json.str s)
  let no := (e.setting? "TRUTHTAB_FALSE_GLYPH").map fun s => (.string "false_glyph", Json.str s)
  let strict := (e.setting? "TRUTHTAB_STRICT_IMPLICATION").map fun s =>
    (.string "strict_implication", Json.bool (switchedOn.contains (folded s)))
  let texts : List (JsonText × Json) := style.toList ++ yes.toList ++ no.toList ++ strict.toList
  match e.setting? "TRUTHTAB_MAX_VARIABLES" with
  | none => pure texts
  | some s =>
    match readInteger? s.toList with
    | some n => pure (texts ++ [(.string "max_variables", .int n)])
    | none => throw (.limitNoInteger s)

end Environment

/-- The values that an environment sets, if all entries of its file can be set. -/
def Config.Values.ofEnvironment (e : Environment) : Except ConfigError Values :=
  match e.fault?, e.fields with
  | some f, _ => .error (.refused (.setting f))
  | none, .ok fields => ofFields fields
  | none, .error r => .error (.refused r)

/-- The configuration that an environment sets. -/
def Config.ofEnvironment (e : Environment) : Except ConfigError Config := (Values.ofEnvironment e).bind Values.check

end Propositional
