import Propositional.Config
import Propositional.Report.Console
import Propositional.Report.Markdown

/-!
# Reports in a style

The style of a configuration chooses the form of a report: text, or prints on the console. Plain text needs glyphs that have a
length and can be padded, and the console needs glyphs that can stand in a cell by themselves; a configuration may hold values
that are no such glyphs, and this shows when a report needs them. Surrogates in a glyph have their stand-ins by then.
-/

namespace Propositional

/-- Why values cannot stand as glyphs in a report: one has no length, one cannot be padded, or one cannot be a cell. -/
inductive GlyphFault where
  | lengthless | unpaddable | uncellable
  deriving DecidableEq, Repr

namespace Config

/-- Both glyphs, if they are strings. -/
def texts? (c : Config) : Option Glyphs :=
  match c.trueGlyph, c.falseGlyph with
  | .str (.string yes), .str (.string no) => some ⟨yes, no⟩
  | _, _ => none

end Config

namespace Json

/-- A value that has a length. -/
def hasLength : Json → Bool
  | str _ => true
  | arr _ => true
  | obj _ => true
  | _ => false

end Json

namespace Report

/-- A report: text, or prints on the console. -/
inductive Styled where
  | text (s : String)
  | prints (ps : List Print)
  deriving DecidableEq, Repr

/-- A table as plain text. -/
def plainTableOf (c : Config) (t : TruthTable) : Except GlyphFault String :=
  match c.texts? with
  | some g => .ok (plainTable g t)
  | none =>
    if t.isEmpty then .ok t.status.message
    else .error (if c.trueGlyph.hasLength && c.falseGlyph.hasLength then .unpaddable else .lengthless)

/-- A verdict as plain text. -/
def plainVerdictOf (c : Config) (v : Verdict) : Except GlyphFault String :=
  match c.texts? with
  | some g => .ok (plainVerdict g v)
  | none => if v.status = .ok then .error .unpaddable else .ok v.status.message

/-- The prints of a verdict. -/
def consoleVerdictOf (c : Config) (v : Verdict) : Except GlyphFault (List Print) :=
  match c.texts? with
  | some g => .ok (consoleVerdict g v)
  | none => if v.status = .ok then .error .uncellable else .ok [statusPrint v.status]

/-- The prints of a table. A glyph of any form has a text between its tags. -/
def consoleTableOf (c : Config) (t : TruthTable) : List Print := consoleTable c.displayed t

/-- A table in the style of a configuration. -/
def styledTable (c : Config) (t : TruthTable) : Except GlyphFault Styled :=
  match c.style with
  | .markdown => .ok (.text (markdownTable t))
  | .plain => (plainTableOf c t).map .text
  | .colorized => .ok (.prints (consoleTableOf c t))

/-- A verdict in the style of a configuration: on the console if the style is colorized, else as plain text. -/
def styledVerdict (c : Config) (v : Verdict) : Except GlyphFault Styled :=
  match c.style with
  | .colorized => (consoleVerdictOf c v).map .prints
  | _ => (plainVerdictOf c v).map .text

end Report

end Propositional
