import Propositional.Proofs.Config.Values
import Propositional.Proofs.Json.Value
import Propositional.Proofs.Text.LineEnds

/-!
# Configurations in files

A configuration with glyphs that are strings, a truth value and an integer has a file, which is laid out in lines, one field on
each (`Config.layout`). It is read back from this file as it was (`readBack_of_valid`): what was valid passes the checks again.
Only an integer with too many digits is not read back, unless their number is left open.
-/

namespace Propositional

/-! ## Values in files -/

/-- An exact value is read back from its file. -/
theorem Json.Exact.readWithin_lineFeeds {limit : Option Nat} {x : Json} (h : Exact limit x) :
    readWithin limit (Text.lineFeeds x.render.toList) = .ok x := by
  have hreturn : '\r' ∉ renderAt 0 x := by
    intro hmem
    exact absurd (h.isPrinted 0 _ hmem) (by decide)
  rw [render, String.toList_ofList, Text.lineFeeds_of_notMem hreturn, readWithin_render h]

namespace Config

/-! ## The text of a file -/

/-- A string as it stands in a file between quotation marks. -/
def escaped (s : String) : String := String.ofList (s.toList.flatMap Json.escapeChar)

/-- The text of a file: an object over seven lines, its fields on the five inner ones, two spaces further in. -/
def layout (style : Style) (yes no : String) (strict : Bool) (n : Int) : String :=
  "\n".intercalate [
    "\x7b",
    "  \"style\": \"" ++ style.name ++ "\",",
    "  \"true_glyph\": \"" ++ escaped yes ++ "\",",
    "  \"false_glyph\": \"" ++ escaped no ++ "\",",
    "  \"strict_implication\": " ++ (if strict then "true" else "false") ++ ",",
    "  \"max_variables\": " ++ toString n,
    "\x7d"]

variable {style : Style} {yes no : String} {strict : Bool} {n : Int}

/-- An integer is shown by its digits. -/
theorem toList_toString (n : Int) : (toString n).toList = Json.digits n := by
  cases n with
  | ofNat n =>
    show (Nat.repr n).toList = _
    simp [Json.digits, Nat.repr]
  | negSucc n =>
    show ("-" ++ Nat.repr (n + 1)).toList = _
    simp [Json.digits, Nat.repr]

/-- The text of the file of a configuration. -/
theorem toFile_eq_layout : toFile ⟨style, .str yes, .str no, .bool strict, .int n⟩ = layout style yes no strict n := by
  have hname : style.name.toList.flatMap Json.escapeChar = style.name.toList := by cases style <;> decide
  have hlabels : ∀ f ∈ ["style", "true_glyph", "false_glyph", "strict_implication", "max_variables"],
      f.toList.flatMap Json.escapeChar = f.toList := by decide
  simp only [List.forall_mem_cons] at hlabels
  obtain ⟨h₁, h₂, h₃, h₄, h₅, -⟩ := hlabels
  have hstrict : (if strict then "true" else "false").toList = Json.renderAt 1 (.bool strict) := by cases strict <;> rfl
  rw [← String.toList_inj]
  unfold toFile Json.render toJson fields
  simp only [Json.renderAt, Json.renderFields, Json.renderText, Json.renderString, hname, h₁, h₂, h₃, h₄, h₅]
  rw [layout, String.toList_intercalate]
  simp only [List.map_cons, String.toList_append, String.toList_ofList, hstrict, toList_toString, escaped]
  simp [Json.newline, Json.renderAt, List.intercalate]

/-! ## Reading it -/

/-- Values that were valid pass the checks again. -/
theorem check_of_valid (hyes : yes ≠ "") (hno : no ≠ "") (hdistinct : yes ≠ no) (hn : 1 ≤ n) :
    check (.str style.name) (.str yes) (.str no) (.bool strict) (.int n) =
      .ok ⟨style, .str yes, .str no, .bool strict, .int n⟩ := by
  have hglyphs : Distinct yes no := ⟨by simp [JsonText.isEmpty, hyes, hno], by simpa using hdistinct⟩
  rw [check_eq_checkLimit (Style.ofJson?_name style) hglyphs, checkLimit_int hn]
  rfl

/-- A configuration with texts as glyphs is read back from its JSON if its limit is short enough. -/
theorem exact_toJson (style : Style) (yes no : String) (strict : Bool) {limit : Option Nat}
    (hlimit : limit.all ((Nat.toDigits 10 n.natAbs).length ≤ ·)) :
    Json.Exact limit (toJson ⟨style, .str yes, .str no, .bool strict, .int n⟩) := by
  refine .obj (by decide : fieldNames.Nodup) ?_ ?_
  · simp [fields]
  · simp only [fields, List.forall_mem_cons]
    exact ⟨.str _, .str _, .str _, .bool _, .int hlimit, nofun⟩

/-- A file that is laid out as configurations are has the configuration laid out. -/
theorem ofFileWithin_layout {limit : Option Nat} (hyes : yes ≠ "") (hno : no ≠ "") (hdistinct : yes ≠ no) (hn : 1 ≤ n)
    (hlimit : limit.all ((Nat.toDigits 10 n.natAbs).length ≤ ·)) :
    ofFileWithin limit (layout style yes no strict n) = .ok ⟨style, .str yes, .str no, .bool strict, .int n⟩ := by
  rw [← toFile_eq_layout, toFile, ofFileWithin, Values.ofFileWithin,
    (exact_toJson style yes no strict hlimit).readWithin_lineFeeds]
  show (check (.str style.name) (.str yes) (.str no) (.bool strict) (.int n)).mapError FileError.config = _
  rw [check_of_valid hyes hno hdistinct hn]
  rfl

/-- A valid configuration survives its file. The file is laid out in lines, and what is read from it is the configuration that was
written, for any number of digits in its integer where that number is left open, and for as many as an integer may have
otherwise. -/
theorem readBack_of_valid (style : Style) (yes no : String) (strict : Bool) (n : Int) (hyes : yes ≠ "") (hno : no ≠ "")
    (hdistinct : yes ≠ no) (hn : 1 ≤ n) :
    let c : Config := ⟨style, .str yes, .str no, .bool strict, .int n⟩
    c.toFile? = some (layout style yes no strict n) ∧
    ofFileWithin none (layout style yes no strict n) = .ok c ∧
    ((Nat.toDigits 10 n.natAbs).length ≤ Text.digitLimit → ofFile (layout style yes no strict n) = .ok c) := by
  refine ⟨?_, ofFileWithin_layout hyes hno hdistinct hn rfl, fun hdigits => ?_⟩
  · rw [← toFile_eq_layout]
    exact if_pos rfl
  · exact ofFileWithin_layout hyes hno hdistinct hn (by simpa using hdigits)

/-- A configuration whose glyphs hold what is escaped and what is not, with an integer beyond the words of a machine. -/
theorem readBack_escaped_glyphs :
    let c : Config := ⟨.markdown, .str "\"sí\\\n\x01😀", .str "\r\t\x7f", .bool true, .int (2 ^ 100)⟩
    let text := "\x7b\n  \"style\": \"markdown\",\n  \"true_glyph\": \"\\\"sí\\\\\\n\\u0001😀\",\n" ++
      "  \"false_glyph\": \"\\r\\t\x7f\",\n  \"strict_implication\": true,\n" ++
      "  \"max_variables\": 1267650600228229401496703205376\n\x7d"
    c.toFile? = some text ∧ ofFileWithin none text = .ok c ∧ ofFile text = .ok c := by
  have htext : layout .markdown "\"sí\\\n\x01😀" "\r\t\x7f" true (2 ^ 100) =
      "\x7b\n  \"style\": \"markdown\",\n  \"true_glyph\": \"\\\"sí\\\\\\n\\u0001😀\",\n" ++
      "  \"false_glyph\": \"\\r\\t\x7f\",\n  \"strict_implication\": true,\n" ++
      "  \"max_variables\": 1267650600228229401496703205376\n\x7d" := by decide +kernel
  obtain ⟨hfile, hopen, hlimit⟩ := readBack_of_valid .markdown "\"sí\\\n\x01😀" "\r\t\x7f" true (2 ^ 100)
    (by decide) (by decide) (by decide) (by decide)
  rw [htext] at hfile hopen hlimit
  exact ⟨hfile, hopen, hlimit (by decide)⟩

end Config

end Propositional
