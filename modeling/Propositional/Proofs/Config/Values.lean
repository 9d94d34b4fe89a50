import Propositional.Config.Environment
import Propositional.Config.File

/-!
# Values before they are checked

A file or an environment gives values for the fields of a configuration, the usual ones where it gives none, and then the checks
are made on them. Where a style is named and the glyphs are two different texts that are not empty, the limit alone decides what
the checks say (`check_eq_checkLimit`), whatever style and glyphs these are.
-/

namespace Propositional

/-- Every style is named by its name. -/
theorem Style.ofJson?_name (s : Style) : Style.ofJson? (.str s.name) = some s := by cases s <;> decide

namespace Config

/-! ## The limit -/

/-- The check on the limit. -/
def checkLimit (limit : Json) : Except ConfigError Unit :=
  match limit.compareInt? 1 with
  | none => .error .limitNoNumber
  | some (some .lt) => .error (.refused (.limitTooLow limit))
  | some _ => .ok ()

/-- Two texts that can stand for true and false: neither is empty, and they differ. -/
structure Distinct (yes no : JsonText) : Prop where
  nonempty : yes.isEmpty = false ∧ no.isEmpty = false
  ne : yes ≠ no

/-- With a style and two such glyphs, the checks are that of the limit. -/
theorem check_eq_checkLimit {style : Json} {s : Style} (hstyle : Style.ofJson? style = some s) {yes no : JsonText}
    (hglyphs : Distinct yes no) (strict limit : Json) :
    check style (.str yes) (.str no) strict limit = (checkLimit limit).map fun _ => ⟨s, .str yes, .str no, strict, limit⟩ := by
  have htruthy : (!(Json.str yes).isTruthy || !(Json.str no).isTruthy) = false := by
    simp [Json.isTruthy, hglyphs.nonempty]
  have hsame : Json.same (.str yes) (.str no) = false := by
    simp [Json.same, hglyphs.ne]
  unfold check checkLimit
  simp only [hstyle, htruthy, hsame, Bool.false_eq_true, if_false]
  cases limit.compareInt? 1 with
  | none => rfl
  | some order =>
    cases order with
    | none => rfl
    | some order => cases order <;> rfl

/-- An integer from one on passes as a limit. -/
theorem checkLimit_int {n : Int} (hn : 1 ≤ n) : checkLimit (.int n) = .ok () := by
  have hcompare : compare n 1 ≠ .lt := by
    rw [Ne, Int.compare_eq_lt]
    omega
  show (match some (some (compare n 1)) with
    | none => .error .limitNoNumber
    | some (some .lt) => .error (.refused (.limitTooLow (.int n)))
    | some _ => .ok () : Except ConfigError Unit) = _
  cases h : compare n 1 with
  | lt => exact absurd h hcompare
  | eq => rfl
  | gt => rfl

/-- Values that name a style and have such glyphs, whatever their strictness and their limit. -/
structure Values.Presentable (v : Values) : Prop where
  style : ∃ s, Style.ofJson? v.style = some s
  glyphs : ∃ yes no : JsonText, v.yes = .str yes ∧ v.no = .str no ∧ Distinct yes no

end Config

end Propositional
