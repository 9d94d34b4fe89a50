import Propositional.Proofs.Report.Columns
import Propositional.Proofs.Verdict.Equivalence
import Propositional.Report.Styled

/-!
# Verdicts as plain text

The columns of a verdict are as wide as their headings, and at least two, whatever the glyphs are. So its lines have the same
length exactly for glyphs of at most two characters (`lines_aligned_iff`), and a longer glyph makes the rows that hold it too
long (`not_aligned_long_glyphs`).
-/

namespace Propositional.Report

open Text

section Verdict

variable {g : Glyphs} {steps : List String} {v : Verdict}

/-- The texts of a row: the glyphs of its values and the mark of agreement. -/
def verdictTexts (g : Glyphs) (v : Verdict) (r : Row) : List (List Char) :=
  (r.cells v.letters).map (fun b => (g.ofBool b).toList) ++ [[agreementMark r]]

/-- The headings of a verdict fit into the columns. -/
theorem fit_verdictHeadings (v : Verdict) : Fit (verdictWidths v) (verdictHeadings v) := by
  rw [Fit, verdictWidths, List.forall₂_map_left_iff, List.forall₂_same]
  exact fun h _ => Nat.le_max_left _ _

/-- A row of a verdict has a text for each column. -/
theorem length_verdictTexts (h : Verdict.ofSteps steps = .ok v) (hstatus : v.status = .ok) {r : Row} (hr : r ∈ v.rows) :
    (verdictWidths v).length = (verdictTexts g v r).length := by
  obtain ⟨-, -, hsteps, hrows⟩ := rowsOf_of_ofSteps h hstatus
  have hresults := ((rowsOf_eq_ok_iff.mp hrows).2 r hr).length_eq
  simp [verdictWidths, verdictHeadings, verdictTexts, Row.cells, labels, hsteps, hresults]

/-- The texts of all rows fit into the columns exactly if both glyphs fit into the column of a letter. Each of the two values is
that of the first letter in some row. -/
theorem fit_verdictTexts_iff (h : Verdict.ofSteps steps = .ok v) (hstatus : v.status = .ok) :
    (∀ r ∈ v.rows, Fit (verdictWidths v) (verdictTexts g v r)) ↔ g.yes.length ≤ 2 ∧ g.no.length ≤ 2 := by
  obtain ⟨hletters, hne, -, hrows⟩ := rowsOf_of_ofSteps h hstatus
  constructor
  · intro hall
    have hglyph : ∀ b, (g.ofBool b).length ≤ 2 := by
      intro b
      obtain ⟨r, hr, -, hassign, -⟩ := exists_filter_assignment (nodup_lettersOfAll steps) hrows
        (Valuation.keys_assign (lettersOfAll steps) fun _ => b)
      obtain ⟨x, xs, hxs⟩ := List.exists_cons_of_ne_nil hne
      have hvalue : r.assignment.value x = b := by
        rw [Valuation.value, hassign, Valuation.lookup_assign (by rw [← hletters, hxs]; simp), Option.getD_some]
      have hfit := hall r hr
      rw [verdictWidths, verdictHeadings, verdictTexts, Row.cells, hxs] at hfit
      have hfirst := (List.forall₂_cons.mp hfit).1
      rwa [hvalue, String.length_toList] at hfirst
    exact ⟨hglyph true, hglyph false⟩
  · rintro ⟨hyes, hno⟩ r hr
    refine forall₂_of_forall_mem (length_verdictTexts h hstatus hr) fun w hw s hs => Nat.le_trans ?_ (?_ : 2 ≤ w)
    · rcases List.mem_append.mp hs with hs | hs
      · obtain ⟨b, -, rfl⟩ := List.mem_map.mp hs
        rw [String.length_toList]
        cases b
        · exact hno
        · exact hyes
      · obtain rfl := List.mem_singleton.mp hs
        simp
    · obtain ⟨heading, -, rfl⟩ := List.mem_map.mp hw
      exact Nat.le_max_right _ _

/-! ## Line feeds -/

/-- A number is written with digits alone. -/
theorem notMem_decimal {x : Char} (hx : x.isDigit = false) (n : Nat) : x ∉ decimal n := fun h => by
  rw [Nat.isDigit_of_mem_toDigits (by decide) (by decide) h] at hx
  cases hx

/-- A row has no character but those of its texts, of the bars and spaces. -/
theorem notMem_plainRow {x : Char} (hsep : x ∉ [' ', '|', ' ']) {widths : List Nat} {texts : List (List Char)}
    (h : ∀ s ∈ texts, x ∉ s) : x ∉ plainRow widths texts := by
  intro hx
  rcases mem_joinWith hx with hx | ⟨cell, hcell, hx⟩
  · exact hsep hx
  · obtain ⟨w, -, s, hs, rfl⟩ := exists_of_mem_zipWith hcell
    rcases List.mem_append.mp hx with hx | hx
    · rw [List.eq_of_mem_replicate hx] at hsep
      exact hsep (by simp)
    · exact h s hs hx

/-- The line between heads and rows has dashes and crosses alone. -/
theorem notMem_plainRule {x : Char} (hx : x ∉ ['-', '+', '-']) (widths : List Nat) : x ∉ plainRule widths := by
  intro hmem
  rcases mem_joinWith hmem with hmem | ⟨dashes, hdashes, hmem⟩
  · exact hx hmem
  · obtain ⟨w, -, rfl⟩ := List.mem_map.mp hdashes
    rw [List.eq_of_mem_replicate hmem] at hx
    exact hx (by simp)

/-- The closing line has no line feed. -/
theorem lineFeed_notMem_summary (v : Verdict) : '\n' ∉ summary v := by
  unfold summary
  split
  · decide
  · have hwords : '\n' ∉ " Found ".toList ∧ '\n' ∉ " row(s) with mismatches".toList := by decide
    simp only [List.mem_cons, List.mem_append, not_or]
    exact ⟨by decide, ⟨hwords.1, notMem_decimal (by decide) _⟩, hwords.2⟩

/-- The headings of a verdict have no line feed. -/
theorem lineFeed_notMem_verdictHeadings (h : Verdict.ofSteps steps = .ok v) (hstatus : v.status = .ok) :
    ∀ s ∈ verdictHeadings v, '\n' ∉ s := by
  have hletters := (rowsOf_of_ofSteps h hstatus).1
  intro s hs
  rw [verdictHeadings, List.mem_append, List.mem_append] at hs
  rcases hs with (hs | hs) | hs
  · obtain ⟨x, hx, rfl⟩ := List.mem_map.mp hs
    rw [hletters] at hx
    have hupper : x.isUpper := mem_alphabet.mp (List.mem_of_mem_filter hx)
    rw [List.mem_singleton]
    exact (ne_of_holds hupper (by decide)).symm
  · obtain ⟨i, -, rfl⟩ := List.mem_map.mp hs
    exact List.not_mem_cons_of_ne_of_not_mem (by decide) (notMem_decimal (by decide) _)
  · obtain rfl := List.mem_singleton.mp hs
    decide

/-- The texts of a row have no line feed if the glyphs have none. -/
theorem lineFeed_notMem_verdictTexts (hyes : '\n' ∉ g.yes.toList) (hno : '\n' ∉ g.no.toList) (r : Row) :
    ∀ s ∈ verdictTexts g v r, '\n' ∉ s := by
  intro s hs
  rcases List.mem_append.mp hs with hs | hs
  · obtain ⟨b, -, rfl⟩ := List.mem_map.mp hs
    cases b
    · exact hno
    · exact hyes
  · obtain rfl := List.mem_singleton.mp hs
    rw [agreementMark]
    split <;> decide

end Verdict

/-- The text of a verdict with rows, cut at line feeds, ends with the line of the heads, the line below them, the rows, an empty
line and the summary. The first two have the same length. The rows have it as well if no glyph is longer than two characters,
and otherwise some row does not. -/
theorem lines_aligned_iff {c : Config} {g : Glyphs} (hg : c.texts? = some g) (hyes : '\n' ∉ g.yes.toList)
    (hno : '\n' ∉ g.no.toList)
    {steps : List String} {v : Verdict} (h : Verdict.ofSteps steps = .ok v) (hstatus : v.status = .ok) :
    ∃ text above head, plainVerdictOf c v = .ok text ∧
      splitAtChar '\n' text.toList =
        above ++ head :: plainRule (verdictWidths v) :: (v.rows.map (verdictRow g v) ++ [[], summary v]) ∧
      head = plainRow (verdictWidths v) (verdictHeadings v) ∧ head.length = (plainRule (verdictWidths v)).length ∧
      ((∀ r ∈ v.rows, (verdictRow g v r).length = head.length) ↔ g.yes.length ≤ 2 ∧ g.no.length ≤ 2) := by
  have hheads := inColumns_plainRow (fit_verdictHeadings v)
  have htext : plainVerdictOf c v = .ok (ofLines (verdictLines g v)) := by
    simp only [plainVerdictOf, hg]
    rw [plainVerdict, if_pos hstatus]
  obtain ⟨legend, hlines⟩ : ∃ legend, verdictLines g v = legend ++ plainRow (verdictWidths v) (verdictHeadings v) ::
      plainRule (verdictWidths v) :: (v.rows.map (verdictRow g v) ++ [[], summary v]) :=
    ⟨"Steps:".toList :: legend (labels 'S' v.steps.length) v.steps ++ [[]], by simp [verdictLines]⟩
  refine ⟨_, legend.flatMap (splitAtChar '\n'), _, htext, ?_, rfl, hheads.length_eq, ?_⟩
  · rw [ofLines, String.toList_ofList, splitAtChar_joinWith (by simp [verdictLines]), hlines, List.flatMap_append]
    refine congrArg _ (flatMap_splitAtChar ?_)
    simp only [List.forall_mem_cons, List.forall_mem_append, List.forall_mem_map]
    exact ⟨notMem_plainRow (by decide) (lineFeed_notMem_verdictHeadings h hstatus), notMem_plainRule (by decide) _,
      fun r _ => notMem_plainRow (by decide) (lineFeed_notMem_verdictTexts hyes hno r), by simp,
      lineFeed_notMem_summary v, by simp⟩
  · rw [← fit_verdictTexts_iff h hstatus, hheads.length_eq]
    exact forall₂_congr fun r hr => length_plainRow_eq_iff (length_verdictTexts h hstatus hr)

/-- With a glyph of one character and one of two, all lines of the table below two equal steps have the same length. -/
theorem lines_aligned_iff_two_characters : ∃ c v text above head,
    Config.ofFields [("false_glyph", .str "no")] = .ok c ∧ Verdict.ofSteps ["A", "A"] = .ok v ∧ plainVerdictOf c v = .ok text ∧
      splitAtChar '\n' text.toList =
        above ++ head :: plainRule (verdictWidths v) :: (v.rows.map (verdictRow ⟨"T", "no"⟩ v) ++ [[], summary v]) ∧
      head.length = (plainRule (verdictWidths v)).length ∧ ∀ r ∈ v.rows, (verdictRow ⟨"T", "no"⟩ v r).length = head.length := by
  have hv : Verdict.ofSteps ["A", "A"] = .ok {
      steps := ["A", "A"], letters := ['A'],
      rows := [⟨[('A', true)], [true, true]⟩, ⟨[('A', false)], [false, false]⟩] } := by decide
  obtain ⟨text, above, head, htext, hlines, -, hrule, hrows⟩ :=
    lines_aligned_iff (c := { falseGlyph := .str "no" }) (g := ⟨"T", "no"⟩) rfl (by decide) (by decide) hv rfl
  exact ⟨_, _, text, above, head, rfl, hv, htext, hlines, hrule, hrows.mpr (by decide)⟩

/-- With the glyphs `True` and `False`, the rows of the table below two equal steps are longer than the lines above them. -/
theorem not_aligned_long_glyphs : ∃ c v text above head row₁ row₂ below,
    Config.ofFields [("true_glyph", .str "True"), ("false_glyph", .str "False")] = .ok c ∧
      c.texts? = some ⟨"True", "False"⟩ ∧ '\n' ∉ "True".toList ∧ '\n' ∉ "False".toList ∧
      Verdict.ofSteps ["A", "A"] = .ok v ∧ v.status = .ok ∧ plainVerdictOf c v = .ok text ∧
      splitAtChar '\n' text.toList = above ++ head :: plainRule (verdictWidths v) :: row₁ :: row₂ :: below ∧
      head = " A | S1 | S2 | EQ".toList ∧ row₁ = "True | True | True |  ✓".toList ∧ row₂ = "False | False | False |  ✓".toList ∧
      (plainRule (verdictWidths v)).length = head.length ∧ head.length < row₁.length ∧ row₁.length < row₂.length := by
  have hv : Verdict.ofSteps ["A", "A"] = .ok {
      steps := ["A", "A"], letters := ['A'],
      rows := [⟨[('A', true)], [true, true]⟩, ⟨[('A', false)], [false, false]⟩] } := by decide
  refine ⟨{ trueGlyph := .str "True", falseGlyph := .str "False" }, _, ofLines (verdictLines ⟨"True", "False"⟩ _),
    ["Steps:".toList, "  S1: A".toList, "  S2: A".toList, []], _, _, _, [[], "✓ All steps are equivalent!".toList],
    rfl, rfl, by decide, by decide, hv, rfl, rfl, ?_, rfl, rfl, rfl, by decide, by decide, by decide⟩
  rw [ofLines, String.toList_ofList]
  decide

end Propositional.Report
