import Propositional.Proofs.Report.Columns
import Propositional.Proofs.Table.Built
import Propositional.Report.Styled

/-!
# Truth tables as plain text

The columns of a table are as wide as their headings and both glyphs need, so every line below the legend is set into the same
columns and has the same length. The cells of a row are found in its line again, glyphs that differ only in spaces before them
apart (`plainTable_of_isBuilt`).
-/

namespace Propositional.Report

open Text

/-! ## Labels -/

/-- Numbers with one writing are the same. -/
theorem decimal_injective : Function.Injective decimal := fun m n h => by
  have hread : Nat.ofDigitChars 10 (decimal m) 0 = Nat.ofDigitChars 10 (decimal n) 0 := by rw [h]
  rwa [decimal, decimal, Nat.ofDigitChars_ten_toDigits, Nat.ofDigitChars_ten_toDigits] at hread

/-- There are as many labels as asked for. -/
theorem length_labels (initial : Char) (count : Nat) : (labels initial count).length = count := by
  rw [labels, List.length_map, List.length_range]

/-- The labels are distinct. -/
theorem nodup_labels (initial : Char) (count : Nat) : (labels initial count).Nodup := by
  refine List.nodup_range.map fun i j h => ?_
  exact Nat.succ.inj (decimal_injective (List.cons.inj h).2)

/-- A label has at least one digit. -/
theorem length_of_mem_labels {initial : Char} {count : Nat} {l : List Char} (h : l ∈ labels initial count) : 1 < l.length := by
  obtain ⟨i, -, rfl⟩ := List.mem_map.mp h
  rw [List.length_cons]
  exact Nat.succ_lt_succ Nat.length_toDigits_pos

/-- There is a heading for each column. -/
theorem length_tableHeadings (t : TruthTable) : (tableHeadings t).length = t.columnCount := by
  rw [tableHeadings, List.length_append, List.length_map, length_labels, TruthTable.columnCount]

/-- Letters and labels are different headings. -/
theorem nodup_tableHeadings {t : TruthTable} (h : t.letters.Nodup) : (tableHeadings t).Nodup := by
  refine List.nodup_append.mpr ⟨h.map fun x y hxy => (List.cons.inj hxy).1, nodup_labels _ _, ?_⟩
  rintro l hl l' hl' rfl
  obtain ⟨x, -, rfl⟩ := List.mem_map.mp hl
  exact absurd (length_of_mem_labels hl') (by simp)

/-! ## Columns -/

section Table

variable {g : Glyphs} {t : TruthTable}

/-- The headings fit into the columns. -/
theorem fit_tableHeadings (g : Glyphs) (t : TruthTable) : Fit (tableWidths g t) (tableHeadings t) := by
  rw [Fit, tableWidths, List.forall₂_map_left_iff, List.forall₂_same]
  exact fun h _ => Nat.le_max_left _ _

/-- The glyphs of values fit into the columns. -/
theorem fit_glyphs (g : Glyphs) {bs : List Bool} (h : bs.length = t.columnCount) :
    Fit (tableWidths g t) (bs.map fun b => (g.ofBool b).toList) := by
  refine forall₂_of_forall_mem ?_ ?_
  · rw [tableWidths, List.length_map, List.length_map, length_tableHeadings, h]
  · intro w hw s hs
    obtain ⟨heading, -, rfl⟩ := List.mem_map.mp hw
    obtain ⟨b, -, rfl⟩ := List.mem_map.mp hs
    rw [String.length_toList]
    cases b
    · exact Nat.le_trans (Nat.le_max_right _ _) (Nat.le_max_right _ _)
    · exact Nat.le_trans (Nat.le_max_left _ _) (Nat.le_max_right _ _)

/-- A row has its glyphs in the columns. -/
theorem inColumns_tableRow (ht : t.IsFull) {r : Row} (hr : r ∈ t.rows) :
    InColumns (tableWidths g t) ((r.cells t.letters).map fun b => (g.ofBool b).toList) (tableRow g t r) :=
  inColumns_plainRow (fit_glyphs g (ht.length_cells hr))

/-- The entry of a legend for each text is under its label. -/
theorem getElem?_legend {ls : List (List Char)} {texts : List String} {j : Nat} {text : String} {l : List Char}
    (hl : ls[j]? = some l) (htext : texts[j]? = some text) :
    (legend ls texts)[j]? = some (' ' :: ' ' :: (l ++ ':' :: ' ' :: text.toList)) := by
  rw [legend, List.getElem?_zipWith, hl, htext]

/-! ## Reading back -/

/-- Lists with the same images under a function have the same under every function that tells no more apart. -/
theorem map_eq_of_map_eq {α β γ : Type} {f : α → β} {k : α → γ} {xs : List α} :
    ∀ {ys : List α}, (∀ x ∈ xs, ∀ y ∈ ys, f x = f y → k x = k y) → xs.map f = ys.map f → xs.map k = ys.map k := by
  induction xs with
  | nil =>
    intro ys _ h
    obtain rfl := List.map_eq_nil_iff.mp h.symm
    rfl
  | cons x xs ih =>
    intro ys hk h
    obtain ⟨y, ys, rfl, hy, hys⟩ := List.map_eq_cons_iff.mp h.symm
    rw [List.map_cons, List.map_cons, hk x (by simp) y (by simp) hy.symm,
      ih (fun x' hx' y' hy' => hk x' (by simp [hx']) y' (by simp [hy'])) hys.symm]

/-- Glyphs that differ without the spaces before them show the truth values. -/
theorem eq_of_dropWhile_glyphs (hg : g.yes.toList.dropWhile (· = ' ') ≠ g.no.toList.dropWhile (· = ' ')) {b b' : Bool}
    (h : (g.ofBool b).toList.dropWhile (· = ' ') = (g.ofBool b').toList.dropWhile (· = ' ')) : b = b' := by
  cases b <;> cases b'
  · rfl
  · exact absurd h.symm hg
  · exact absurd h hg
  · rfl

/-- The lines of a table above its rows. -/
def linesAbove (g : Glyphs) (t : TruthTable) : List (List Char) :=
  "Expressions:".toList :: legend (labels 'E' t.formulas.length) t.headers ++
    [[], plainRow (tableWidths g t) (tableHeadings t), plainRule (tableWidths g t)]

/-- The lines of a table are those above its rows and the rows. -/
theorem tableLines_eq (g : Glyphs) (t : TruthTable) : tableLines g t = linesAbove g t ++ t.rows.map (tableRow g t) := by
  simp [tableLines, linesAbove]

/-- The lines of the rows are as long as the rule. -/
theorem map_length_tableRow (ht : t.IsFull) :
    (t.rows.map (tableRow g t)).map List.length = List.replicate (2 ^ t.letters.length) (plainRule (tableWidths g t)).length := by
  rw [← ht.length_rows, ← List.map_const, List.map_map]
  exact List.map_congr_left fun r hr => (inColumns_tableRow ht hr).length_eq

/-- Full tables with the same letters, formulas and headings have the same text only if they have the same rows. -/
theorem rows_eq_of_ofLines (hg : g.yes.toList.dropWhile (· = ' ') ≠ g.no.toList.dropWhile (· = ' ')) (ht : t.IsFull)
    {u : TruthTable} (hu : u.IsFull) (hletters : u.letters = t.letters) (hformulas : u.formulas = t.formulas)
    (hheaders : u.headers = t.headers) (h : ofLines (tableLines g u) = ofLines (tableLines g t)) : u.rows = t.rows := by
  have hwidths : tableWidths g u = tableWidths g t := by simp only [tableWidths, tableHeadings, hletters, hformulas]
  have habove : linesAbove g u = linesAbove g t := by
    simp only [linesAbove, hwidths, tableHeadings, hletters, hformulas, hheaders]
  have hlines : tableLines g u = tableLines g t := by
    refine joinWith_inj ?_ (by simpa only [ofLines, String.toList_ofList] using congrArg String.toList h)
    rw [tableLines_eq, tableLines_eq, List.map_append, List.map_append, map_length_tableRow hu, map_length_tableRow ht, habove,
      hwidths, hletters]
  rw [tableLines_eq, tableLines_eq, habove, List.append_cancel_left_eq] at hlines
  have hrow : tableRow g u = tableRow g t := by
    funext r
    rw [tableRow, tableRow, hwidths, hletters]
  rw [hrow] at hlines
  refine ht.rows_eq hu hletters (map_eq_of_map_eq (fun r hr s hs he => ?_) hlines)
  have hr := inColumns_tableRow (g := g) hu hr
  rw [hwidths, hletters, hrow, he] at hr
  have hcells := hr.forall₂_dropWhile (inColumns_tableRow ht hs)
  rw [List.forall₂_map_left_iff, List.forall₂_map_right_iff] at hcells
  exact List.forall₂_eq_eq_eq ▸ hcells.imp fun b b' => eq_of_dropWhile_glyphs hg

/-- How the text of a table is laid out. The line of the heads and those of the rows have the length of the line between them,
and a cell of the same width for each column of the table, with the heading or the glyph in it. The legend has an entry for each
formula, in the order of the columns, under the label that heads the column and nothing else. -/
structure IsLaidOut (g : Glyphs) (t : TruthTable) (widths : List Nat) (entries : List (List Char)) (head : List Char)
    (body : List (List Char)) : Prop where
  columns : widths.length = t.columnCount
  heads : InColumns widths (tableHeadings t) head
  cells : List.Forall₂ (fun r line => InColumns widths ((r.cells t.letters).map fun b => (g.ofBool b).toList) line) t.rows body
  lengths : ∀ line ∈ head :: body, line.length = (plainRule widths).length
  distinct : (tableHeadings t).Nodup
  count : entries.length = t.formulas.length
  legend : ∀ j header, t.headers[j]? = some header → ∃ label, (tableHeadings t)[t.letters.length + j]? = some label ∧
    entries[j]? = some (' ' :: ' ' :: (label ++ ':' :: ' ' :: header.toList))

/-- The lines of a table are laid out as its text is. -/
theorem isLaidOut_tableLines (g : Glyphs) (ht : t.IsFull) : IsLaidOut g t (tableWidths g t)
    (legend (labels 'E' t.formulas.length) t.headers) (plainRow (tableWidths g t) (tableHeadings t))
      (t.rows.map (tableRow g t)) where
  columns := by rw [tableWidths, List.length_map, length_tableHeadings]
  heads := inColumns_plainRow (fit_tableHeadings g t)
  cells := by
    rw [List.forall₂_map_right_iff, List.forall₂_same]
    exact fun r => inColumns_tableRow ht
  lengths := by
    refine List.forall_mem_cons.mpr ⟨(inColumns_plainRow (fit_tableHeadings g t)).length_eq,
      List.forall_mem_map.mpr fun r hr => ?_⟩
    exact (inColumns_tableRow ht hr).length_eq
  distinct := nodup_tableHeadings ht.nodup
  count := by rw [legend, List.length_zipWith, length_labels, ht.headers, Nat.min_self]
  legend := by
    intro j header hj
    have hlt : j < (labels 'E' t.formulas.length).length := by
      rw [length_labels, ← ht.headers]
      exact (List.getElem?_eq_some_iff.mp hj).1
    have hlabel := List.getElem?_eq_getElem hlt
    refine ⟨_, ?_, getElem?_legend hlabel hj⟩
    rw [tableHeadings, List.getElem?_append_right (by rw [List.length_map]; omega), List.length_map, Nat.add_sub_cancel_left,
      hlabel]

end Table

/-- A table with rows that is made for formulas is full, and its text is laid out in columns. A text shows all results: full
tables with the same letters, formulas and headings have different texts unless their rows are the same, if the glyphs differ in
more than spaces before them. -/
theorem plainTable_of_isBuilt {c : Config} {g : Glyphs} (hg : c.texts? = some g) {t : TruthTable} (ht : t.IsBuilt)
    (hstatus : t.status = .ok) :
    t.IsFull ∧
    (∃ widths entries head body, IsLaidOut g t widths entries head body ∧
      plainTableOf c t = .ok (ofLines ("Expressions:".toList :: entries ++ [] :: head :: plainRule widths :: body))) ∧
    (g.yes.toList.dropWhile (· = ' ') ≠ g.no.toList.dropWhile (· = ' ') → ∀ u : TruthTable, u.IsFull → u.letters = t.letters →
      u.formulas = t.formulas → u.headers = t.headers → plainTableOf c u = plainTableOf c t → u.rows = t.rows) := by
  have ht := ht.isFull hstatus
  have htext : ∀ {u : TruthTable}, u.IsFull → plainTableOf c u = .ok (ofLines (tableLines g u)) := by
    intro u hu
    simp only [plainTableOf, hg]
    rw [plainTable, if_neg (by simp [TruthTable.isEmpty, hu.status])]
  refine ⟨ht, ⟨_, _, _, _, isLaidOut_tableLines g ht, htext ht⟩, fun hglyphs u hu hletters hformulas hheaders h => ?_⟩
  rw [htext hu, htext ht] at h
  exact rows_eq_of_ofLines hglyphs ht hu hletters hformulas hheaders (Except.ok.inj h)

/-- The table of `\\lnot A`, with glyphs of different lengths of which one is a bar, has another text than it would have with its
results swapped. -/
theorem plainTable_of_isBuilt_bar : ∃ c : Config, c.texts? = some ⟨"yes", "|"⟩ ∧
    ∃ t u, (TruthTable.ofLatex true ["A", "\\lnot A"]).result = .ok t ∧ t.status = .ok ∧ t.IsFull ∧
      (∃ widths entries head body, IsLaidOut ⟨"yes", "|"⟩ t widths entries head body ∧
        plainTableOf c t = .ok (ofLines ("Expressions:".toList :: entries ++ [] :: head :: plainRule widths :: body))) ∧
      u.IsFull ∧ u.rows ≠ t.rows ∧ plainTableOf c u ≠ plainTableOf c t := by
  have hg : Config.texts? { trueGlyph := .str "yes", falseGlyph := .str "|" } = some ⟨"yes", "|"⟩ := rfl
  have htable : (TruthTable.ofLatex true ["A", "\\lnot A"]).result = .ok
      { letters := ['A'], formulas := ["!A"], headers := ["\\lnot A"],
        rows := [⟨[('A', true)], [false]⟩, ⟨[('A', false)], [true]⟩] } := by decide
  obtain ⟨hfull, hlaid, hrows⟩ := plainTable_of_isBuilt hg (.latex htable) rfl
  have hu : TruthTable.IsFull
      { letters := ['A'], formulas := ["!A"], headers := ["\\lnot A"],
        rows := [⟨[('A', true)], [true]⟩, ⟨[('A', false)], [false]⟩] } := ⟨rfl, by simp, by simp, rfl, rfl, by simp⟩
  refine ⟨_, hg, _, _, htable, rfl, hfull, hlaid, hu, by simp, fun h => ?_⟩
  exact absurd (hrows (by decide) _ hu rfl rfl rfl h) (by simp)

end Propositional.Report
