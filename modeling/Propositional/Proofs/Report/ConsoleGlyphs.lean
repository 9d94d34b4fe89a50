import Propositional.Proofs.Report.EscapedTags
import Propositional.Proofs.Report.VerdictMarks
import Propositional.Proofs.Table.Built

/-!
# Glyphs on the console

A cell of a table on the console is a glyph between two tags for its colour. Headings and steps are escaped before tags are put
around them, and glyphs are not. So the two tags are the only markup of each cell exactly if the glyphs hold no markup
themselves, and no backslashes at their ends that would make the closing tag text (`cells_enclosed_iff`).
-/

namespace Propositional.Report

open Text

/-- How many backslashes stand at the end of a text. -/
def trailingBackslashes (s : List Char) : Nat := s.foldl backslashesAfter 0

/-- A text that leaves two tags around it the only markup: no tag in it is markup, and no odd number of backslashes, which would
make the tag behind it text, stands at its end. -/
structure AddsNoMarkup (s : List Char) : Prop where
  tags : markupTags s = []
  ending : trailingBackslashes s % 2 = 0

/-- The markup of a text is a tag at its start and the tag that closes it at its end. -/
def IsEnclosed (opening s : List Char) : Prop :=
  (markupTags s).map (fun t => (t.place, t.text)) = [(0, opening), (s.length - 3, ['[', '/', ']'])]

/-- The closing tag is a tag. -/
theorem isTag_close : IsTag ['[', '/', ']'] := ⟨'/', [], rfl, by decide, nofun, nofun⟩

/-- The tags of a text between two tags. -/
theorem tags_enclosed {opening : List Char} (h : IsTag opening) (s : List Char) :
    tags (opening ++ (s ++ ['[', '/', ']'])) = ⟨0, 0, opening⟩ ::
      (tagsAt opening.length 0 s ++ [⟨opening.length + s.length, trailingBackslashes s, ['[', '/', ']']⟩]) := by
  have hclose : tagsAt (opening.length + s.length) (trailingBackslashes s) ['[', '/', ']'] = [⟨_, _, ['[', '/', ']']⟩] :=
    tagsAt_of_isTag isTag_close []
  rw [tags_eq, tagsAt_of_isTag h, tagsAt_append (closesNothing_bracket _), Nat.zero_add, ← trailingBackslashes]
  exact congrArg _ (congrArg _ hclose)

/-- A text stands alone between a tag and the closing one exactly if it adds no markup. Of two tags that are all there is, the
first is the opening one and the other the closing one, so no tag stands between. -/
theorem isEnclosed_iff {opening : List Char} (h : IsTag opening) (s : List Char) :
    IsEnclosed opening (opening ++ (s ++ ['[', '/', ']'])) ↔ AddsNoMarkup s := by
  have hnone : markupTags s = [] ↔ (tagsAt opening.length 0 s).filter Tag.isMarkup = [] := by
    rw [markupTags, tags_eq]
    exact filter_tagsAt_eq_nil_iff s 0 opening.length 0
  have hlength : (opening ++ (s ++ ['[', '/', ']'])).length - 3 = opening.length + s.length := by
    simp only [List.length_append, List.length_cons, List.length_nil]
    omega
  rw [IsEnclosed, markupTags, tags_enclosed h, List.filter_cons_of_pos rfl, List.filter_append, List.map_cons, hlength,
    List.cons_inj_right, List.map_append]
  by_cases hend : trailingBackslashes s % 2 = 0
  · rw [List.filter_cons_of_pos (by simpa [Tag.isMarkup] using hend)]
    constructor
    · intro heq
      have hmapped := List.append_left_eq_self.mp heq
      exact ⟨hnone.mpr (List.map_eq_nil_iff.mp hmapped), hend⟩
    · intro hnoMarkup
      rw [hnone.mp hnoMarkup.tags]
      rfl
  · rw [List.filter_cons_of_neg (by simpa [Tag.isMarkup] using hend)]
    refine iff_of_false (fun heq => ?_) fun hnoMarkup => hend hnoMarkup.ending
    rw [List.filter_nil, List.map_nil, List.append_nil] at heq
    obtain ⟨t, ht, hplace⟩ := List.mem_map.mp (heq ▸ List.mem_singleton_self (opening.length + s.length, ['[', '/', ']']))
    have hlt := (place_lt_of_mem_tagsAt (List.mem_filter.mp ht).1).2
    rw [(Prod.mk.inj hplace).1] at hlt
    exact Nat.lt_irrefl _ hlt

/-! ## Tables -/

/-- The tag for the colour of a truth value. -/
def colourTag (b : Bool) : List Char := if b then "[green]".toList else "[red]".toList

/-- The tags for colours are tags. -/
theorem isTag_colourTag (b : Bool) : IsTag (colourTag b) := by
  cases b
  · exact ⟨'r', "ed".toList, rfl, by decide, by decide, by decide⟩
  · exact ⟨'g', "reen".toList, rfl, by decide, by decide, by decide⟩

/-- A coloured text stands between two tags. -/
theorem toList_coloured (colour text : String) :
    (coloured colour text).toList = '[' :: colour.toList ++ ']' :: (text.toList ++ ['[', '/', ']']) := by
  simp [coloured, toString]

/-- A cell is its glyph between two tags. -/
theorem toList_tableCell (g : Glyphs) (b : Bool) :
    (tableCell g b).toList = colourTag b ++ ((g.ofBool b).toList ++ ['[', '/', ']']) := by
  rw [tableCell, toList_coloured]
  cases b <;> rfl

/-- A table has a column for each letter and each formula. -/
theorem length_tableColumns {t : TruthTable} (ht : t.IsFull) : (tableColumns t).length = t.columnCount := by
  simp [tableColumns, labels, TruthTable.columnCount, ht.headers]

/-- A column of a table has a cell for each row, that of a truth value. -/
theorem exists_of_mem_cells {g : Glyphs} {t : TruthTable} (ht : t.IsFull) {column : Column}
    (hcolumn : column ∈ (tableGrid g t).columns) :
    ∀ cell ∈ column.cells, ∃ b, cell = tableCell g b := by
  obtain ⟨⟨c, i⟩, hc, rfl⟩ := List.mem_map.mp hcolumn
  have hi : i < t.columnCount := length_tableColumns ht ▸ (List.mem_zipIdx' hc).1
  simp only [List.forall_mem_map]
  intro r hr
  have hcell : i < (r.cells t.letters).length := (ht.length_cells hr).symm ▸ hi
  exact ⟨(r.cells t.letters)[i], by rw [List.getElem?_map, List.getElem?_eq_getElem hcell]; rfl⟩

/-- Each truth value has a cell in the column of the first letter. -/
theorem exists_cell {t : TruthTable} (ht : t.IsFull) (g : Glyphs) (b : Bool) :
    ∃ column ∈ (tableGrid g t).columns, tableCell g b ∈ column.cells := by
  obtain ⟨x, xs, hxs⟩ := List.exists_cons_of_ne_nil ht.letters
  have hvaluation : Valuation.assign t.letters (fun _ => b) ∈ t.rows.map Row.assignment := by
    rw [ht.assignments, Valuation.mem_valuations ht.nodup, Valuation.keys_assign]
  obtain ⟨r, hr, hassign⟩ := List.mem_map.mp hvaluation
  have hvalue : r.assignment.value x = b := by
    rw [Valuation.value, hassign, Valuation.lookup_assign (by simp [hxs]), Option.getD_some]
  refine ⟨_, List.mem_map_of_mem (List.mk_mem_zipIdx_iff_getElem?.mpr (?_ : (tableColumns t)[0]? = some (letterColumn x))), ?_⟩
  · rw [tableColumns, hxs]
    rfl
  · refine List.mem_map.mpr ⟨_, List.mem_map_of_mem hr, ?_⟩
    rw [Row.cells, hxs, List.map_cons, hvalue]
    rfl

/-! ## Headings and steps -/

/-- Without backslashes none stand at the end. -/
theorem foldl_backslashesAfter_of_notMem {s : List Char} (h : '\\' ∉ s) : s.foldl backslashesAfter 0 = 0 := by
  induction s with
  | nil => rfl
  | cons c s ih =>
    obtain ⟨hc, hs⟩ := not_or.mp (List.mem_cons.not.mp h)
    rw [List.foldl_cons, backslashesAfter_of_ne (Ne.symm hc), ih hs]

/-- Text without brackets and backslashes before an escaped text adds no markup to it. -/
theorem filter_tagsAt_escapeMarkup {p : List Char} (hopen : '[' ∉ p) (hslash : '\\' ∉ p) (place : Nat) (s : List Char) :
    (tagsAt place 0 (p ++ escapeMarkup s)).filter Tag.isMarkup = [] := by
  have hnone := markupTags_escapeMarkup s
  rw [markupTags, tags_eq] at hnone
  rw [tagsAt_of_notMem hopen, foldl_backslashesAfter_of_notMem hslash]
  exact (filter_tagsAt_eq_nil_iff _ _ 0 0).mpr hnone

/-- A label has no character but its initial and digits. -/
theorem notMem_of_mem_labels {initial x : Char} {n : Nat} {label : List Char} (hlabel : label ∈ labels initial n)
    (hinitial : x ≠ initial) (hdigit : x.isDigit = false) : x ∉ label := by
  obtain ⟨i, -, rfl⟩ := List.mem_map.mp hlabel
  exact List.not_mem_cons_of_ne_of_not_mem hinitial (notMem_decimal hdigit _)

/-- The headings of a table hold no markup. -/
theorem markupTags_header {t : TruthTable} (hletters : ∀ x ∈ t.letters, x.isUpper) (g : Glyphs) :
    ∀ column ∈ (tableGrid g t).columns, markupTags column.header.toList = [] := by
  intro column hcolumn
  have hheader : column.header ∈ (tableColumns t).map Column.header := by
    rw [← map_header_fillColumns]
    exact List.mem_map_of_mem hcolumn
  obtain ⟨c, hc, hheader⟩ := List.mem_map.mp hheader
  rw [← hheader, markupTags, tags_eq]
  rcases List.mem_append.mp hc with hc | hc
  · obtain ⟨x, hx, rfl⟩ := List.mem_map.mp hc
    have hne := ne_of_holds (hletters x hx) (by decide : '['.isUpper = false)
    have hnotMem : '[' ∉ [x] := fun h => hne (List.mem_singleton.mp h).symm
    have htags : tagsAt 0 0 [x] = [] := tagsAt_of_notMem hnotMem []
    rw [letterColumn, String.toList_ofList, htags]
    rfl
  · obtain ⟨label, hlabel, header, -, rfl⟩ := exists_of_mem_zipWith hc
    have hopen : '[' ∉ label ++ [':', ' '] := by
      simpa using notMem_of_mem_labels hlabel (by decide) (by decide)
    have hslash : '\\' ∉ label ++ [':', ' '] := by
      simpa using notMem_of_mem_labels hlabel (by decide) (by decide)
    have htext : s!"{String.ofList label}: {escaped header}".toList = (label ++ [':', ' ']) ++ escapeMarkup header.toList := by
      simp [escaped, toString]
    rw [htext]
    exact filter_tagsAt_escapeMarkup hopen hslash 0 _

/-- A print of a step: its escaped text behind a label, which stands between the only two tags that are markup. -/
structure IsStepText (step s : String) : Prop where
  text : ∃ label, s.toList =
    [' ', ' '] ++ ("[yellow]".toList ++ (label ++ (['[', '/', ']'] ++ ([':', ' '] ++ escapeMarkup step.toList))))
  tags : (markupTags s.toList).map Tag.text = ["[yellow]".toList, ['[', '/', ']']]

/-- A step is printed behind its label. -/
theorem isStepText_of_label {label : List Char} {n : Nat} (hlabel : label ∈ labels 'S' n) (step : String) :
    IsStepText step s!"  [yellow]{String.ofList label}[/]: {escaped step}" := by
  have htext : s!"  [yellow]{String.ofList label}[/]: {escaped step}".toList =
      [' ', ' '] ++ ("[yellow]".toList ++ (label ++ (['[', '/', ']'] ++ ([':', ' '] ++ escapeMarkup step.toList)))) := by
    simp [escaped, toString]
  have hyellow : IsTag "[yellow]".toList := ⟨'y', "ellow".toList, rfl, by decide, by decide, by decide⟩
  have hopen : '[' ∉ label := notMem_of_mem_labels hlabel (by decide) (by decide)
  have hslash : '\\' ∉ label := notMem_of_mem_labels hlabel (by decide) (by decide)
  refine ⟨⟨label, htext⟩, ?_⟩
  rw [htext, markupTags, tags_eq, tagsAt_of_notMem (by decide), tagsAt_of_isTag hyellow, tagsAt_of_notMem hopen,
    foldl_backslashesAfter_of_notMem hslash, tagsAt_of_isTag isTag_close, List.filter_cons_of_pos rfl,
    List.filter_cons_of_pos rfl,
    filter_tagsAt_escapeMarkup (by decide) (by decide)]
  rfl

/-- The prints of a verdict with rows start with its steps. -/
theorem exists_stepTexts {v : Verdict} (hstatus : v.status = .ok) (g : Glyphs) :
    ∃ texts after, consoleVerdict g v = .text "\n[bold]Steps:[/]" :: texts.map .unhighlighted ++ after ∧
      List.Forall₂ IsStepText v.steps texts := by
  rw [consoleVerdict, if_pos hstatus]
  have htexts : List.zipWith (fun label step => Print.unhighlighted s!"  [yellow]{String.ofList label}[/]: {escaped step}")
      (labels 'S' v.steps.length) v.steps =
        (List.zipWith (fun label step => s!"  [yellow]{String.ofList label}[/]: {escaped step}")
          (labels 'S' v.steps.length) v.steps).map
          .unhighlighted := by
    rw [List.map_zipWith]
  rw [htexts]
  refine ⟨_, _, rfl, List.forall₂_iff_get.mpr ⟨by simp [labels], fun i hi hi' => ?_⟩⟩
  rw [List.get_eq_getElem, List.get_eq_getElem, List.getElem_zipWith]
  exact isStepText_of_label (List.getElem_mem _) _

/-! ## Glyphs -/

/-- A cell is enclosed exactly if its glyph adds no markup. -/
theorem isEnclosed_tableCell_iff (g : Glyphs) (b : Bool) :
    IsEnclosed (colourTag b) (tableCell g b).toList ↔ AddsNoMarkup (g.ofBool b).toList := by
  rw [toList_tableCell]
  exact isEnclosed_iff (isTag_colourTag b) _

/-- The colour of a cell tells its truth value. -/
theorem eq_of_tableCell_eq {g : Glyphs} {b b' : Bool} (h : tableCell g b = tableCell g b') : b = b' := by
  have hchar := congrArg (fun s : String => s.toList[1]?) h
  simp only [toList_tableCell] at hchar
  cases b <;> cases b'
  · rfl
  · cases hchar
  · cases hchar
  · rfl

/-- On the console the headings of a table hold no markup, and each step of a verdict none but the tags around its label. A cell
holds none but the tags around its glyph exactly if the glyph adds none, and so all cells hold none but these exactly if neither
glyph does. -/
theorem cells_enclosed_iff {c : Config} {t : TruthTable} (ht : t.IsBuilt) (hstatus : t.status = .ok) :
    (∀ (v : Verdict) (prints : List Print), v.status = .ok → consoleVerdictOf c v = .ok prints →
      ∃ texts after, prints = .text "\n[bold]Steps:[/]" :: texts.map .unhighlighted ++ after ∧
        List.Forall₂ IsStepText v.steps texts) ∧
    ∃ grid, consoleTableOf c t = [.grid grid] ∧
      (∀ column ∈ grid.columns, markupTags column.header.toList = []) ∧
      (∀ column ∈ grid.columns, ∀ cell ∈ column.cells, ∃ b, cell = tableCell c.displayed b ∧
        (IsEnclosed (colourTag b) cell.toList ↔ AddsNoMarkup (c.displayed.ofBool b).toList)) ∧
      ((∀ column ∈ grid.columns, ∀ cell ∈ column.cells, ∃ b, cell = tableCell c.displayed b ∧
        IsEnclosed (colourTag b) cell.toList) ↔
        AddsNoMarkup c.displayed.yes.toList ∧ AddsNoMarkup c.displayed.no.toList) := by
  have hfull := ht.isFull hstatus
  have hcells : ∀ column ∈ (tableGrid c.displayed t).columns, ∀ cell ∈ column.cells, ∃ b, cell = tableCell c.displayed b ∧
      (IsEnclosed (colourTag b) cell.toList ↔ AddsNoMarkup (c.displayed.ofBool b).toList) := by
    intro column hcolumn cell hcell
    obtain ⟨b, rfl⟩ := exists_of_mem_cells hfull hcolumn cell hcell
    exact ⟨b, rfl, isEnclosed_tableCell_iff _ b⟩
  refine ⟨fun v prints hv hprints => ?_, tableGrid c.displayed t, ?_, markupTags_header (ht.isUpper hstatus) _, hcells, ?_⟩
  · unfold consoleVerdictOf at hprints
    split at hprints
    · obtain rfl := Except.ok.inj hprints
      exact exists_stepTexts hv _
    · rw [if_pos hv] at hprints
      cases hprints
  · rw [consoleTableOf, consoleTable, if_neg (by simp [TruthTable.isEmpty, hstatus])]
  · constructor
    · intro hall
      have hnoMarkup : ∀ b, AddsNoMarkup (c.displayed.ofBool b).toList := by
        intro b
        obtain ⟨column, hcolumn, hcell⟩ := exists_cell hfull c.displayed b
        obtain ⟨b', heq, henclosed⟩ := hall column hcolumn _ hcell
        obtain rfl := eq_of_tableCell_eq heq
        exact (isEnclosed_tableCell_iff _ b).mp henclosed
      exact ⟨hnoMarkup true, hnoMarkup false⟩
    · rintro ⟨hyes, hno⟩ column hcolumn cell hcell
      obtain ⟨b, heq, hiff⟩ := hcells column hcolumn cell hcell
      refine ⟨b, heq, hiff.mpr ?_⟩
      cases b
      · exact hno
      · exact hyes

/-- Numbers between brackets are no tags, so each cell of the table of `A` is shown with its brackets. -/
theorem cells_enclosed_iff_bracketed_numbers : ∃ t c grid, TruthTable.ofFormulas ["A"] = .ok t ∧ t.status = .ok ∧
    Config.ofFields [("true_glyph", .str "[1]"), ("false_glyph", .str "[0]")] = .ok c ∧ consoleTableOf c t = [.grid grid] ∧
    ∀ column ∈ grid.columns, ∀ cell ∈ column.cells, ∃ b, cell = tableCell c.displayed b ∧
      IsEnclosed (colourTag b) cell.toList := by
  have htable : TruthTable.ofFormulas ["A"] = .ok {
      letters := ['A'], formulas := ["A"], headers := ["A"],
      rows := [⟨[('A', true)], [true]⟩, ⟨[('A', false)], [false]⟩] } := by decide
  have hconfig : Config.ofFields [("true_glyph", .str "[1]"), ("false_glyph", .str "[0]")] =
      .ok { trueGlyph := .str "[1]", falseGlyph := .str "[0]" } := rfl
  obtain ⟨-, grid, hgrid, -, -, hiff⟩ :=
    cells_enclosed_iff (c := { trueGlyph := .str "[1]", falseGlyph := .str "[0]" }) (.native htable) rfl
  exact ⟨_, _, grid, htable, rfl, hconfig, hgrid, hiff.mpr ⟨⟨by decide, by decide⟩, ⟨by decide, by decide⟩⟩⟩

/-- A glyph that looks like a tag is markup: the cells of a true `A` have three tags. -/
theorem not_enclosed_tag_glyph : ∃ t c grid, TruthTable.ofFormulas ["A"] = .ok t ∧ t.IsBuilt ∧ t.status = .ok ∧
    Config.ofFields [("true_glyph", .str "[b]")] = .ok c ∧ consoleTableOf c t = [.grid grid] ∧
    ∃ column ∈ grid.columns, ∃ cell ∈ column.cells, cell = "[green][b][/]" ∧
      (markupTags cell.toList).map Tag.text = ["[green]".toList, "[b]".toList, "[/]".toList] ∧
      ∀ b, ¬IsEnclosed (colourTag b) cell.toList := by
  have htable : TruthTable.ofFormulas ["A"] = .ok {
      letters := ['A'], formulas := ["A"], headers := ["A"],
      rows := [⟨[('A', true)], [true]⟩, ⟨[('A', false)], [false]⟩] } := by decide
  refine ⟨_, { trueGlyph := .str "[b]" }, _, htable, .native htable, rfl, rfl, rfl, _, List.mem_cons_self,
    "[green][b][/]", ?_, rfl, ?_, ?_⟩
  · decide
  · decide
  · intro b h
    have hlength : (markupTags "[green][b][/]".toList).length = 2 := by simpa using congrArg List.length h
    exact absurd hlength (by decide)

end Propositional.Report
