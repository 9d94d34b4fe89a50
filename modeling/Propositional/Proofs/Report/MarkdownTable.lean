import Propositional.Proofs.Latex.Broken
import Propositional.Proofs.Report.Columns
import Propositional.Proofs.Table.Built
import Propositional.Report.Markdown

/-!
# Truth tables as markdown

Formulas stand in the headings as they were given, with a backslash more before each bar. No formula that has a value has a
backslash directly before a bar (`barsBare_of_mem_headers`), so these bars do not cut the line, and each line has a cell for
each column (`markdownTable_of_isBuilt`).
-/

namespace Propositional.Report

open Text

/-! ## Headings -/

/-- A formula that is read has no backslash, and so none before a bar. -/
theorem barsBare_of_reads {s : String} {f : Formula Char} (h : Formula.Reads s f) : BarsBare s.toList :=
  .of_notMem fun hslash => absurd (h.isAllowed_or_isUpper _ hslash) (by decide)

/-- The headings of a table with rows have no backslash before a bar, whether they are in native notation or in LaTeX. A heading
is a text that was given, without the blanks at its ends, and that text has a well formed normal form. -/
theorem barsBare_of_mem_headers {t : TruthTable} (ht : t.IsBuilt) (hstatus : t.status = .ok) :
    ∀ s ∈ t.headers, BarsBare s.toList := by
  intro s hs
  cases ht with
  | @native formulas _ h =>
    obtain ⟨rows, hrows, rfl⟩ := (truthTable_eq_ok_iff (TruthTable.lettersOfAll_ne_nil_of_ofFormulas h hstatus)).mp h
    obtain ⟨f, hf⟩ := wellFormed_iff.mp (exists_rowsOf_iff.mp ⟨rows, hrows⟩ s hs)
    exact barsBare_of_reads hf
  | latex h =>
    obtain ⟨formulas, hnormal, htrim, hof⟩ := exists_normal_of_ofLatex h hstatus
    obtain ⟨-, hletters, hrows, kept, hkeeps⟩ := keeps_ofNormalized htrim hnormal.length_eq hof hstatus
    obtain ⟨pinned, others, hcolumns, hordered⟩ := isOrdered_columnLetters htrim
    have hwell := wellFormed_of_rowsOf hkeeps (by rw [hletters, hcolumns]; exact hordered.perm_lettersOfAll) hrows
    obtain ⟨i, -, hi⟩ := exists_mem_of_forall₂ hkeeps.headers.flip hs
    obtain ⟨source, hsource, rfl⟩ := Option.map_eq_some_iff.mp hi
    obtain ⟨f, hf, hnormalize⟩ := exists_mem_of_forall₂ hnormal (List.mem_of_getElem? hsource)
    cases hn : Latex.normalize _ source with
    | error e =>
      rw [hn] at hnormalize
      cases hnormalize
    | ok n =>
      rw [hn] at hnormalize
      obtain rfl := Except.ok.inj hnormalize
      rw [String.toList_ofList]
      exact BarsBare.trim_iff.mpr (Latex.barsBare_of_wellFormed hn (hwell _ hf))

/-- One more backslash before each bar is enough where none stands there. Behind backslashes the rest starts with no bar, so each
bar comes behind none, and then behind the one that is put there. -/
theorem barsEscaped_escapeCell {s : List Char} (h : BarsBare s) :
    ∀ {n : Nat}, (n ≠ 0 → s.head? ≠ some '|') → BarsEscaped n (escapeCell s) := by
  induction s with
  | nil => exact fun _ => trivial
  | cons c s ih =>
    intro n hn
    obtain ⟨hhead, hrest⟩ := List.isChain_cons.mp h
    rw [escapeCell, List.flatMap_cons]
    by_cases hbar : c = '|'
    · subst hbar
      obtain rfl : n = 0 := not_not.mp fun hne => hn hne rfl
      exact ⟨by decide, fun _ => rfl, ih hrest fun hne => absurd (backslashesAfter_of_ne (by decide) _) hne⟩
    · rw [if_neg hbar]
      by_cases hfeed : c = '\n'
      · rw [if_pos hfeed]
        exact ⟨fun h => absurd h (by decide), ih hrest fun hne => absurd (backslashesAfter_of_ne (by decide) _) hne⟩
      · rw [if_neg hfeed]
        refine ⟨fun h => absurd h hbar, ih hrest fun hne hs => ?_⟩
        by_cases hslash : c = '\\'
        · exact hhead '|' hs hslash rfl
        · exact hne (backslashesAfter_of_ne hslash n)

/-- An escaped cell has no line feed. -/
theorem lineFeed_notMem_escapeCell (s : List Char) : '\n' ∉ escapeCell s := by
  intro h
  obtain ⟨c, -, hc⟩ := List.mem_flatMap.mp h
  split at hc
  · simp at hc
  · split at hc
    · simp at hc
    · rename_i hne
      exact hne (List.mem_singleton.mp hc).symm

/-! ## Cells -/

/-- A text with spaces behind it is as long as the width, or longer if it was. -/
theorem length_padRight (w : Nat) (s : List Char) : (padRight w s).length = max w s.length := by
  rw [padRight, List.length_append, List.length_replicate]
  omega

/-- What can be a cell of a line: its bars are escaped, and it holds no line feed. -/
def IsCell (s : List Char) : Prop := BarsEscaped 0 s ∧ '\n' ∉ s

/-- A cell is one between dollar signs and with spaces behind it. -/
theorem isCell_padRight_math {s : List Char} (h : IsCell s) (w : Nat) : IsCell (padRight w (math s)) := by
  have hend : ∀ c ∈ '$' :: List.replicate (w - (math s).length) ' ', c = '$' ∨ c = ' ' := by
    intro c hc
    rcases List.mem_cons.mp hc with rfl | hc
    · exact .inl rfl
    · exact .inr (List.eq_of_mem_replicate hc)
  have hassoc : padRight w (math s) = '$' :: (s ++ '$' :: List.replicate (w - (math s).length) ' ') := by simp [padRight, math]
  rw [hassoc]
  constructor
  · exact ⟨by decide, barsEscaped_append.mpr ⟨h.1, barsEscaped_of_notMem fun hc => absurd (hend _ hc) (by decide)⟩⟩
  · rw [List.mem_cons, List.mem_append, not_or, not_or]
    exact ⟨by decide, h.2, fun hc => absurd (hend _ hc) (by decide)⟩

/-- The symbols of truth values can be cells. -/
theorem isCell_mathSymbol (b : Bool) : IsCell (mathSymbol b) := by
  have hchars : ∀ b, '|' ∉ mathSymbol b ∧ '\n' ∉ mathSymbol b := by decide
  exact ⟨barsEscaped_of_notMem (hchars b).1, (hchars b).2⟩

/-- The truth value whose symbol a cell shows, between whatever blanks. -/
def readCell? (cell : List Char) : Option Bool :=
  if trim cell = "$\\color\x7bgreen\x7d\\top$".toList then some true
  else if trim cell = "$\\color\x7bred\x7d\\bot$".toList then some false
  else none

/-- A cell with the symbol of a truth value shows this value. -/
theorem readCell?_mathSymbol (b : Bool) (w : Nat) : readCell? (' ' :: (padRight w (math (mathSymbol b)) ++ [' '])) = some b := by
  have hassoc : ' ' :: (padRight w (math (mathSymbol b)) ++ [' ']) =
      ' ' :: math (mathSymbol b) ++ (List.replicate (w - (math (mathSymbol b)).length) ' ' ++ [' ']) := by simp [padRight]
  have hblanks : ∀ c ∈ List.replicate (w - (math (mathSymbol b)).length) ' ' ++ [' '], isBlank c := by
    intro c hc
    rcases List.mem_append.mp hc with hc | hc
    · rw [List.eq_of_mem_replicate hc]
      decide
    · rw [List.mem_singleton.mp hc]
      decide
  have htrim : ∀ b, trim (' ' :: math (mathSymbol b)) = math (mathSymbol b) := by decide
  have hread : ∀ b, (if math (mathSymbol b) = "$\\color\x7bgreen\x7d\\top$".toList then some true
      else if math (mathSymbol b) = "$\\color\x7bred\x7d\\bot$".toList then some false else none) = some b := by decide
  rw [readCell?, hassoc, trim_append_blanks hblanks, htrim, hread]

/-! ## Widths -/

/-- Widened widths are no less than they were, and enough for the texts. -/
theorem fit_widen {widths : List Nat} : ∀ {texts : List (List Char)}, widths.length = texts.length →
    List.Forall₂ (· ≤ ·) widths (widen widths texts) ∧ Fit (widen widths texts) texts := by
  induction widths with
  | nil =>
    intro texts hlength
    obtain rfl := List.eq_nil_of_length_eq_zero hlength.symm
    exact ⟨.nil, .nil⟩
  | cons w widths ih =>
    intro texts hlength
    obtain ⟨s, texts, rfl⟩ := List.exists_cons_of_length_eq_add_one hlength.symm
    obtain ⟨hle, hfit⟩ := ih (Nat.succ.inj hlength)
    exact ⟨.cons (Nat.le_max_left _ _) hle, .cons (Nat.le_max_right _ _) hfit⟩

/-- What fits into columns fits into wider ones. -/
theorem Fit.mono {widths widths' : List Nat} {texts : List (List Char)} (hle : List.Forall₂ (· ≤ ·) widths widths')
    (h : Fit widths texts) : Fit widths' texts := by
  rw [Fit] at h ⊢
  refine forall₂_trans hle.flip (fun _ _ _ hw hs => ?_) h
  exact Nat.le_trans hs hw

/-- Widths that are widened to what one row after the other needs are enough for all of them. Widths only grow, so what fits
behind one row fits in the end. -/
theorem fit_foldl_widen {rows : List Row} {cells : Row → List (List Char)} : ∀ {widths : List Nat},
    (∀ r ∈ rows, widths.length = (cells r).length) →
    ∃ widths', rows.foldl (fun widths r => widen widths (cells r)) widths = widths' ∧
      List.Forall₂ (· ≤ ·) widths widths' ∧ ∀ r ∈ rows, Fit widths' (cells r) := by
  induction rows with
  | nil => exact fun _ => ⟨_, rfl, List.forall₂_same.mpr fun _ _ => Nat.le_refl _, by simp⟩
  | cons r rows ih =>
    intro widths hlength
    obtain ⟨hr, hrows⟩ := List.forall_mem_cons.mp hlength
    obtain ⟨hle, hfit⟩ := fit_widen hr
    obtain ⟨widths', hfold, hle', hfits⟩ := ih fun r' hr' => hle.length_eq.symm.trans (hrows r' hr')
    refine ⟨widths', hfold, forall₂_trans hle (fun _ _ _ h h' => ?_) hle', List.forall_mem_cons.mpr ⟨hfit.mono hle', hfits⟩⟩
    exact Nat.le_trans h h'

section Table

variable {t : TruthTable}

/-- There is a heading for each column. -/
theorem length_markdownHeadings (ht : t.IsFull) : (markdownHeadings t).length = t.columnCount := by
  rw [markdownHeadings, List.length_map, List.length_append, List.length_map, List.length_map, ht.headers, TruthTable.columnCount]

/-- There is a cell for each column. -/
theorem length_markdownCells (ht : t.IsFull) {r : Row} (hr : r ∈ t.rows) : (markdownCells t r).length = t.columnCount := by
  rw [markdownCells, List.length_map, ht.length_cells hr]

/-- The widths of a table are enough for its headings and for all its rows. -/
theorem fit_markdownWidths (ht : t.IsFull) :
    Fit (markdownWidths t) (markdownHeadings t) ∧ ∀ r ∈ t.rows, Fit (markdownWidths t) (markdownCells t r) := by
  have hlength : ∀ r ∈ t.rows, ((markdownHeadings t).map fun h => max 3 h.length).length = (markdownCells t r).length := by
    intro r hr
    rw [List.length_map, length_markdownHeadings ht, length_markdownCells ht hr]
  obtain ⟨widths, hwidths, hle, hfits⟩ := fit_foldl_widen hlength
  have heq : markdownWidths t = widths := hwidths
  rw [heq]
  refine ⟨Fit.mono hle ?_, hfits⟩
  rw [Fit, List.forall₂_map_left_iff, List.forall₂_same]
  exact fun h _ => Nat.le_max_right _ _

end Table

/-! ## Lines -/

/-- A line of cells that are padded to the widths of their columns. -/
structure IsLine (widths : List Nat) (cells : List (List Char)) (line : List Char) : Prop where
  line : line = markdownRow cells
  widths : cells.map List.length = widths
  cells : ∀ s ∈ cells, IsCell s

namespace IsLine

variable {widths : List Nat} {cells : List (List Char)} {line : List Char}

/-- The length of a line depends on the widths alone. -/
theorem length_eq (h : IsLine widths cells line) : line.length = widths.sum + 3 * (widths.length - 1) + 4 := by
  obtain ⟨rfl, rfl, -⟩ := h
  rw [markdownRow, List.length_cons, List.length_cons, List.length_append, length_joinWith, List.length_map]
  rfl

/-- A line is cut at its bars into its cells, with nothing before the first bar and behind the last. -/
theorem splitAtBars_eq (h : IsLine widths cells line) (hne : widths ≠ []) :
    splitAtBars line = [] :: (cells.map (fun s => ' ' :: (s ++ [' '])) ++ [[]]) := by
  obtain ⟨rfl, rfl, hcells⟩ := h
  exact splitAtBars_line (fun hnil => hne (by rw [hnil]; rfl)) fun s hs => (hcells s hs).1

/-- A line has no line feed. -/
theorem lineFeed_notMem (h : IsLine widths cells line) : '\n' ∉ line := by
  obtain ⟨rfl, -, hcells⟩ := h
  simp only [markdownRow, List.mem_cons, List.mem_append, not_or]
  refine ⟨by decide, by decide, fun hfeed => ?_, by decide⟩
  rcases mem_joinWith hfeed with hsep | ⟨s, hs, hfeed⟩
  · exact absurd hsep (by decide)
  · exact (hcells s hs).2 hfeed

end IsLine

/-- Texts in mathematics that fit into the columns make a line. -/
theorem isLine_padRight_math {widths : List Nat} {texts : List (List Char)} (hfit : Fit widths (texts.map math))
    (h : ∀ s ∈ texts, IsCell s) :
    IsLine widths (List.zipWith padRight widths (texts.map math))
      (markdownRow (List.zipWith padRight widths (texts.map math))) := by
  refine ⟨rfl, hfit.map_length length_padRight, fun s hs => ?_⟩
  obtain ⟨w, -, m, hm, rfl⟩ := exists_of_mem_zipWith hs
  obtain ⟨text, htext, rfl⟩ := List.mem_map.mp hm
  exact isCell_padRight_math (h text htext) w

/-- The dashes below the headings are a line. -/
theorem isLine_rule (widths : List Nat) :
    IsLine widths (widths.map fun w => List.replicate w '-') (markdownRow (widths.map fun w => List.replicate w '-')) := by
  refine ⟨rfl, by simp [Function.comp_def], List.forall_mem_map.mpr fun w _ => ?_⟩
  exact ⟨barsEscaped_of_notMem fun hbar => absurd (List.eq_of_mem_replicate hbar) (by decide),
    fun hfeed => absurd (List.eq_of_mem_replicate hfeed) (by decide)⟩

section Table

variable {t : TruthTable}

/-- The headings are a line, if no bar in them has a backslash before it. -/
theorem isLine_headings (ht : t.IsFull) (hheaders : ∀ s ∈ t.headers, BarsBare s.toList) :
    IsLine (markdownWidths t) (List.zipWith padRight (markdownWidths t) (markdownHeadings t))
      (markdownRow (List.zipWith padRight (markdownWidths t) (markdownHeadings t))) := by
  have hfit := (fit_markdownWidths ht).1
  have heq : markdownHeadings t = ((t.letters.map ([·]) ++ t.headers.map String.toList).map escapeCell).map math := by
    rw [List.map_map]
    rfl
  rw [heq] at hfit ⊢
  refine isLine_padRight_math hfit
    (List.forall_mem_map.mpr fun s hs => ⟨barsEscaped_escapeCell ?_ (by simp), lineFeed_notMem_escapeCell s⟩)
  rcases List.mem_append.mp hs with hs | hs
  · obtain ⟨x, -, rfl⟩ := List.mem_map.mp hs
    exact .singleton x
  · obtain ⟨header, hheader, rfl⟩ := List.mem_map.mp hs
    exact hheaders header hheader

/-- A row is a line. -/
theorem isLine_row (ht : t.IsFull) {r : Row} (hr : r ∈ t.rows) :
    IsLine (markdownWidths t) (List.zipWith padRight (markdownWidths t) (markdownCells t r))
      (markdownRow (List.zipWith padRight (markdownWidths t) (markdownCells t r))) := by
  have hfit := (fit_markdownWidths ht).2 r hr
  have heq : markdownCells t r = ((r.cells t.letters).map mathSymbol).map math := by
    rw [List.map_map]
    rfl
  rw [heq] at hfit ⊢
  exact isLine_padRight_math hfit (List.forall_mem_map.mpr fun b _ => isCell_mathSymbol b)

/-- The cells of a row show its values. -/
theorem map_readCell? {bs : List Bool} : ∀ {widths : List Nat}, widths.length = bs.length →
    ((List.zipWith padRight widths (bs.map fun b => math (mathSymbol b))).map fun s => ' ' :: (s ++ [' '])).map readCell? =
      bs.map some := by
  induction bs with
  | nil =>
    intro widths hlength
    obtain rfl := List.eq_nil_of_length_eq_zero hlength
    rfl
  | cons b bs ih =>
    intro widths hlength
    obtain ⟨w, widths, rfl⟩ := List.exists_cons_of_length_eq_add_one hlength
    rw [List.map_cons, List.zipWith_cons_cons, List.map_cons, List.map_cons, readCell?_mathSymbol, ih (Nat.succ.inj hlength),
      List.map_cons]

/-- How lines are read as the markdown of a table. All have the same length, and each has a cell for each column of the table
between its outer bars. The cells of the lines below the first two show the cells of the rows. -/
structure IsMarkdownOf (t : TruthTable) (lines : List (List Char)) : Prop where
  count : lines.length = 2 + 2 ^ t.letters.length
  lengths : ∀ line ∈ lines, ∀ line' ∈ lines, line.length = line'.length
  columns : ∀ line ∈ lines, ∃ cells, splitAtBars line = [] :: (cells ++ [[]]) ∧ cells.length = t.columnCount
  values : List.Forall₂ (fun r line => ∃ cells, splitAtBars line = [] :: (cells ++ [[]]) ∧
    cells.map readCell? = (r.cells t.letters).map some) t.rows (lines.drop 2)

/-- The lines of a table are read as its markdown, and none has a line feed. -/
theorem isMarkdownOf_markdownLines (ht : t.IsFull) (hheaders : ∀ s ∈ t.headers, BarsBare s.toList) :
    IsMarkdownOf t (markdownLines t) ∧ ∀ line ∈ markdownLines t, '\n' ∉ line := by
  have hcolumns : (markdownWidths t).length = t.columnCount := by
    rw [(fit_markdownWidths ht).1.length_eq, length_markdownHeadings ht]
  have hne : markdownWidths t ≠ [] := by
    intro hnil
    have hletters := List.length_pos_iff.mpr ht.letters
    rw [hnil, List.length_nil, TruthTable.columnCount] at hcolumns
    omega
  have hlines : ∀ line ∈ markdownLines t, ∃ cells, IsLine (markdownWidths t) cells line :=
    List.forall_mem_cons.mpr ⟨⟨_, isLine_headings ht hheaders⟩, List.forall_mem_cons.mpr ⟨⟨_, isLine_rule _⟩,
      List.forall_mem_map.mpr fun r hr => ⟨_, isLine_row ht hr⟩⟩⟩
  refine ⟨⟨?_, fun line hline line' hline' => ?_, fun line hline => ?_, ?_⟩, fun line hline => ?_⟩
  · rw [markdownLines, List.length_cons, List.length_cons, List.length_map, ht.length_rows]
    omega
  · obtain ⟨_, h⟩ := hlines line hline
    obtain ⟨_, h'⟩ := hlines line' hline'
    rw [h.length_eq, h'.length_eq]
  · obtain ⟨cells, h⟩ := hlines line hline
    refine ⟨_, h.splitAtBars_eq hne, ?_⟩
    rw [List.length_map, ← hcolumns, ← h.widths, List.length_map]
  · change List.Forall₂ _ t.rows (t.rows.map _)
    rw [List.forall₂_map_right_iff, List.forall₂_same]
    exact fun r hr => ⟨_, (isLine_row ht hr).splitAtBars_eq hne, map_readCell? (hcolumns.trans (ht.length_cells hr).symm)⟩
  · obtain ⟨_, h⟩ := hlines line hline
    exact h.lineFeed_notMem

end Table

/-- The text of a table with rows that is made for formulas, cut at line feeds, is the markdown of the table: its bars behind an
even number of backslashes are those between the cells. -/
theorem markdownTable_of_isBuilt {t : TruthTable} (ht : t.IsBuilt) (hstatus : t.status = .ok) :
    IsMarkdownOf t (splitAtChar '\n' (markdownTable t).toList) := by
  obtain ⟨hmarkdown, hfeed⟩ := isMarkdownOf_markdownLines (ht.isFull hstatus) (barsBare_of_mem_headers ht hstatus)
  have htext : markdownTable t = ofLines (markdownLines t) := by
    rw [markdownTable, if_neg (by simp [TruthTable.isEmpty, hstatus])]
  rwa [htext, ofLines, String.toList_ofList, splitAtChar_joinWith (by simp [markdownLines]), flatMap_splitAtChar hfeed]

/-- The table of `\overline{A|B}`, with a bar in a heading, has six lines of three cells each. -/
theorem markdownTable_of_isBuilt_overline : ∃ t, (TruthTable.ofLatex true ["\\overline\x7bA|B\x7d"]).result = .ok t ∧
    t.status = .ok ∧ t.columnCount = 3 ∧ (splitAtChar '\n' (markdownTable t).toList).length = 6 ∧
      IsMarkdownOf t (splitAtChar '\n' (markdownTable t).toList) := by
  have htable : (TruthTable.ofLatex true ["\\overline\x7bA|B\x7d"]).result = .ok
      { letters := ['A', 'B'], formulas := ["!(A | B)"], headers := ["\\overline\x7bA|B\x7d"],
        rows := [⟨[('A', true), ('B', true)], [false]⟩, ⟨[('A', true), ('B', false)], [false]⟩,
          ⟨[('A', false), ('B', true)], [false]⟩, ⟨[('A', false), ('B', false)], [true]⟩] } := by decide
  have hmarkdown := markdownTable_of_isBuilt (.latex htable) rfl
  exact ⟨_, htable, rfl, rfl, hmarkdown.count, hmarkdown⟩

end Propositional.Report
