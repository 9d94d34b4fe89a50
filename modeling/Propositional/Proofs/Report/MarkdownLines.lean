import Propositional.Proofs.Report.MarkdownTable
import Propositional.Proofs.Text.LineEnds

/-!
# The lines of markdown

A line of markdown ends in a line feed, in a carriage return, or in both. Formulas may hold either as a blank. A line feed in a
heading becomes a space, so those of a table stand between its rows. A carriage return stays, and ends the line of the headings
in the middle of a cell: the lines that are read are those that were written exactly if no heading holds one
(`lines_markdownTable_iff`).
-/

namespace Propositional.Report

open Text

/-! ## Carriage returns -/

section Count

variable {c : Char}

/-- Padding and dollar signs have no part in what is counted. -/
theorem count_padRight_math (hc : c ∉ ['$', ' ']) (w : Nat) (s : List Char) : (padRight w (math s)).count c = s.count c := by
  obtain ⟨hdollar, hspace⟩ : c ≠ '$' ∧ c ≠ ' ' := by simpa using hc
  have hpadding : (List.replicate (w - (math s).length) ' ').count c = 0 :=
    List.count_eq_zero.mpr fun h => hspace (List.eq_of_mem_replicate h)
  rw [padRight, List.count_append, hpadding, math, List.count_cons_of_ne hdollar.symm, List.count_append,
    List.count_singleton, if_neg (by simpa using hdollar.symm)]
  rfl

/-- A row has as many of a character as its cells together. -/
theorem count_markdownRow (hc : c ∉ ['|', ' ']) (cells : List (List Char)) :
    (markdownRow cells).count c = (cells.map (List.count c)).sum := by
  obtain ⟨hbar, hspace⟩ : c ≠ '|' ∧ c ≠ ' ' := by simpa using hc
  have hend : [' ', '|'].count c = 0 := List.count_eq_zero.mpr (by simp [hbar, hspace])
  rw [markdownRow, List.count_cons_of_ne hbar.symm, List.count_cons_of_ne hspace.symm, List.count_append, hend,
    count_joinWith (by simp [hbar, hspace]), Nat.add_zero]

/-- A line of cells holds a character of the texts in it as often as the texts do. -/
theorem count_markdownRow_math (hc : c ∉ ['|', '$', ' ']) {widths : List Nat} {texts : List (List Char)}
    (hlength : widths.length = texts.length) :
    (markdownRow (List.zipWith padRight widths (texts.map math))).count c = (texts.map (List.count c)).sum := by
  obtain ⟨hbar, hdollar, hspace⟩ : c ≠ '|' ∧ c ≠ '$' ∧ c ≠ ' ' := by simpa using hc
  rw [count_markdownRow (by simp [hbar, hspace])]
  refine congrArg List.sum ?_
  induction widths generalizing texts with
  | nil =>
    obtain rfl := List.eq_nil_of_length_eq_zero hlength.symm
    rfl
  | cons w widths ih =>
    obtain ⟨s, texts, rfl⟩ := List.exists_cons_of_length_eq_add_one hlength.symm
    rw [List.map_cons, List.zipWith_cons_cons, List.map_cons, List.map_cons, count_padRight_math (by simp [hdollar, hspace]),
      ih (Nat.succ.inj hlength)]

end Count

/-- Escaping a cell leaves carriage returns as they are. -/
theorem count_escapeCell (s : List Char) : (escapeCell s).count '\r' = s.count '\r' := by
  induction s with
  | nil => rfl
  | cons c s ih =>
    rw [escapeCell, List.flatMap_cons, List.count_append, ← escapeCell, ih, List.count_cons, Nat.add_comm]
    refine congrArg _ ?_
    by_cases hbar : c = '|'
    · subst hbar
      rfl
    · rw [if_neg hbar]
      by_cases hfeed : c = '\n'
      · subst hfeed
        rfl
      · rw [if_neg hfeed, List.count_singleton]

/-- The symbols of truth values have no carriage return. -/
theorem count_mathSymbol (b : Bool) : (mathSymbol b).count '\r' = 0 := by cases b <;> decide

/-- A sum is zero exactly if every part of it is. -/
theorem sum_map_eq_zero_iff {α : Type} {f : α → Nat} {xs : List α} : (xs.map f).sum = 0 ↔ ∀ x ∈ xs, f x = 0 := by
  rw [List.sum_eq_zero_iff_forall_eq_nat, List.forall_mem_map]

section Table

variable {t : TruthTable}

/-- The line of the headings holds the carriage returns of the headers. -/
theorem count_headings (ht : t.IsFull) (hletters : ∀ x ∈ t.letters, x.isUpper) :
    (markdownRow (List.zipWith padRight (markdownWidths t) (markdownHeadings t))).count '\r' =
      (t.headers.map fun s => s.toList.count '\r').sum := by
  have hwidths := (fit_markdownWidths ht).1.length_eq
  have heq : markdownHeadings t = ((t.letters.map ([·]) ++ t.headers.map String.toList).map escapeCell).map math := by
    rw [List.map_map]
    rfl
  have hnone : ((t.letters.map ([·])).map (List.count '\r')).sum = 0 := by
    rw [List.map_map, sum_map_eq_zero_iff]
    intro x hx
    rw [Function.comp_apply, List.count_eq_zero, List.mem_singleton]
    exact (ne_of_holds (hletters x hx) (by decide)).symm
  have hescape : List.count '\r' ∘ escapeCell = List.count '\r' := funext count_escapeCell
  rw [heq] at hwidths ⊢
  rw [count_markdownRow_math (by decide) (by rwa [List.length_map] at hwidths), List.map_map, hescape,
    List.map_append, List.sum_append, hnone, List.map_map, Nat.zero_add]
  rfl

/-- The lines below the headings hold no carriage return. -/
theorem return_notMem_lines (ht : t.IsFull) : ∀ line ∈ (markdownLines t).tail, '\r' ∉ line := by
  rw [markdownLines, List.tail_cons, List.forall_mem_cons, List.forall_mem_map]
  constructor
  · rw [← List.count_eq_zero, count_markdownRow (by decide), List.map_map, sum_map_eq_zero_iff]
    intro w _
    exact List.count_eq_zero.mpr fun h => absurd (List.eq_of_mem_replicate h) (by decide)
  · intro r hr
    have hwidths := ((fit_markdownWidths ht).2 r hr).length_eq
    have heq : markdownCells t r = ((r.cells t.letters).map mathSymbol).map math := by
      rw [List.map_map]
      rfl
    rw [heq] at hwidths ⊢
    rw [← List.count_eq_zero, count_markdownRow_math (by decide) (by rwa [List.length_map] at hwidths), List.map_map,
      sum_map_eq_zero_iff]
    exact fun b _ => count_mathSymbol b

/-- A line ends in a bar, so no carriage return in it comes to stand before a line feed. -/
theorem return_notMem_getLast? : ∀ line ∈ markdownLines t, '\r' ∉ line.getLast? := by
  have hrow : ∀ cells, '\r' ∉ (markdownRow cells).getLast? := by
    intro cells h
    rw [markdownRow, ← List.cons_append, ← List.cons_append, List.getLast?_append] at h
    exact absurd (Option.some.inj h) (by decide)
  simp only [markdownLines, List.forall_mem_cons, List.forall_mem_map]
  exact ⟨hrow _, hrow _, fun r _ => hrow _⟩

end Table

/-! ## Lines -/

/-- The text of a table with rows that is made for formulas, read with line ends of any form. Its lines are those that were
written, but that of the headings is cut at its carriage returns. These are the carriage returns of the formulas, each of which
makes one line more: the lines are those that were written exactly if there are none. -/
theorem lines_markdownTable_iff {t : TruthTable} (ht : t.IsBuilt) (hstatus : t.status = .ok) :
    ∃ head rows, markdownLines t = head :: rows ∧ lines (markdownTable t).toList = splitAtChar '\r' head ++ rows ∧
      (lines (markdownTable t).toList).length =
        2 + 2 ^ t.letters.length + (t.headers.map fun s => s.toList.count '\r').sum ∧
      (lines (markdownTable t).toList = markdownLines t ↔ ∀ s ∈ t.headers, '\r' ∉ s.toList) := by
  have hfull := ht.isFull hstatus
  obtain ⟨hmarkdown, hfeed⟩ := isMarkdownOf_markdownLines hfull (barsBare_of_mem_headers ht hstatus)
  obtain ⟨head, rows, hlines, hcount, hrows⟩ : ∃ head rows, markdownLines t = head :: rows ∧
      head.count '\r' = (t.headers.map fun s => s.toList.count '\r').sum ∧ ∀ line ∈ rows, '\r' ∉ line :=
    ⟨_, _, rfl, count_headings hfull (ht.isUpper hstatus), return_notMem_lines hfull⟩
  have hread : lines (markdownTable t).toList = splitAtChar '\r' head ++ rows := by
    rw [markdownTable, if_neg (by simp [TruthTable.isEmpty, hstatus]), ofLines, String.toList_ofList,
      lines_joinWith (by rw [hlines]; exact List.cons_ne_nil _ _) hfeed return_notMem_getLast?, hlines, List.flatMap_cons,
      flatMap_splitAtChar hrows]
  have hlength : (lines (markdownTable t).toList).length =
      2 + 2 ^ t.letters.length + (t.headers.map fun s => s.toList.count '\r').sum := by
    have hall := hmarkdown.count
    rw [hlines, List.length_cons] at hall
    rw [hread, List.length_append, length_splitAtChar, hcount]
    omega
  refine ⟨head, rows, hlines, hread, hlength, ?_⟩
  have hnone : (∀ s ∈ t.headers, '\r' ∉ s.toList) ↔ head.count '\r' = 0 := by
    simp only [hcount, sum_map_eq_zero_iff, List.count_eq_zero]
  rw [hnone]
  constructor
  · intro heq
    rw [heq, hmarkdown.count, ← hcount] at hlength
    omega
  · intro hzero
    rw [hread, splitAtChar_of_notMem (List.count_eq_zero.mp hzero), hlines]
    rfl

/-- The lines of the table of `A & B`, with a line feed in it, are its heads, what rules them off, and a row for each
valuation. -/
theorem lines_markdownTable_iff_line_feed : ∃ t, TruthTable.ofFormulas ["A\n& B"] = .ok t ∧ t.status = .ok ∧
    lines (markdownTable t).toList = markdownLines t ∧ (markdownLines t).length = 6 := by
  have htable : TruthTable.ofFormulas ["A\n& B"] = .ok
      { letters := ['A', 'B'], formulas := ["A\n& B"], headers := ["A\n& B"],
        rows := [⟨[('A', true), ('B', true)], [true]⟩, ⟨[('A', true), ('B', false)], [false]⟩,
          ⟨[('A', false), ('B', true)], [false]⟩, ⟨[('A', false), ('B', false)], [false]⟩] } := by decide
  obtain ⟨head, rows, -, -, hlength, hiff⟩ := lines_markdownTable_iff (.native htable) rfl
  have hread := hiff.mpr (by decide)
  rw [hread] at hlength
  exact ⟨_, htable, rfl, hread, hlength⟩

/-- With a carriage return in `A & B`, the line of its heads ends in the middle of the last one. -/
theorem not_between_rows_return : ∃ t, TruthTable.ofFormulas ["A\r& B"] = .ok t ∧ t.IsBuilt ∧ t.status = .ok ∧
    (lines (markdownTable t).toList).take 2 =
      ["| $A$                 | $B$                 | $A".toList, "& B$             |".toList] ∧
    lines (markdownTable t).toList ≠ markdownLines t := by
  have htable : TruthTable.ofFormulas ["A\r& B"] = .ok
      { letters := ['A', 'B'], formulas := ["A\r& B"], headers := ["A\r& B"],
        rows := [⟨[('A', true), ('B', true)], [true]⟩, ⟨[('A', true), ('B', false)], [false]⟩,
          ⟨[('A', false), ('B', true)], [false]⟩, ⟨[('A', false), ('B', false)], [false]⟩] } := by decide
  refine ⟨_, htable, .native htable, rfl, ?_⟩
  rw [markdownTable, if_neg (by decide), ofLines, String.toList_ofList]
  exact ⟨by decide, by decide⟩

end Propositional.Report
