import Propositional.Proofs.Table.Columns

/-!
# Tables with rows

A table that is made for formulas and has rows is full: it has a row for each valuation of its letters, a value for each formula
in each of them, and a heading for each formula (`IsBuilt.isFull`).
-/

namespace Propositional.TruthTable

/-- A table that is made for formulas, in native notation or in LaTeX. -/
inductive IsBuilt : TruthTable → Prop where
  | native {formulas : List String} {t : TruthTable} (h : ofFormulas formulas = .ok t) : IsBuilt t
  | latex {strict : Bool} {sources : List String} {t : TruthTable} (h : (ofLatex strict sources).result = .ok t) : IsBuilt t

/-- A table with all its rows, cells and headings. -/
structure IsFull (t : TruthTable) : Prop where
  status : t.status = .ok
  letters : t.letters ≠ []
  nodup : t.letters.Nodup
  headers : t.headers.length = t.formulas.length
  assignments : t.rows.map Row.assignment = valuations t.letters
  results : ∀ r ∈ t.rows, r.results.length = t.formulas.length

/-- A table whose rows are those of its formulas is full. -/
theorem isFull_of_rowsOf {t : TruthTable} (hstatus : t.status = .ok) (hletters : t.letters ≠ []) (hnodup : t.letters.Nodup)
    (hheaders : t.headers.length = t.formulas.length) (hrows : rowsOf t.letters t.formulas = .ok t.rows) : t.IsFull :=
  ⟨hstatus, hletters, hnodup, hheaders, (rowsOf_eq_ok_iff.mp hrows).1,
    fun r hr => ((rowsOf_eq_ok_iff.mp hrows).2 r hr).length_eq.symm⟩

/-- A table of formulas has rows only if there are letters. -/
theorem lettersOfAll_ne_nil_of_ofFormulas {formulas : List String} {t : TruthTable} (h : ofFormulas formulas = .ok t)
    (hstatus : t.status = .ok) : lettersOfAll formulas ≠ [] := by
  intro hnil
  unfold ofFormulas at h
  split at h
  · obtain rfl := Except.ok.inj h
    cases hstatus
  · rw [if_pos (by rw [hnil]; rfl)] at h
    obtain rfl := Except.ok.inj h
    cases hstatus

/-- A table that is made and has rows is full. -/
theorem IsBuilt.isFull {t : TruthTable} (h : t.IsBuilt) (hstatus : t.status = .ok) : t.IsFull := by
  cases h with
  | @native formulas _ h =>
    have hl := lettersOfAll_ne_nil_of_ofFormulas h hstatus
    obtain ⟨rows, hrows, rfl⟩ := (truthTable_eq_ok_iff hl).mp h
    exact isFull_of_rowsOf rfl hl (nodup_lettersOfAll formulas) rfl hrows
  | latex h =>
    obtain ⟨formulas, hnormal, htrim, hof⟩ := exists_normal_of_ofLatex h hstatus
    obtain ⟨hne, hletters, hrows, kept, hkeeps⟩ := keeps_ofNormalized htrim hnormal.length_eq hof hstatus
    obtain ⟨pinned, others, hcolumns, hordered⟩ := isOrdered_columnLetters htrim
    refine isFull_of_rowsOf hstatus (hletters ▸ hne) ?_ (hkeeps.headers.length_eq.symm.trans hkeeps.formulas.length_eq) hrows
    rw [hletters, hcolumns]
    exact hordered.nodup

/-- The letters of a table with rows are letters of formulas. -/
theorem IsBuilt.isUpper {t : TruthTable} (h : t.IsBuilt) (hstatus : t.status = .ok) : ∀ x ∈ t.letters, x.isUpper := by
  have hletters : ∀ formulas, ∀ x ∈ lettersOfAll formulas, x.isUpper :=
    fun formulas x hx => mem_alphabet.mp (List.mem_of_mem_filter hx)
  cases h with
  | @native formulas _ h =>
    obtain ⟨rows, hrows, rfl⟩ := (truthTable_eq_ok_iff (lettersOfAll_ne_nil_of_ofFormulas h hstatus)).mp h
    exact hletters formulas
  | latex h =>
    obtain ⟨formulas, hnormal, htrim, hof⟩ := exists_normal_of_ofLatex h hstatus
    obtain ⟨-, hcolumns, -, -⟩ := keeps_ofNormalized htrim hnormal.length_eq hof hstatus
    obtain ⟨pinned, others, hordered, h⟩ := isOrdered_columnLetters htrim
    intro x hx
    rw [hcolumns, hordered] at hx
    exact hletters formulas x (h.perm_lettersOfAll.mem_iff.mp hx)

namespace IsFull

variable {t : TruthTable} (h : t.IsFull)

include h

/-- A full table has two to the number of its letters rows. -/
theorem length_rows : t.rows.length = 2 ^ t.letters.length := by
  rw [← Valuation.length_valuations, ← h.assignments, List.length_map]

/-- A row of a full table has a cell for each column. -/
theorem length_cells {r : Row} (hr : r ∈ t.rows) : (r.cells t.letters).length = t.columnCount := by
  rw [Row.cells, List.length_append, List.length_map, h.results r hr, columnCount]

/-- Full tables for the same letters have the same rows if the cells are the same. -/
theorem rows_eq {u : TruthTable} (hu : u.IsFull) (hletters : u.letters = t.letters)
    (hcells : u.rows.map (·.cells t.letters) = t.rows.map (·.cells t.letters)) : u.rows = t.rows := by
  have hdrop : ∀ rows : List Row, rows.map Row.results = (rows.map (·.cells t.letters)).map (List.drop t.letters.length) := by
    intro rows
    rw [List.map_map]
    exact List.map_congr_left fun r _ => (List.drop_left' (List.length_map _)).symm
  have hpair : ∀ rows : List Row, rows = List.zipWith Row.mk (rows.map Row.assignment) (rows.map Row.results) := by
    intro rows
    rw [List.zipWith_map, List.zipWith_self]
    exact (List.map_id rows).symm
  rw [hpair u.rows, hpair t.rows, hu.assignments, h.assignments, hletters, hdrop, hdrop, hcells]

end IsFull

end Propositional.TruthTable
