import Propositional.Proofs.Latex.Acceptance
import Propositional.Proofs.Table.Rows

/-!
# The columns of a table of LaTeX formulas

A formula whose native notation is a single letter has no column in the table of LaTeX formulas, but moves its letter to the
front (`isOrdered_columnLetters`, `keeps_ofNormalized`). The letters of the table are those of all formulas in another order, so
its rows are those of the table of all native notations, which may stand in other places and hold further values
(`latexTable_columns`).
-/

namespace Propositional

open Text
open TruthTable (bareLetter? columnLetters)

/-! ## Places in a list -/

section Places

variable {α β : Type} [DecidableEq α] [DecidableEq β]

/-- What is read out of a list first stands first in the list, if it is written in one way only. -/
theorem idxOf_lt_of_filterMap {read : α → Option β} (write : β → α) {xs : List α} {y z : β}
    (hy : ∀ x ∈ xs, read x = some y ↔ x = write y) (hz : ∀ x ∈ xs, read x = some z ↔ x = write z)
    (h : (xs.filterMap read).idxOf y < (xs.filterMap read).idxOf z) : xs.idxOf (write y) < xs.idxOf (write z) := by
  induction xs with
  | nil => exact h
  | cons x xs ih =>
    have hxy := hy x List.mem_cons_self
    have hxz := hz x List.mem_cons_self
    by_cases hwy : x = write y
    · have hne : x ≠ write z := by
        intro hwz
        obtain rfl : y = z := Option.some.inj ((hxy.mpr hwy).symm.trans (hxz.mpr hwz))
        exact Nat.lt_irrefl _ h
      rw [← hwy, List.idxOf_cons_self, List.idxOf_cons_ne _ hne]
      exact Nat.succ_pos _
    · by_cases hwz : x = write z
      · rw [List.filterMap_cons_some (hxz.mpr hwz), List.idxOf_cons_self] at h
        exact absurd h (Nat.not_lt_zero _)
      · rw [List.idxOf_cons_ne _ hwy, List.idxOf_cons_ne _ hwz]
        refine Nat.succ_lt_succ
          (ih (fun w hw => hy w (List.mem_cons_of_mem x hw)) (fun w hw => hz w (List.mem_cons_of_mem x hw)) ?_)
        cases hx : read x with
        | none => rwa [List.filterMap_cons_none hx] at h
        | some u =>
          have huy : u ≠ y := fun he => hwy (hxy.mp (he ▸ hx))
          have huz : u ≠ z := fun he => hwz (hxz.mp (he ▸ hx))
          rw [List.filterMap_cons_some hx, List.idxOf_cons_ne _ huy, List.idxOf_cons_ne _ huz] at h
          exact Nat.lt_of_succ_lt_succ h

/-- A list without its repetitions is in the order of first places. The places in the rest without the first member are not those
in the rest, but they are in the same order. -/
theorem pairwise_idxOf_eraseDups (xs : List α) : xs.eraseDups.Pairwise fun y z => xs.idxOf y < xs.idxOf z := by
  cases xs with
  | nil => simp
  | cons x xs =>
    have hne : ∀ y ∈ (xs.filter fun y => !y == x).eraseDups, x ≠ y := by
      intro y hy he
      simp [he] at hy
    rw [List.eraseDups_cons, List.pairwise_cons]
    refine ⟨fun y hy => ?_, (pairwise_idxOf_eraseDups (xs.filter fun y => !y == x)).imp_of_mem fun {y z} hy hz hlt => ?_⟩
    · rw [List.idxOf_cons_self, List.idxOf_cons_ne _ (hne y hy)]
      exact Nat.succ_pos _
    · rw [List.idxOf_cons_ne _ (hne y hy), List.idxOf_cons_ne _ (hne z hz)]
      rw [← List.filterMap_eq_filter] at hlt
      have hread : ∀ y, x ≠ y → ∀ w ∈ xs, Option.guard (fun y => !y == x) w = some y ↔ w = y := by
        intro y hxy w _
        rw [Option.guard_eq_some_iff]
        refine ⟨And.left, ?_⟩
        rintro rfl
        exact ⟨rfl, by simpa using hxy.symm⟩
      exact Nat.succ_lt_succ (idxOf_lt_of_filterMap id (hread y (hne y hy)) (hread z (hne z hz)) hlt)
termination_by xs.length
decreasing_by exact Nat.lt_succ_of_le (List.length_filter_le _ _)

end Places

/-! ## Single letters -/

/-- A formula that is a single letter. -/
def IsBare (f : String) : Prop := ∃ x : Char, x.isUpper ∧ f = String.ofList [x]

/-- A text is a letter by itself exactly if it is one between blanks. -/
theorem bareLetter?_eq_some_iff {f : String} {x : Char} : bareLetter? f = some x ↔ x.isUpper ∧ trim f.toList = [x] := by
  unfold bareLetter?
  split
  · rename_i y hy
    rw [hy, List.cons.injEq, and_iff_left rfl]
    by_cases hu : y.isUpper
    · rw [if_pos hu, Option.some.injEq]
      exact ⟨fun he => ⟨he ▸ hu, he⟩, And.right⟩
    · rw [if_neg hu]
      exact ⟨nofun, fun ⟨hx, he⟩ => absurd (he ▸ hx) hu⟩
  · rename_i hne
    exact ⟨nofun, fun ⟨_, ht⟩ => absurd ht (hne x)⟩

section Trimmed

variable {formulas : List String} (htrim : ∀ f ∈ formulas, trim f.toList = f.toList)

include htrim

/-- A formula is a letter by itself exactly if it is one. -/
theorem bareLetter?_of_trimmed {f : String} (hf : f ∈ formulas) {x : Char} :
    bareLetter? f = some x ↔ x.isUpper ∧ f = String.ofList [x] := by
  rw [bareLetter?_eq_some_iff, htrim f hf]
  refine and_congr_right fun _ => ⟨fun h => ?_, ?_⟩
  · rw [← h, String.ofList_toList]
  · rintro rfl
    exact String.toList_ofList

/-- A formula has a column exactly if it is no single letter. -/
theorem isNone_bareLetter?_iff {f : String} (hf : f ∈ formulas) : (bareLetter? f).isNone ↔ ¬IsBare f := by
  rw [Option.isNone_iff_eq_none, Option.eq_none_iff_forall_ne_some]
  simp only [ne_eq, bareLetter?_of_trimmed htrim hf, IsBare, not_exists]

end Trimmed

/-! ## The order of the letters -/

/-- Letters in the order of a table of the formulas: those that are a formula by themselves, in the order of the formulas, and
then the others in alphabetical order. -/
structure IsOrdered (formulas : List String) (pinned others : List Char) : Prop where
  nodup : (pinned ++ others).Nodup
  pairwise_pinned : pinned.Pairwise fun x y => formulas.idxOf (String.ofList [x]) < formulas.idxOf (String.ofList [y])
  mem_pinned : ∀ x, x ∈ pinned ↔ x.isUpper ∧ String.ofList [x] ∈ formulas
  pairwise_others : others.Pairwise (· < ·)
  mem_others : ∀ x, x ∈ others ↔ x ∉ pinned ∧ ∃ f ∈ formulas, x ∈ letters f

/-- The letters of a table are in their order. -/
theorem isOrdered_columnLetters {formulas : List String} (htrim : ∀ f ∈ formulas, trim f.toList = f.toList) :
    ∃ pinned others, columnLetters formulas = pinned ++ others ∧ IsOrdered formulas pinned others := by
  obtain ⟨pinned, hpinned⟩ : ∃ pinned, pinned = (formulas.filterMap bareLetter?).eraseDups := ⟨_, rfl⟩
  have hmem : ∀ x, x ∈ pinned ↔ x.isUpper ∧ String.ofList [x] ∈ formulas := by
    intro x
    rw [hpinned, List.mem_eraseDups, List.mem_filterMap]
    constructor
    · rintro ⟨f, hf, hx⟩
      obtain ⟨hu, rfl⟩ := (bareLetter?_of_trimmed htrim hf).mp hx
      exact ⟨hu, hf⟩
    · rintro ⟨hu, hf⟩
      exact ⟨_, hf, (bareLetter?_of_trimmed htrim hf).mpr ⟨hu, rfl⟩⟩
  have hfirst : pinned.Pairwise fun x y => formulas.idxOf (String.ofList [x]) < formulas.idxOf (String.ofList [y]) := by
    have hread : ∀ x ∈ pinned, ∀ f ∈ formulas, bareLetter? f = some x ↔ f = String.ofList [x] := fun x hx f hf =>
      (bareLetter?_of_trimmed htrim hf).trans (and_iff_right ((hmem x).mp hx).1)
    have hpairwise := pairwise_idxOf_eraseDups (formulas.filterMap bareLetter?)
    rw [← hpinned] at hpairwise
    exact hpairwise.imp_of_mem fun {x y} hx hy h =>
      idxOf_lt_of_filterMap (fun x => String.ofList [x]) (hread x hx) (hread y hy) h
  have hothers : ∀ x, x ∈ (lettersOfAll formulas).filter (fun x => !pinned.contains x) ↔
      x ∉ pinned ∧ ∃ f ∈ formulas, x ∈ letters f := by
    intro x
    rw [List.mem_filter, mem_lettersOfAll, and_comm]
    simp
  refine ⟨pinned, (lettersOfAll formulas).filter fun x => !pinned.contains x, by rw [hpinned]; rfl, ?_, hfirst, hmem,
    (pairwise_lettersOfAll formulas).sublist List.filter_sublist, hothers⟩
  refine List.nodup_append.mpr ⟨hfirst.imp fun h he => ?_, (nodup_lettersOfAll formulas).sublist List.filter_sublist, ?_⟩
  · rw [he] at h
    exact Nat.lt_irrefl _ h
  · rintro x hx y hy rfl
    exact ((hothers x).mp hy).1 hx

/-- They are the letters of the formulas. -/
theorem IsOrdered.perm_lettersOfAll {formulas : List String} {pinned others : List Char} (h : IsOrdered formulas pinned others) :
    (pinned ++ others).Perm (lettersOfAll formulas) := by
  rw [List.perm_ext_iff_of_nodup h.nodup (nodup_lettersOfAll formulas)]
  intro x
  rw [List.mem_append, h.mem_others, mem_lettersOfAll]
  constructor
  · rintro (hx | ⟨-, hx⟩)
    · obtain ⟨hu, hf⟩ := (h.mem_pinned x).mp hx
      exact ⟨_, hf, mem_letters.mpr ⟨hu, by simp⟩⟩
    · exact hx
  · intro hx
    by_cases hp : x ∈ pinned
    · exact .inl hp
    · exact .inr ⟨hp, hx⟩

/-! ## The columns that are kept -/

/-- The columns of a table are those of the formulas with the given numbers, which are all that are no single letter. Each is
headed by the text that its formula was given as, without the blanks at the ends. -/
structure Keeps (sources formulas : List String) (kept : List Nat) (t : TruthTable) : Prop where
  pairwise : kept.Pairwise (· < ·)
  mem_iff : ∀ i, i ∈ kept ↔ ∃ f, formulas[i]? = some f ∧ ¬IsBare f
  formulas : List.Forall₂ (fun i f => formulas[i]? = some f) kept t.formulas
  headers : List.Forall₂ (fun i s => sources[i]?.map (fun source => String.ofList (trim source.toList)) = some s) kept t.headers

/-- The numbers of the members of a list with a property. -/
theorem exists_zipIdx_filter {α : Type} (p : α → Bool) (xs : List α) :
    ∃ qs : List (α × Nat), xs.filter p = qs.map Prod.fst ∧ (qs.map Prod.snd).Pairwise (· < ·) ∧
      ∀ q, q ∈ qs ↔ xs[q.2]? = some q.1 ∧ p q.1 := by
  refine ⟨xs.zipIdx.filter (p ∘ Prod.fst), ?_, ?_, fun q => ?_⟩
  · rw [← List.filter_map, List.zipIdx_map_fst]
  · have hpairwise : (xs.zipIdx.map Prod.snd).Pairwise (· < ·) := by
      rw [List.zipIdx_map_snd]
      exact List.pairwise_lt_range'
    exact hpairwise.sublist (List.filter_sublist.map _)
  · rw [List.mem_filter, List.mem_zipIdx_iff_getElem?]
    rfl

/-- The table of native notations with rows is that of the formulas that are no single letters, under all valuations of the
letters in their order. -/
theorem keeps_ofNormalized {sources formulas : List String} (htrim : ∀ f ∈ formulas, trim f.toList = f.toList)
    (hlength : sources.length = formulas.length) {t : TruthTable} (h : TruthTable.ofNormalized sources formulas = .ok t)
    (hstatus : t.status = .ok) :
    columnLetters formulas ≠ [] ∧ t.letters = columnLetters formulas ∧ rowsOf t.letters t.formulas = .ok t.rows ∧
      ∃ kept, Keeps sources formulas kept t := by
  obtain ⟨qs, hfilter, hpairwise, hmem⟩ := exists_zipIdx_filter (fun p => (bareLetter? p.2).isNone) (sources.zip formulas)
  have hne : columnLetters formulas ≠ [] := by
    intro hnil
    rw [TruthTable.ofNormalized, if_pos (by rw [hnil]; rfl)] at h
    obtain rfl := Except.ok.inj h
    cases hstatus
  rw [TruthTable.ofNormalized, if_neg (by simpa using hne), hfilter, TruthTable.tabulate] at h
  cases hrows : rowsOf (columnLetters formulas) ((qs.map Prod.fst).map Prod.snd) with
  | error e =>
    rw [hrows] at h
    cases h
  | ok rows =>
    rw [hrows] at h
    obtain rfl := Except.ok.inj h
    have hplace : ∀ q ∈ qs, sources[q.2]? = some q.1.1 ∧ formulas[q.2]? = some q.1.2 := fun q hq =>
      List.getElem?_zip_eq_some.mp ((hmem q).mp hq).1
    refine ⟨hne, rfl, hrows, qs.map Prod.snd, hpairwise, fun i => ?_, ?_, ?_⟩
    · constructor
      · intro hi
        obtain ⟨q, hq, rfl⟩ := List.mem_map.mp hi
        have hf := (hplace q hq).2
        exact ⟨_, hf, (isNone_bareLetter?_iff htrim (List.mem_of_getElem? hf)).mp ((hmem q).mp hq).2⟩
      · rintro ⟨f, hf, hbare⟩
        obtain ⟨hi, -⟩ := List.getElem?_eq_some_iff.mp hf
        have hs : sources[i]? = some sources[i] := List.getElem?_eq_getElem (hlength ▸ hi)
        refine List.mem_map.mpr ⟨((sources[i], f), i), (hmem _).mpr ⟨List.getElem?_zip_eq_some.mpr ⟨hs, hf⟩, ?_⟩, rfl⟩
        exact (isNone_bareLetter?_iff htrim (List.mem_of_getElem? hf)).mpr hbare
    · simp only [List.map_map, List.forall₂_map_left_iff, List.forall₂_map_right_iff, List.forall₂_same]
      exact fun q hq => (hplace q hq).2
    · simp only [List.map_map, List.forall₂_map_left_iff, List.forall₂_map_right_iff, List.forall₂_same]
      intro q hq
      rw [(hplace q hq).1]
      rfl

/-! ## The rows of the table of all formulas -/

/-- A single letter is well formed. -/
theorem wellFormed_of_isBare {f : String} (h : IsBare f) : WellFormed f := by
  obtain ⟨x, hx, rfl⟩ := h
  have hspells : Token.Spells [.leaf x] (String.ofList [x]).toList := by
    rw [String.toList_ofList]
    exact .token (t := .leaf x) (isAlphanum_of_isUpper hx) nofun .nil
  have hatom : ∀ c, Token.leaf c ∈ [Token.leaf x] → atom? c = some c := by
    intro c hc
    obtain rfl := Token.leaf.inj (List.mem_singleton.mp hc)
    rw [atom?, if_pos (by simp [Latex.isAtom, hx])]
  exact wellFormed_iff.mpr ⟨.leaf x, _, Token.scan_of_spells (g := id) hspells hatom, rfl⟩

section Agreement

variable {formulas : List String} {xs : List Char} (hperm : xs.Perm (lettersOfAll formulas)) {v : Valuation Char}
  (hv : v.keys = xs)

include hperm hv

/-- A valuation of the letters in some order has each once. -/
theorem nodup_keys_of_perm : v.keys.Nodup := hv ▸ hperm.nodup_iff.mpr (nodup_lettersOfAll formulas)

/-- A valuation of the letters in some order is one of letters. -/
theorem ofLetters_of_perm : v.OfLetters := by
  rw [Valuation.ofLetters_iff, hv]
  intro c hc
  obtain ⟨f, -, hf⟩ := mem_lettersOfAll.mp (hperm.mem_iff.mp hc)
  exact (mem_letters.mp hf).1

/-- The table of formulas has one row with the values of a valuation in another order, and it holds the values of the formulas
under the valuation. -/
theorem exists_filter_perm {u : TruthTable} (hne : lettersOfAll formulas ≠ []) (hu : TruthTable.ofFormulas formulas = .ok u) :
    ∃ r, u.rows.filter (fun q => q.assignment.Perm v) = [r] ∧
      List.Forall₂ (fun f b => evaluateLetters f v = .ok b) formulas r.results := by
  obtain ⟨rows, hrows, rfl⟩ := (truthTable_eq_ok_iff hne).mp hu
  have hx := nodup_lettersOfAll formulas
  have hnodup := nodup_keys_of_perm hperm hv
  obtain ⟨w, hw⟩ : ∃ w, w = Valuation.assign (lettersOfAll formulas) v.value := ⟨_, rfl⟩
  have hkeys : w.keys = lettersOfAll formulas := by rw [hw, Valuation.keys_assign]
  have hwv : w.Perm v := (Valuation.perm_iff_eq_assign hnodup (by rw [hkeys, hv]; exact hperm.symm)).mpr (by rw [hkeys, hw])
  obtain ⟨r, -, hr, -, hvalues⟩ := exists_filter_assignment hx hrows hkeys
  refine ⟨r, ?_, hvalues.imp fun f b hb => ?_⟩
  · rw [← hr]
    refine List.filter_congr fun q hq => ?_
    have hq := keys_assignment hx hrows hq
    rw [decide_eq_decide, Valuation.perm_iff_eq_assign hnodup (by rw [hq, hv]; exact hperm.symm), hq, hw]
  · rw [← hb]
    exact evaluateLetters_congr (ofLetters_of_keys hkeys) (ofLetters_of_perm hperm hv) fun c _ =>
      (Valuation.lookup_eq_of_perm hnodup hwv c).symm

end Agreement

/-- All formulas of a table with rows are well formed, those without a column among them. A formula that is no single letter has a
value in the first row. -/
theorem wellFormed_of_rowsOf {sources formulas : List String} {kept : List Nat} {t : TruthTable}
    (hkeeps : Keeps sources formulas kept t) (hperm : t.letters.Perm (lettersOfAll formulas))
    (hrows : rowsOf t.letters t.formulas = .ok t.rows) : ∀ f ∈ formulas, WellFormed f := by
  intro f hf
  by_cases hbare : IsBare f
  · exact wellFormed_of_isBare hbare
  · have hx : t.letters.Nodup := hperm.nodup_iff.mpr (nodup_lettersOfAll formulas)
    obtain ⟨r, hr⟩ : ∃ r, r ∈ t.rows := List.exists_mem_of_length_pos (by rw [length_rows hrows]; exact Nat.two_pow_pos _)
    obtain ⟨i, hi⟩ := List.mem_iff_getElem?.mp hf
    obtain ⟨f', hf', hplace⟩ := exists_mem_of_forall₂ hkeeps.formulas ((hkeeps.mem_iff i).mpr ⟨f, hi, hbare⟩)
    obtain rfl := Option.some.inj (hi.symm.trans hplace)
    obtain ⟨b, -, hb⟩ := exists_mem_of_forall₂ ((rowsOf_eq_ok_iff.mp hrows).2 r hr) hf'
    exact wellFormed_of_evaluateLetters (ofLetters_of_perm hperm (keys_assignment hx hrows hr)) hb

/-! ## Tables of LaTeX formulas -/

/-- A normal form has no blanks at its ends. -/
theorem trim_formula {strict : Bool} {s : String} {n : Latex.Normalized} (h : Latex.normalize strict s = .ok n) :
    trim n.formula.toList = n.formula.toList := by
  obtain ⟨e, -, rfl⟩ := Latex.normalize_eq_ok_iff.mp h
  rw [String.toList_ofList, Latex.Lexeme.render, collapse, trim_trim]

/-- Native notations have no blanks at their ends. -/
theorem trim_formulas {strict : Bool} {sources : List String} {ns : List Latex.Normalized}
    (h : List.Forall₂ (fun s n => Latex.normalize strict s = .ok n) sources ns) :
    ∀ f ∈ ns.map (·.formula), trim f.toList = f.toList := by
  rw [List.forall_mem_map]
  intro n hn
  obtain ⟨s, -, hs⟩ := exists_mem_of_forall₂ h.flip hn
  exact trim_formula hs

/-- The table of LaTeX formulas, if it has rows, is that of their native notations. -/
theorem exists_normal_of_ofLatex {strict : Bool} {sources : List String} {t : TruthTable}
    (h : (TruthTable.ofLatex strict sources).result = .ok t) (hstatus : t.status = .ok) :
    ∃ formulas, List.Forall₂ (fun s f => (Latex.normalize strict s).map (·.formula) = .ok f) sources formulas ∧
      (∀ f ∈ formulas, trim f.toList = f.toList) ∧ TruthTable.ofNormalized sources formulas = .ok t := by
  have hne : sources ≠ [] := by
    rintro rfl
    obtain rfl := Except.ok.inj h
    cases hstatus
  cases hns : sources.mapM (Latex.normalize strict) with
  | error e =>
    rw [ofLatex_of_ne_nil hne, Latex.normalizeAll, hns] at h
    cases h
  | ok ns =>
    have hall := mapM_eq_ok_iff.mp hns
    rw [ofLatex_of_normalize hne hall] at h
    refine ⟨ns.map (·.formula), ?_, trim_formulas hall, ?_⟩
    · rw [List.forall₂_map_right_iff]
      exact hall.imp fun s n hn => by rw [hn]; rfl
    · cases hnormal : TruthTable.ofNormalized sources (ns.map (·.formula)) with
      | error e =>
        rw [hnormal] at h
        cases h
      | ok u =>
        rw [hnormal] at h
        exact congrArg Except.ok (Except.ok.inj h)

/-- What the table of LaTeX formulas says, if it has rows. Its letters are in their order, its columns are those of the formulas
that are no single letters, and each valuation of its letters has exactly one row. The native notations of all formulas have a
table as well, and a row says about a formula what the row of that table with the same values says. -/
theorem latexTable_columns {strict : Bool} {sources : List String} {t : TruthTable}
    (h : (TruthTable.ofLatex strict sources).result = .ok t) (hstatus : t.status = .ok) :
    ∃ formulas, List.Forall₂ (fun s f => (Latex.normalize strict s).map (·.formula) = .ok f) sources formulas ∧
      (∃ pinned others, t.letters = pinned ++ others ∧ IsOrdered formulas pinned others) ∧
      t.rows.length = 2 ^ t.letters.length ∧ (∀ r ∈ t.rows, r.assignment.keys = t.letters) ∧
      (∀ v : Valuation Char, v.keys = t.letters → ∃ r, t.rows.filter (·.assignment = v) = [r]) ∧
      ∃ kept, Keeps sources formulas kept t ∧ ∃ u, TruthTable.ofFormulas formulas = .ok u ∧ u.status = .ok ∧
        ∀ r ∈ t.rows, ∃ r', u.rows.filter (fun q => q.assignment.Perm r.assignment) = [r'] ∧
          List.Forall₂ (fun i b => r'.results[i]? = some b) kept r.results := by
  obtain ⟨formulas, hnormal, htrim, hof⟩ := exists_normal_of_ofLatex h hstatus
  obtain ⟨hne, hletters, hrows, kept, hkeeps⟩ := keeps_ofNormalized htrim hnormal.length_eq hof hstatus
  obtain ⟨pinned, others, hcolumns, hordered⟩ := isOrdered_columnLetters htrim
  have hperm : t.letters.Perm (lettersOfAll formulas) := by
    rw [hletters, hcolumns]
    exact hordered.perm_lettersOfAll
  have hx : t.letters.Nodup := hperm.nodup_iff.mpr (nodup_lettersOfAll formulas)
  have hvalues := (rowsOf_eq_ok_iff.mp hrows).2
  have hne : lettersOfAll formulas ≠ [] := fun hnil => hne (hletters ▸ (hnil ▸ hperm).eq_nil)
  obtain ⟨rows, hall⟩ := exists_rowsOf_iff.mpr (wellFormed_of_rowsOf hkeeps hperm hrows)
  have hu := (truthTable_eq_ok_iff hne).mpr ⟨rows, hall, rfl⟩
  refine ⟨formulas, hnormal, ⟨pinned, others, hletters.trans hcolumns, hordered⟩, length_rows hrows,
    fun r => keys_assignment hx hrows, fun v hv => ?_, kept, hkeeps, _, hu, rfl, fun r hr => ?_⟩
  · obtain ⟨r, -, hr, -⟩ := exists_filter_assignment hx hrows hv
    exact ⟨r, hr⟩
  · obtain ⟨r', hr', hvalues'⟩ := exists_filter_perm hperm (keys_assignment hx hrows hr) hne hu
    refine ⟨r', hr', forall₂_trans hkeeps.formulas (fun i f b hi hb => ?_) (hvalues r hr)⟩
    obtain ⟨b', hb', heval⟩ := exists_getElem?_of_forall₂ hvalues' hi
    rw [hb', ← Except.ok.inj (heval.symm.trans hb)]

/-- Among `B`, ` \lnot A ` and `B` again, only the second has a column. The table of the native notations has the letters in the
other order, and its row for a true `B` and a false `A` says the same about `!A`. -/
theorem latexTable_columns_not :
    ∃ t, (TruthTable.ofLatex true ["B", " \\lnot A ", "B"]).result = .ok t ∧ t.letters = ['B', 'A'] ∧
      t.headers = ["\\lnot A"] ∧ ⟨[('B', true), ('A', false)], [true]⟩ ∈ t.rows ∧
      ∃ u, TruthTable.ofFormulas ["B", "!A", "B"] = .ok u ∧
        ∃ r', u.rows.filter (fun q => q.assignment.Perm [('B', true), ('A', false)]) = [r'] ∧ r'.results[1]? = some true := by
  have htable : (TruthTable.ofLatex true ["B", " \\lnot A ", "B"]).result = .ok
      { letters := ['B', 'A'], formulas := ["!A"], headers := ["\\lnot A"],
        rows := [⟨[('B', true), ('A', true)], [false]⟩, ⟨[('B', true), ('A', false)], [true]⟩,
          ⟨[('B', false), ('A', true)], [false]⟩, ⟨[('B', false), ('A', false)], [true]⟩] } := by decide
  have hletter : (Latex.normalize true "B").map (·.formula) = .ok "B" := by decide
  have hnot : (Latex.normalize true " \\lnot A ").map (·.formula) = .ok "!A" := by decide
  obtain ⟨formulas, hnormal, -, -, -, -, kept, hkeeps, u, hu, -, hrows⟩ := latexTable_columns htable rfl
  simp only [List.forall₂_cons_left_iff, List.forall₂_nil_left_iff, hletter, hnot, Except.ok.injEq] at hnormal
  obtain ⟨_, _, rfl, ⟨_, _, rfl, ⟨_, _, rfl, rfl, rfl⟩, rfl⟩, rfl⟩ := hnormal
  have hkept : kept = [1] := by
    obtain ⟨i, is, hi, his, rfl⟩ := List.forall₂_cons_right_iff.mp hkeeps.formulas
    obtain rfl := List.forall₂_nil_right_iff.mp his
    match i, hi with
    | 1, _ => rfl
    | 0, hi | 2, hi => exact absurd hi (by decide)
  refine ⟨_, htable, rfl, rfl, by simp, u, hu, ?_⟩
  obtain ⟨r', hr', hresults⟩ := hrows ⟨[('B', true), ('A', false)], [true]⟩ (by simp)
  rw [hkept] at hresults
  exact ⟨r', hr', by simpa using hresults⟩

end Propositional
