import Propositional.Proofs.Latex.NativeFormula
import Propositional.Proofs.Table.Columns

/-!
# Native formulas read as LaTeX

Text in the native notation may stand where LaTeX is expected, and nothing comes out differently: formulas have the same tokens
and the same values, and errors show at the same tokens. The table of such formulas is the same read as LaTeX, as long as none of
them is a single letter, which would lose its column (`latex_of_native`).
-/

namespace Propositional

open Text
open TruthTable (bareLetter? columnLetters)

/-- Tidying makes no formula a single letter, and none something else. -/
theorem Tidied.bareLetter?_eq {f g : String} (h : Tidied f g) : bareLetter? g = bareLetter? f := by
  obtain ⟨ts, hf, hg, -⟩ := h
  ext x
  rw [bareLetter?_eq_some_iff, bareLetter?_eq_some_iff]
  refine and_congr_right fun hu => ?_
  rw [hf.trim_eq_singleton_iff (isAlphanum_of_isUpper hu), hg.trim_eq_singleton_iff (isAlphanum_of_isUpper hu)]
  simp only [List.map_eq_singleton_iff, Token.canonical_eq_leaf, exists_eq_right]

section Tidied

variable {formulas gs : List String} (h : List.Forall₂ Tidied formulas gs)

include h

/-- Tidied formulas have the letters of the formulas. -/
theorem lettersOfAll_of_tidied : lettersOfAll gs = lettersOfAll formulas := by
  refine List.filter_congr fun x hx => ?_
  induction h with
  | nil => rfl
  | cons hfg _ ih =>
    have hcontains := hfg.mem_iff (isAlphanum_of_isUpper (mem_alphabet.mp hx))
    rw [← List.contains_iff_mem, ← List.contains_iff_mem, ← Bool.eq_iff_iff] at hcontains
    rw [List.any_cons, List.any_cons, ih, hcontains]

/-- The rows come out the same, valuation by valuation and formula by formula. -/
theorem sameOutcome_rowsOf :
    SameOutcome (· = ·) (rowsOf (lettersOfAll formulas) formulas) (rowsOf (lettersOfAll formulas) gs) := by
  have hrow : ∀ v ∈ valuations (lettersOfAll formulas), SameOutcome (· = ·) (Row.ofValuation formulas v)
    (Row.ofValuation gs v) := by
    intro v hv
    have hkeys := (Valuation.mem_valuations (nodup_lettersOfAll formulas)).mp hv
    have hletters : ∀ f ∈ formulas, ∀ c ∈ letters f, c ∈ v.keys := fun f hf c hc =>
      hkeys ▸ mem_lettersOfAll.mpr ⟨f, hf, hc⟩
    have hvalues := SameOutcome.mapM (((List.forall₂_and_left _ _).mpr ⟨hletters, h⟩).imp fun f g hfg =>
      hfg.2.sameOutcome (ofLetters_of_keys hkeys) hfg.1)
    rw [List.forall₂_eq_eq_eq] at hvalues
    exact hvalues.map fun _ _ hab => congrArg _ hab
  have hrows := SameOutcome.mapM (List.forall₂_same.mpr hrow)
  rwa [List.forall₂_eq_eq_eq] at hrows

/-- The table of formulas and that of the same formulas tidied, none of which is a single letter. -/
theorem sameOutcome_ofNormalized (hbare : ∀ f ∈ formulas, bareLetter? f = none) (hne : formulas ≠ []) :
    SameOutcome (fun t u => u.letters = t.letters ∧ u.rows = t.rows ∧ u.status = t.status) (TruthTable.ofFormulas formulas)
      (TruthTable.ofNormalized formulas gs) := by
  have hnone : ∀ g ∈ gs, bareLetter? g = none := by
    intro g hg
    obtain ⟨f, hf, hfg⟩ := exists_mem_of_forall₂ h.flip hg
    exact (Tidied.bareLetter?_eq hfg).trans (hbare f hf)
  have hcolumns : columnLetters gs = lettersOfAll formulas := by
    rw [columnLetters, List.filterMap_eq_nil_iff.mpr hnone, lettersOfAll_of_tidied h]
    simp
  have hkept : (formulas.zip gs).filter (fun p => (bareLetter? p.2).isNone) = formulas.zip gs := by
    refine List.filter_eq_self.mpr fun p hp => ?_
    rw [hnone p.2 (List.of_mem_zip hp).2]
    rfl
  rw [TruthTable.ofFormulas, if_neg (by simpa using hne), TruthTable.ofNormalized, hkept, hcolumns,
    List.map_snd_zip h.length_eq.ge]
  by_cases hl : (lettersOfAll formulas).isEmpty
  · rw [if_pos hl, if_pos hl]
    exact .ok ⟨rfl, rfl, rfl⟩
  · rw [if_neg hl, if_neg hl]
    exact (sameOutcome_rowsOf h).map fun _ _ hrows => ⟨rfl, hrows.symm, rfl⟩

end Tidied

/-- Text in the native notation comes out the same when it is read as LaTeX, strictness demanded or not. Nothing is put on record,
the text has the same tokens but for the lengths of runs whatever values are written into it, and it has the same value or is
given up at the same token. The table of such formulas has the same letters and rows, or is given up for the same reason, if none
of them is a single letter. -/
theorem latex_of_native (strict : Bool) :
    (∀ f : String, IsNativeText f.toList → ∃ n, Latex.normalize strict f = .ok n ∧ n.diagnostics = [] ∧
      ∀ v : Valuation Char, v.OfLetters → (∀ c ∈ letters f, c ∈ v.keys) →
        (∃ xs ys, tokenize (substitute f v.byText) = .ok xs ∧ tokenize (substitute n.formula v.byText) = .ok ys ∧
          List.Forall₂ (fun x y => x.1 = y.1 ∧ (x.1 = .const → x.2 = y.2)) xs ys) ∧
        SameOutcome (· = ·) (evaluateLetters f v) (evaluateLetters n.formula v)) ∧
    ∀ formulas : List String, (∀ f ∈ formulas, IsNativeText f.toList ∧ bareLetter? f = none) →
      ∃ r, TruthTable.ofLatex strict formulas = ⟨[], r.mapError .formula⟩ ∧
        SameOutcome (fun t u => u.letters = t.letters ∧ u.rows = t.rows ∧ u.status = t.status) (TruthTable.ofFormulas formulas)
          r := by
  constructor
  · intro f hf
    have htidied := Latex.tidied_tidy hf
    exact ⟨_, Latex.normalize_of_native hf strict, rfl, fun v hv hkeys =>
      ⟨htidied.forall₂_tokenize hv hkeys, htidied.sameOutcome hv hkeys⟩⟩
  · intro formulas hall
    by_cases hne : formulas = []
    · subst hne
      exact ⟨_, rfl, .ok ⟨rfl, rfl, rfl⟩⟩
    · have htidied : List.Forall₂ Tidied formulas (formulas.map Latex.tidy) := by
        rw [List.forall₂_map_right_iff, List.forall₂_same]
        exact fun f hf => Latex.tidied_tidy (hall f hf).1
      have hnormal : List.Forall₂ (fun f n => Latex.normalize strict f = .ok n) formulas
          (formulas.map fun f => ⟨Latex.tidy f, []⟩) := by
        rw [List.forall₂_map_right_iff, List.forall₂_same]
        exact fun f hf => Latex.normalize_of_native (hall f hf).1 strict
      refine ⟨_, ?_, sameOutcome_ofNormalized htidied (fun f hf => (hall f hf).2) hne⟩
      have hrecord : ((formulas.map fun f => (⟨Latex.tidy f, []⟩ : Latex.Normalized)).flatMap fun n =>
          n.diagnostics.map Warning.degraded) = [] := by simp
      rw [ofLatex_of_normalize hne hnormal, hrecord, List.map_map]
      rfl

/-- `A===B & (C` misses a `)` behind its sixth token either way, and `A=B` and `A !== B` have one table. None of the texts has as
many `=` as a run that is too long. -/
theorem latex_of_native_runs :
    (∃ n, Latex.normalize true "A===B & (C" = .ok n ∧
      SameOutcome (· = ·) (evaluateLetters "A===B & (C" [('A', true), ('B', true), ('C', false)])
        (evaluateLetters n.formula [('A', true), ('B', true), ('C', false)])) ∧
    ∃ r, TruthTable.ofLatex true ["A=B", "A !== B"] = ⟨[], r.mapError .formula⟩ ∧
      SameOutcome (fun t u => u.letters = t.letters ∧ u.rows = t.rows ∧ u.status = t.status)
        (TruthTable.ofFormulas ["A=B", "A !== B"]) r := by
  have hgroup : IsNativeText "A===B & (C".toList :=
    ⟨by decide, fun h => absurd (h.sublist.count_le '=') (by decide), fun h => absurd (h.sublist.count_le '!') (by decide)⟩
  have hequals : IsNativeText "A=B".toList :=
    ⟨by decide, fun h => absurd (h.sublist.count_le '=') (by decide), fun h => absurd (h.sublist.count_le '=') (by decide)⟩
  have hbang : IsNativeText "A !== B".toList :=
    ⟨by decide, fun h => absurd (h.sublist.count_le '=') (by decide), fun h => absurd (h.sublist.count_le '=') (by decide)⟩
  obtain ⟨hformula, htable⟩ := latex_of_native true
  obtain ⟨n, hn, -, hvalue⟩ := hformula "A===B & (C" hgroup
  refine ⟨⟨n, hn, (hvalue _ (by simp [Valuation.OfLetters]) (by decide)).2⟩, htable _ ?_⟩
  exact List.forall_mem_cons.mpr ⟨⟨hequals, by decide⟩, List.forall_mem_cons.mpr ⟨⟨hbang, by decide⟩, by simp⟩⟩

end Propositional
