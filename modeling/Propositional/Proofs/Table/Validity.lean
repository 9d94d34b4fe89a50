import Propositional.Proofs.Verdict.Equivalence

/-!
# What the check of a formula foretells

The check of a formula evaluates it once, with all its letters true. Tables and verdicts evaluate formulas under every valuation
of all their letters, and begin with the one that makes all of them true. Other letters and other values make no difference for
whether a formula has a value, so what fails at all fails in this first row, for the first formula that the check rejects and with
the words of the check (`goesAsChecked_of_letters`).
-/

namespace Propositional

/-! ## The row of true letters -/

/-- The first row is true throughout. -/
theorem exists_bitRows_eq_cons (n : Nat) : ∃ rows, bitRows n = List.replicate n true :: rows := by
  induction n with
  | zero => exact ⟨[], rfl⟩
  | succ n ih =>
    obtain ⟨rows, hrows⟩ := ih
    exact ⟨_, by rw [bitRows, hrows]; rfl⟩

/-- The valuations of different variables begin with the one that makes all of them true. -/
theorem Valuation.exists_valuations_eq_cons {α : Type} [DecidableEq α] {xs : List α} (hx : xs.Nodup) :
    ∃ vs, valuations xs = assign xs (fun _ => true) :: vs := by
  obtain ⟨rows, hrows⟩ := exists_bitRows_eq_cons xs.length
  have hmem : List.replicate xs.length true ∈ bitRows xs.length := mem_bitRows.mpr (by simp)
  have hzip : ∀ ys : List α, ys.zip (List.replicate ys.length true) = assign ys fun _ => true := by
    intro ys
    induction ys with
    | nil => rfl
    | cons y ys ih => exact congrArg ((y, true) :: ·) ih
  exact ⟨_, by rw [valuations, hrows, List.map_cons, ofPairs_zip hx hmem, hzip]⟩

/-- A list is worked off up to its first member that fails. -/
theorem mapM_eq_error {α β ε : Type} {f : α → Except ε β} {before : List α} {x : α} {e : ε}
    (hbefore : ∀ y ∈ before, ∃ b, f y = .ok b) (hx : f x = .error e) (after : List α) :
    (before ++ x :: after).mapM f = .error e := by
  induction before with
  | nil => simp [bind, Except.bind, hx]
  | cons y before ih =>
    obtain ⟨⟨b, hb⟩, hbefore⟩ := List.forall_mem_cons.mp hbefore
    rw [List.cons_append, List.mapM_cons, hb, ih hbefore]
    rfl

/-! ## The check -/

/-- A check of a formula says what evaluating it with true letters says. -/
theorem validity_of_not_blank {formula : String} (h : validity formula ≠ .blank) :
    validity formula = match evaluateLetters formula (.assign (letters formula) fun _ => true) with
      | .ok _ => .valid
      | .error e => .invalid e := by
  unfold validity at h ⊢
  split at h
  · exact absurd rfl h
  · rw [if_neg ‹_›]
    rfl

/-- A formula without tokens is none. -/
theorem not_wellFormed_of_blank {formula : String} (h : validity formula = .blank) : ¬WellFormed formula := by
  have hblank : ∀ c ∈ formula.toList, Text.isBlank c := by
    unfold validity at h
    split at h
    · exact List.all_eq_true.mp ‹_›
    · split at h <;> cases h
  intro hread
  obtain ⟨f, hf⟩ := wellFormed_iff.mp hread
  obtain ⟨c, hc⟩ := List.exists_mem_of_ne_nil _ f.leaves_ne_nil
  rw [hf.leaves] at hc
  obtain ⟨hc, hatom⟩ := List.mem_filter.mp hc
  have hnot := Text.isBlank_eq_false_of_isAlphanum (Latex.isAlphanum_of_isAtom hatom)
  rw [hblank c hc] at hnot
  cases hnot

section Letters

variable {formula : String} {xs : List Char} (hx : ∀ c ∈ xs, c.isUpper) (hletters : ∀ c ∈ letters formula, c ∈ xs)

include hx hletters

/-- Other letters besides those of a formula make no difference if all are true. -/
theorem evaluateLetters_assign_true : evaluateLetters formula (.assign xs fun _ => true) =
    evaluateLetters formula (.assign (letters formula) fun _ => true) := by
  have hupper : ∀ c ∈ letters formula, c.isUpper := fun c hc => hx c (hletters c hc)
  refine evaluateLetters_congr (Valuation.ofLetters_assign hupper _) (Valuation.ofLetters_assign hx _) fun c hc => ?_
  rw [Valuation.lookup_assign (hletters c hc), Valuation.lookup_assign hc]

/-- A formula has a value with all letters true exactly if it is well formed. -/
theorem exists_evaluateLetters_true_iff :
    (∃ b, evaluateLetters formula (.assign xs fun _ => true) = .ok b) ↔ WellFormed formula := by
  have hv := Valuation.ofLetters_assign hx fun _ => true
  exact ⟨fun ⟨_, hb⟩ => wellFormed_of_evaluateLetters hv hb,
    fun h => h.exists_value hv fun c hc => by rw [Valuation.keys_assign]; exact hletters c hc⟩

/-- The check accepts a formula exactly if it has a value with true letters. -/
theorem validity_eq_valid_iff :
    validity formula = .valid ↔ ∃ b, evaluateLetters formula (.assign xs fun _ => true) = .ok b := by
  by_cases hblank : validity formula = .blank
  · have hnot := not_wellFormed_of_blank hblank
    rw [exists_evaluateLetters_true_iff hx hletters, hblank]
    simp [hnot]
  · rw [validity_of_not_blank hblank, evaluateLetters_assign_true hx hletters]
    cases evaluateLetters formula (.assign (letters formula) fun _ => true) <;> simp

/-- The error of a formula with true letters is about the formula, and has the words of the check. -/
theorem error_of_validity {e : FormulaError} (h : evaluateLetters formula (.assign xs fun _ => true) = .error e) :
    e.formula = formula ∧ (validity formula ≠ .blank → e.message = (validity formula).message) := by
  constructor
  · revert h
    unfold evaluateLetters evaluate
    cases (compileText _).map (Formula.eval id) with
    | ok b => nofun
    | error d =>
      intro h
      obtain rfl := Except.error.inj h
      rfl
  · intro hblank
    rw [evaluateLetters_assign_true hx hletters] at h
    rw [validity_of_not_blank hblank, h]
    rfl

end Letters

/-! ## Tables and verdicts -/

/-- How a run over formulas goes that does what their checks say. It fails exactly if a formula is rejected. The error is about
the first such formula, with the words of its check if it is not blank. And it is the error of the row of true letters: if that
row has values, so have all. -/
structure GoesAsChecked {α : Type} (formulas : List String) (r : Except FormulaError α) : Prop where
  fails_iff : (∃ e, r = .error e) ↔ ∃ f ∈ formulas, validity f ≠ .valid
  first : ∀ (before after : List String) (f : String), formulas = before ++ f :: after → (∀ g ∈ before, validity g = .valid) →
    validity f ≠ .valid → ∃ e, r = .error e ∧ e.formula = f ∧ (validity f ≠ .blank → e.message = (validity f).message)
  firstRow : ∀ e, r = .error e ↔ Row.ofValuation formulas (.assign (lettersOfAll formulas) fun _ => true) = .error e

/-- What is made of the rows does not matter. -/
theorem GoesAsChecked.map {α β : Type} {formulas : List String} {r : Except FormulaError α} (h : GoesAsChecked formulas r)
    (g : α → β) : GoesAsChecked formulas (r.map g) := by
  have herror : ∀ e, r.map g = .error e ↔ r = .error e := by
    intro e
    cases r <;> simp [Except.map]
  exact ⟨by simp only [herror, h.fails_iff], by simpa only [herror] using h.first, by simpa only [herror] using h.firstRow⟩

section Rows

variable {formulas : List String}

/-- The rows of formulas fail exactly as the row of true letters does. The values of the first row show that all formulas are well
formed. -/
theorem rowsOf_eq_error_iff {e : FormulaError} : rowsOf (lettersOfAll formulas) formulas = .error e ↔
    Row.ofValuation formulas (.assign (lettersOfAll formulas) fun _ => true) = .error e := by
  obtain ⟨vs, hvs⟩ := Valuation.exists_valuations_eq_cons (nodup_lettersOfAll formulas)
  cases hrow : Row.ofValuation formulas (.assign (lettersOfAll formulas) fun _ => true) with
  | error d =>
    have herror := mapM_eq_error (List.forall_mem_nil _) hrow vs
    rw [rowsOf, hvs, ← List.nil_append (_ :: vs), herror, Except.error.injEq, Except.error.injEq]
  | ok r =>
    obtain ⟨ha, hvalues⟩ := ofValuation_eq_ok_iff.mp hrow
    have hread : ∀ f ∈ formulas, WellFormed f := by
      intro f hf
      obtain ⟨b, -, hb⟩ := exists_mem_of_forall₂ hvalues hf
      have hkeys := Valuation.keys_assign (lettersOfAll formulas) fun _ => true
      exact wellFormed_of_evaluateLetters (ofLetters_of_keys hkeys) hb
    obtain ⟨rows, hrows⟩ := exists_rowsOf_iff.mpr hread
    rw [hrows]
    simp

/-- Rows fail as the checks of the formulas say. -/
theorem goesAsChecked_rowsOf : GoesAsChecked formulas (rowsOf (lettersOfAll formulas) formulas) := by
  have hx : ∀ c ∈ lettersOfAll formulas, c.isUpper := fun c hc => mem_alphabet.mp (List.mem_of_mem_filter hc)
  have hletters : ∀ f ∈ formulas, ∀ c ∈ letters f, c ∈ lettersOfAll formulas := fun f hf c hc => mem_lettersOfAll.mpr ⟨f, hf, hc⟩
  refine ⟨?_, fun before after f hsplit hbefore hf => ?_, fun e => rowsOf_eq_error_iff⟩
  · have hall : (∃ rows, rowsOf (lettersOfAll formulas) formulas = .ok rows) ↔ ∀ f ∈ formulas, validity f = .valid := by
      rw [exists_rowsOf_iff]
      refine forall₂_congr fun f hf => ?_
      rw [validity_eq_valid_iff hx (hletters f hf), exists_evaluateLetters_true_iff hx (hletters f hf)]
    have hfails : (∃ e, rowsOf (lettersOfAll formulas) formulas = .error e) ↔
        ¬∃ rows, rowsOf (lettersOfAll formulas) formulas = .ok rows := by
      cases rowsOf (lettersOfAll formulas) formulas <;> simp
    rw [hfails, hall]
    simp only [not_forall, exists_prop, ne_eq]
  · have hmem : ∀ g, g ∈ before ∨ g = f → g ∈ formulas := by
      rintro g (hg | rfl) <;> rw [hsplit] <;> simp [*]
    have hf' := hletters f (hmem f (.inr rfl))
    obtain ⟨e, he⟩ : ∃ e, evaluateLetters f (.assign (lettersOfAll formulas) fun _ => true) = .error e := by
      cases h : evaluateLetters f (.assign (lettersOfAll formulas) fun _ => true) with
      | ok b => exact absurd ((validity_eq_valid_iff hx hf').mpr ⟨b, h⟩) hf
      | error e => exact ⟨e, rfl⟩
    refine ⟨e, rowsOf_eq_error_iff.mpr ?_, error_of_validity hx hf' he⟩
    have hvalues : ∀ g ∈ before, ∃ b, evaluateLetters g (.assign (lettersOfAll formulas) fun _ => true) = .ok b := fun g hg =>
      (validity_eq_valid_iff hx (hletters g (hmem g (.inl hg)))).mp (hbefore g hg)
    have herror := mapM_eq_error hvalues he after
    rw [← hsplit] at herror
    rw [Row.ofValuation, herror]
    rfl

end Rows

/-- Tables of formulas with a letter, and verdicts on two or more of them, go as the checks of the formulas say: no table is
given up once its first row, in which all letters are true, has been evaluated. -/
theorem goesAsChecked_of_letters {formulas : List String} (hl : ∃ f ∈ formulas, letters f ≠ []) :
    (valuations (lettersOfAll formulas)).head? = some (.assign (lettersOfAll formulas) fun _ => true) ∧
    GoesAsChecked formulas (TruthTable.ofFormulas formulas) ∧
    (2 ≤ formulas.length → GoesAsChecked formulas (Verdict.ofSteps formulas)) := by
  have hl := lettersOfAll_ne_nil hl
  refine ⟨?_, ?_, fun hlength => ?_⟩
  · obtain ⟨vs, hvs⟩ := Valuation.exists_valuations_eq_cons (nodup_lettersOfAll formulas)
    rw [hvs, List.head?_cons]
  · rw [ofFormulas_eq_map hl]
    exact goesAsChecked_rowsOf.map _
  · rw [ofSteps_eq_map hlength hl]
    exact goesAsChecked_rowsOf.map _

/-- Of `A & B`, `A B`, a blank and `+` the second is the first that is rejected, where a constant stands in place of an
operator. -/
theorem goesAsChecked_second_formula :
    (∃ e, TruthTable.ofFormulas ["A & B", "A B", " ", "+"] = .error e ∧ e.formula = "A B" ∧
      e.message = "No se pudo evaluar 'A B': token inesperado '1' en posicion 1") ∧
    ∃ e, Verdict.ofSteps ["A", "", "!"] = .error e ∧ e.formula = "" := by
  have hvalid : validity "A & B" = .valid := by decide
  have hinvalid : validity "A B" = .invalid ⟨"A B", .malformed (.parse (.leftover (.leaf true) 1))⟩ := by decide
  have hletter : letters "A B" ≠ [] ∧ letters "A" ≠ [] := by decide
  constructor
  · have hsome : ∃ f ∈ ["A & B", "A B", " ", "+"], letters f ≠ [] := ⟨"A B", by simp, hletter.1⟩
    obtain ⟨-, htable, -⟩ := goesAsChecked_of_letters hsome
    obtain ⟨e, he, hformula, hmessage⟩ := htable.first ["A & B"] [" ", "+"] "A B" rfl (by simpa) (by simp [hinvalid])
    refine ⟨e, he, hformula, (hmessage (by simp [hinvalid])).trans ?_⟩
    rw [hinvalid]
    decide
  · have hsome : ∃ f ∈ ["A", "", "!"], letters f ≠ [] := ⟨"A", by simp, hletter.2⟩
    obtain ⟨-, -, hverdict⟩ := goesAsChecked_of_letters hsome
    have hblank : validity "" = .blank := by decide
    obtain ⟨e, he, hformula, -⟩ :=
      (hverdict (by decide)).first ["A"] ["!"] "" rfl (by simpa using (by decide : validity "A" = .valid)) (by simp [hblank])
    exact ⟨e, he, hformula⟩

end Propositional
