import Mathlib.Data.Set.Card
import Propositional.Proofs.Table.Rows
import Propositional.Verdict

/-!
# What a verdict says

The steps of a derivation are compared with the first one only, and only under the valuations of the letters that occur in them.
This decides whether any two of them differ under any valuation of all letters: steps that agree with the first agree with each
other, and letters that do not occur have no part in the values (`verdict_of_steps`).
-/

namespace Propositional

/-- Some two of the formulas have different values. -/
def Differ (formulas : List String) (v : Valuation Char) : Prop :=
  ∃ f ∈ formulas, ∃ g ∈ formulas, evaluateLetters f v ≠ evaluateLetters g v

/-! ## Rows -/

/-- The mismatched steps are those whose value differs from the first one's. -/
theorem mem_mismatchedSteps {r : Row} {i : Nat} : i ∈ r.mismatchedSteps ↔ ∃ b, r.results[i]? = some b ∧ b ≠ r.first := by
  simp [Row.mismatchedSteps, List.mem_zipIdx_iff_getElem?]

/-- The mismatched steps are in their order. -/
theorem pairwise_mismatchedSteps (r : Row) : r.mismatchedSteps.Pairwise (· < ·) := by
  have hpairwise : (r.results.zipIdx.map (·.2)).Pairwise (· < ·) := by
    rw [List.zipIdx_map_snd]
    exact List.pairwise_lt_range'
  exact hpairwise.sublist (List.filter_sublist.map _)

section Row

variable {steps : List String} {r : Row}
  (h : List.Forall₂ (fun f b => evaluateLetters f r.assignment = .ok b) steps r.results)

include h

/-- The first value of a row is that of the first step. -/
theorem evaluateLetters_first {f : String} (hf : steps[0]? = some f) : evaluateLetters f r.assignment = .ok r.first := by
  obtain ⟨b, hb, heval⟩ := exists_getElem?_of_forall₂ h hf
  rw [heval, Row.first, List.headD_eq_head?_getD, List.head?_eq_getElem?, hb, Option.getD_some]

/-- The numbers of the steps that a row names are those of the steps whose value is not that of the first one. -/
theorem mem_mismatchedSteps_iff {i : Nat} : i ∈ r.mismatchedSteps ↔
    ∃ f g, steps[i]? = some f ∧ steps[0]? = some g ∧ evaluateLetters f r.assignment ≠ evaluateLetters g r.assignment := by
  rw [mem_mismatchedSteps]
  constructor
  · rintro ⟨b, hb, hne⟩
    obtain ⟨f, hf, heval⟩ := exists_getElem?_of_forall₂ h.flip hb
    obtain ⟨g, hg⟩ : ∃ g, steps[0]? = some g := ⟨_, List.getElem?_eq_getElem (by
      rw [List.length_pos_iff]
      rintro rfl
      cases hf)⟩
    refine ⟨f, g, hf, hg, ?_⟩
    rw [evaluateLetters_first h hg, heval]
    simpa using hne
  · rintro ⟨f, g, hf, hg, hne⟩
    obtain ⟨b, hb, heval⟩ := exists_getElem?_of_forall₂ h hf
    refine ⟨b, hb, ?_⟩
    rw [evaluateLetters_first h hg, heval] at hne
    simpa using hne

/-- The steps of a row have the value of the first one exactly when no two of them differ. -/
theorem isAgreeing_iff : r.isAgreeing = true ↔ ¬Differ steps r.assignment := by
  constructor
  · rintro hall ⟨f, hf, g, hg, hne⟩
    have hfirst : ∀ f ∈ steps, evaluateLetters f r.assignment = .ok r.first := by
      intro f hf
      obtain ⟨j, hj⟩ := List.mem_iff_getElem?.mp hf
      obtain ⟨b, hb, heval⟩ := exists_getElem?_of_forall₂ h hj
      rw [heval, eq_of_beq (List.all_eq_true.mp hall b (List.mem_of_getElem? hb))]
    exact hne ((hfirst f hf).trans (hfirst g hg).symm)
  · intro hno
    refine List.all_eq_true.mpr fun b hb => ?_
    by_contra hne
    obtain ⟨i, hi⟩ := List.mem_iff_getElem?.mp hb
    obtain ⟨f, g, hf, hg, hdiffer⟩ := (mem_mismatchedSteps_iff h).mp (mem_mismatchedSteps.mpr ⟨b, hi, by simpa using hne⟩)
    exact hno ⟨f, List.mem_of_getElem? hf, g, List.mem_of_getElem? hg, hdiffer⟩

end Row

/-- The number of rows that do not agree is the number of valuations under which some two of the steps differ. -/
theorem length_filter_isAgreeing {steps : List String} {xs : List Char} {rows : List Row} (hx : xs.Nodup)
    (h : rowsOf xs steps = .ok rows) :
    (rows.filter (!·.isAgreeing)).length = {v : Valuation Char | v.keys = xs ∧ Differ steps v}.ncard := by
  obtain ⟨hrows, hvalues⟩ := rowsOf_eq_ok_iff.mp h
  have hset : {v : Valuation Char | v.keys = xs ∧ Differ steps v} =
      ((rows.filter (!·.isAgreeing)).map Row.assignment).toFinset := by
    ext v
    rw [Set.mem_ofPred_eq, ← Valuation.mem_valuations hx, ← hrows, List.coe_toFinset, Set.mem_ofPred_eq]
    simp only [List.mem_map, List.mem_filter, Bool.not_eq_true', ← Bool.not_eq_true]
    constructor
    · rintro ⟨⟨r, hr, rfl⟩, hdiffer⟩
      exact ⟨r, ⟨hr, fun hagree => (isAgreeing_iff (hvalues r hr)).mp hagree hdiffer⟩, rfl⟩
    · rintro ⟨r, ⟨hr, hagree⟩, rfl⟩
      exact ⟨⟨r, hr, rfl⟩, not_not.mp fun hno => hagree ((isAgreeing_iff (hvalues r hr)).mpr hno)⟩
  have hnodup : ((rows.filter (!·.isAgreeing)).map Row.assignment).Nodup := by
    have hall : (rows.map Row.assignment).Nodup := hrows ▸ Valuation.nodup_valuations hx
    exact hall.sublist (List.filter_sublist.map _)
  rw [hset, Set.ncard_coe_finset, List.toFinset_card_of_nodup hnodup, List.length_map]

/-! ## Valuations of all letters -/

/-- The same values for other letters besides those of a formula. -/
theorem evaluateLetters_assign {formula : String} {v : Valuation Char} (hv : v.OfLetters)
    (hkeys : ∀ c ∈ letters formula, c ∈ v.keys) {xs : List Char} (hx : ∀ c ∈ xs, c.isUpper)
    (hletters : ∀ c ∈ letters formula, c ∈ xs) :
    evaluateLetters formula (.assign xs v.value) = evaluateLetters formula v := by
  refine evaluateLetters_congr hv (Valuation.ofLetters_assign hx _) fun c hc => ?_
  obtain ⟨b, hb⟩ := Option.isSome_iff_exists.mp (Valuation.isSome_lookup_iff.mpr (hkeys c hc))
  rw [Valuation.lookup_assign (hletters c hc), hb, Valuation.value, hb, Option.getD_some]

/-- No two formulas differ under any valuation of their letters exactly when they have one value under each valuation of all
letters. The part of a valuation that is about letters of the steps is one under which none of them differ. -/
theorem forall_not_differ_iff {steps : List String} (hne : steps ≠ []) (hread : ∀ f ∈ steps, WellFormed f) :
    (∀ v : Valuation Char, v.keys = lettersOfAll steps → ¬Differ steps v) ↔
      ∀ v : Valuation Char, v.keys.Perm alphabet → ∃ b, ∀ f ∈ steps, evaluateLetters f v = .ok b := by
  have hupper : ∀ c ∈ alphabet, c.isUpper := fun c => mem_alphabet.mp
  have hsub : ∀ c ∈ lettersOfAll steps, c ∈ alphabet := fun c => List.mem_of_mem_filter
  constructor
  · intro hno v hv
    have hletters : v.OfLetters := Valuation.ofLetters_iff.mpr fun c hc => hupper c (hv.mem_iff.mp hc)
    have hkeys : ∀ f, ∀ c ∈ letters f, c ∈ v.keys := fun f c hc =>
      hv.mem_iff.mpr (mem_alphabet.mpr (mem_letters.mp hc).1)
    have hover : ∀ f ∈ steps, evaluateLetters f (.assign (lettersOfAll steps) v.value) = evaluateLetters f v := fun f hf =>
      evaluateLetters_assign hletters (hkeys f) (fun c hc => hupper c (hsub c hc)) fun c hc => mem_lettersOfAll.mpr ⟨f, hf, hc⟩
    obtain ⟨f, hf⟩ := List.exists_mem_of_ne_nil _ hne
    obtain ⟨b, hvalue⟩ := (hread f hf).exists_value hletters (hkeys f)
    refine ⟨b, fun g hg => ?_⟩
    rw [← hvalue, ← hover f hf, ← hover g hg]
    by_contra hdiffer
    exact hno _ (Valuation.keys_assign _ _) ⟨g, hg, f, hf, hdiffer⟩
  · rintro h v hv ⟨f, hf, g, hg, hdiffer⟩
    have hover : ∀ f ∈ steps, evaluateLetters f (.assign alphabet v.value) = evaluateLetters f v := fun f hf =>
      evaluateLetters_assign (ofLetters_of_keys hv) (fun c hc => hv ▸ mem_lettersOfAll.mpr ⟨f, hf, hc⟩) hupper
        fun c hc => mem_alphabet.mpr (mem_letters.mp hc).1
    obtain ⟨b, hb⟩ := h (.assign alphabet v.value) (by rw [Valuation.keys_assign])
    rw [← hover f hf, ← hover g hg, hb f hf, hb g hg] at hdiffer
    exact hdiffer rfl

/-! ## The verdict -/

/-- The verdict on two or more steps with letters is that on the rows for these. -/
theorem ofSteps_eq_map {steps : List String} (hlength : 2 ≤ steps.length) (hl : lettersOfAll steps ≠ []) :
    Verdict.ofSteps steps = (rowsOf (lettersOfAll steps) steps).map (.ofRows (lettersOfAll steps) steps) := by
  rw [Verdict.ofSteps, if_neg (by omega), if_neg (by simpa using hl)]

/-- Two steps or more with letters have a verdict exactly if they have rows, and it is the verdict on these. -/
theorem verdict_eq_ok_iff {steps : List String} (hlength : 2 ≤ steps.length) (hl : lettersOfAll steps ≠ []) {v : Verdict} :
    Verdict.ofSteps steps = .ok v ↔
      ∃ rows, rowsOf (lettersOfAll steps) steps = .ok rows ∧ v = .ofRows (lettersOfAll steps) steps rows := by
  rw [ofSteps_eq_map hlength hl]
  cases rowsOf (lettersOfAll steps) steps <;> simp [Except.map, eq_comm]

/-- A verdict with rows has letters, and its rows are those of their valuations. -/
theorem rowsOf_of_ofSteps (h : Verdict.ofSteps steps = .ok v) (hstatus : v.status = .ok) :
    v.letters = lettersOfAll steps ∧ v.letters ≠ [] ∧ v.steps = steps ∧ rowsOf (lettersOfAll steps) steps = .ok v.rows := by
  by_cases hlength : 2 ≤ steps.length
  · by_cases hl : lettersOfAll steps = []
    · rw [Verdict.ofSteps, if_neg (by omega), if_pos (by rw [hl]; rfl)] at h
      obtain rfl := Except.ok.inj h
      cases hstatus
    · obtain ⟨rows, hrows, rfl⟩ := (verdict_eq_ok_iff hlength hl).mp h
      exact ⟨rfl, hl, rfl, hrows⟩
  · rw [Verdict.ofSteps, if_pos (by omega)] at h
    obtain rfl := Except.ok.inj h
    cases hstatus

/-- The rows of a verdict agree exactly when no two steps differ under any valuation of the letters. -/
theorem allEqual_ofRows_iff {steps : List String} {xs : List Char} {rows : List Row} (hx : xs.Nodup)
    (h : rowsOf xs steps = .ok rows) :
    (Verdict.ofRows xs steps rows).allEqual = true ↔ ∀ v : Valuation Char, v.keys = xs → ¬Differ steps v := by
  have hvalues := (rowsOf_eq_ok_iff.mp h).2
  have hrows : (Verdict.ofRows xs steps rows).allEqual = true ↔ ∀ r ∈ rows, r.isAgreeing = true := by simp [Verdict.ofRows]
  rw [hrows]
  constructor
  · intro hagree v hv
    obtain ⟨r, hr, -, rfl, -⟩ := exists_filter_assignment hx h hv
    exact (isAgreeing_iff (hvalues r hr)).mp (hagree r hr)
  · intro hno r hr
    exact (isAgreeing_iff (hvalues r hr)).mpr (hno _ (keys_assignment hx h hr))

/-- The verdict on two or more steps with letters decides whether they are equivalent. There is one exactly when all steps are
well formed. It finds them all equal exactly when they have one value under each valuation of all letters, it counts the
valuations of their letters under which some two of them differ, and for each of these it has one row, which names the steps that
differ from the first one. -/
theorem verdict_of_steps {steps : List String} (hlength : 2 ≤ steps.length) (hl : ∃ f ∈ steps, letters f ≠ []) :
    ((∃ v, Verdict.ofSteps steps = .ok v) ↔ ∀ f ∈ steps, WellFormed f) ∧
    ∀ v, Verdict.ofSteps steps = .ok v →
      (v.allEqual = true ↔
        ∀ a : Valuation Char, a.keys.Perm alphabet → ∃ b, ∀ f ∈ steps, evaluateLetters f a = .ok b) ∧
      v.mismatchCount = {a : Valuation Char | a.keys = lettersOfAll steps ∧ Differ steps a}.ncard ∧
      ∀ a : Valuation Char, a.keys = lettersOfAll steps → Differ steps a →
        ∃ r, v.rows.filter (·.assignment = a) = [r] ∧ r.isAgreeing = false ∧ r.mismatchedSteps.Pairwise (· < ·) ∧
          ∀ i, i ∈ r.mismatchedSteps ↔
            ∃ f g, steps[i]? = some f ∧ steps[0]? = some g ∧ evaluateLetters f a ≠ evaluateLetters g a := by
  have hl : lettersOfAll steps ≠ [] := lettersOfAll_ne_nil hl
  have hne : steps ≠ [] := by
    rintro rfl
    exact hl rfl
  have hx := nodup_lettersOfAll steps
  constructor
  · rw [← exists_rowsOf_iff]
    simp only [verdict_eq_ok_iff hlength hl]
    exact ⟨fun ⟨_, rows, h, _⟩ => ⟨rows, h⟩, fun ⟨rows, h⟩ => ⟨_, rows, h, rfl⟩⟩
  · intro v hv
    obtain ⟨rows, hrows, rfl⟩ := (verdict_eq_ok_iff hlength hl).mp hv
    obtain ⟨hassign, hvalues⟩ := rowsOf_eq_ok_iff.mp hrows
    refine ⟨?_, length_filter_isAgreeing hx hrows, fun a ha hdiffer => ?_⟩
    · rw [← forall_not_differ_iff hne (exists_rowsOf_iff.mp ⟨rows, hrows⟩)]
      have hzero : (Verdict.ofRows (lettersOfAll steps) steps rows).allEqual = true ↔ ∀ r ∈ rows, r.isAgreeing = true := by
        simp [Verdict.ofRows]
      rw [hzero]
      constructor
      · intro h a ha
        obtain ⟨r, hr, -, rfl, hvalues⟩ := exists_filter_assignment hx hrows ha
        exact (isAgreeing_iff hvalues).mp (h r hr)
      · intro h r hr
        exact (isAgreeing_iff (hvalues r hr)).mpr (h _ (keys_assignment hx hrows hr))
    · obtain ⟨r, -, hr, rfl, hvalues⟩ := exists_filter_assignment hx hrows ha
      refine ⟨r, hr, ?_, pairwise_mismatchedSteps r, fun i => mem_mismatchedSteps_iff hvalues⟩
      exact Bool.eq_false_iff.mpr fun hagree => (isAgreeing_iff hvalues).mp hagree hdiffer

/-- `A`, `A` and `!A & B` are compared: the third differs from the others for a true `A`, and for a false one if `B` is true. -/
theorem verdict_of_third_step :
    ∃ v, Verdict.ofSteps ["A", "A", "!A & B"] = .ok v ∧
      {a : Valuation Char | a.keys = ['A', 'B'] ∧ Differ ["A", "A", "!A & B"] a}.ncard = 3 ∧
      (¬∀ a : Valuation Char, a.keys.Perm alphabet → ∃ b, ∀ f ∈ ["A", "A", "!A & B"], evaluateLetters f a = .ok b) ∧
      ∃ r, v.rows.filter (·.assignment = [('A', false), ('B', true)]) = [r] ∧ 2 ∈ r.mismatchedSteps ∧ 1 ∉ r.mismatchedSteps := by
  obtain ⟨v, hv⟩ : ∃ v, Verdict.ofSteps ["A", "A", "!A & B"] = .ok v ∧ v.allEqual = false ∧ v.mismatchCount = 3 :=
    ⟨.ofRows ['A', 'B'] ["A", "A", "!A & B"]
      [⟨[('A', true), ('B', true)], [true, true, false]⟩, ⟨[('A', true), ('B', false)], [true, true, false]⟩,
        ⟨[('A', false), ('B', true)], [false, false, true]⟩, ⟨[('A', false), ('B', false)], [false, false, false]⟩],
      by decide⟩
  obtain ⟨hv, hequal, hcount⟩ := hv
  obtain ⟨hall, hmismatch, hrows⟩ := (verdict_of_steps (by decide) ⟨"A", by simp, by decide⟩).2 v hv
  have hdiffer : Differ ["A", "A", "!A & B"] [('A', false), ('B', true)] := ⟨"A", by simp, "!A & B", by simp, by decide⟩
  obtain ⟨r, hr, -, -, hmem⟩ := hrows _ rfl hdiffer
  refine ⟨v, hv, hmismatch.symm.trans hcount, fun h => ?_, r, hr, (hmem 2).mpr ?_, fun h => ?_⟩
  · rw [hall.mpr h] at hequal
    cases hequal
  · exact ⟨"!A & B", "A", rfl, rfl, by decide⟩
  · obtain ⟨f, g, hf, hg, hne⟩ := (hmem 1).mp h
    obtain rfl : "A" = f := by simpa using hf
    obtain rfl : "A" = g := by simpa using hg
    exact hne rfl

end Propositional
