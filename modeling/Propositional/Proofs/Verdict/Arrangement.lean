import Propositional.Proofs.Verdict.Equivalence

/-!
# The order of the steps

Each step of a derivation is compared with the first one only. But a row agrees exactly when no two of its steps differ, so a
verdict tells the same whichever step comes first (`exists_tellsSame`): the order of the steps does not count, nor how often a
step stands there, nor a further step that is equivalent to one of them (`verdict_of_rearranged`).
-/

namespace Propositional

/-- Under every valuation of all letters, two formulas have the same value, or neither has one. -/
def Equivalent (f g : String) : Prop :=
  ∀ v : Valuation Char, v.keys.Perm alphabet → ∀ b, evaluateLetters f v = .ok b ↔ evaluateLetters g v = .ok b

/-- A verdict tells the same as another one: the values in its rows stand in relation to the values there, and all else is
equal. -/
structure Verdict.TellsSame (values : List Bool → List Bool → Prop) (v v' : Verdict) : Prop where
  status : v'.status = v.status
  letters : v'.letters = v.letters
  allEqual : v'.allEqual = v.allEqual
  mismatchCount : v'.mismatchCount = v.mismatchCount
  rows : List.Forall₂ (fun r r' => r'.assignment = r.assignment ∧ r'.isAgreeing = r.isAgreeing ∧ values r.results r'.results)
    v.rows v'.rows

/-! ## Equivalent formulas -/

section Equivalent

variable {f g : String}

/-- What is equivalent to a well formed formula is well formed. -/
theorem Equivalent.wellFormed (h : Equivalent f g) (hf : WellFormed f) : WellFormed g := by
  have hkeys : (Valuation.assign alphabet fun _ => true).keys = alphabet := Valuation.keys_assign _ _
  have hv := Valuation.ofLetters_assign (fun c => mem_alphabet.mp) fun _ => true
  obtain ⟨b, hb⟩ := hf.exists_value hv fun c hc => hkeys ▸ mem_alphabet.mpr (mem_letters.mp hc).1
  exact wellFormed_of_evaluateLetters hv ((h _ (by rw [hkeys]) b).mp hb)

/-- Equivalent formulas have the same values under valuations of no more than their letters. -/
theorem Equivalent.evaluateLetters_iff (h : Equivalent f g) {v : Valuation Char} (hv : v.OfLetters)
    (hf : ∀ c ∈ letters f, c ∈ v.keys) (hg : ∀ c ∈ letters g, c ∈ v.keys) (b : Bool) :
    evaluateLetters f v = .ok b ↔ evaluateLetters g v = .ok b := by
  have hupper : ∀ c ∈ alphabet, c.isUpper := fun c => mem_alphabet.mp
  have hletters : ∀ f : String, ∀ c ∈ letters f, c ∈ alphabet := fun f c hc => mem_alphabet.mpr (mem_letters.mp hc).1
  rw [← evaluateLetters_assign hv hf hupper (hletters f), ← evaluateLetters_assign hv hg hupper (hletters g)]
  exact h _ (by rw [Valuation.keys_assign]) b

/-- Formulas that a verdict finds equal are equivalent. -/
theorem Equivalent.of_allEqual (hl : lettersOfAll [f, g] ≠ []) {v : Verdict} (h : Verdict.ofSteps [f, g] = .ok v)
    (hequal : v.allEqual = true) : Equivalent f g := by
  obtain ⟨rows, hrows, rfl⟩ := (verdict_eq_ok_iff (by simp) hl).mp h
  have hnever := (allEqual_ofRows_iff (nodup_lettersOfAll [f, g]) hrows).mp hequal
  intro a ha b
  obtain ⟨b', hb'⟩ := (forall_not_differ_iff (by simp) (exists_rowsOf_iff.mp ⟨rows, hrows⟩)).mp hnever a ha
  rw [hb' f (by simp), hb' g (by simp)]

end Equivalent

/-! ## The same rows but for the values -/

section Verdicts

variable {steps steps' : List String}

/-- Rows that stand for the same valuations and agree alike make up verdicts that tell the same. -/
theorem Verdict.tellsSame_ofRows {values : List Bool → List Bool → Prop} {xs : List Char} {rows rows' : List Row}
    (h : List.Forall₂ (fun r r' => r'.assignment = r.assignment ∧ r'.isAgreeing = r.isAgreeing ∧ values r.results r'.results)
      rows rows') : TellsSame values (ofRows xs steps rows) (ofRows xs steps' rows') := by
  have hcount : (rows'.filter (!·.isAgreeing)).length = (rows.filter (!·.isAgreeing)).length := by
    induction h with
    | nil => rfl
    | cons hr _ ih => rw [List.filter_cons, List.filter_cons, hr.2.1]; split <;> simp [ih]
  exact ⟨rfl, rfl, by rw [ofRows, ofRows, hcount], hcount, h⟩

/-- If the letters are the same and steps differ under the same valuations, there are verdicts on both lists of steps, and they
tell the same. Without letters nothing is compared. -/
theorem exists_tellsSame {values : List Bool → List Bool → Prop} (hlength : 2 ≤ steps.length) (hlength' : 2 ≤ steps'.length)
    (hread : ∀ f ∈ steps, WellFormed f) (hread' : ∀ f ∈ steps', WellFormed f) (hletters : lettersOfAll steps' =
      lettersOfAll steps)
    (hdiffer : ∀ a : Valuation Char, a.keys = lettersOfAll steps → (Differ steps' a ↔ Differ steps a))
    (hvalues : ∀ a : Valuation Char, a.keys = lettersOfAll steps → ∀ bs bs',
      List.Forall₂ (fun f b => evaluateLetters f a = .ok b) steps bs →
        List.Forall₂ (fun f b => evaluateLetters f a = .ok b) steps' bs' → values bs bs') :
    ∃ v v', Verdict.ofSteps steps = .ok v ∧ Verdict.ofSteps steps' = .ok v' ∧ v.TellsSame values v' := by
  by_cases hl : lettersOfAll steps = []
  · have hnone : ∀ {steps : List String}, 2 ≤ steps.length → lettersOfAll steps = [] →
        Verdict.ofSteps steps = .ok { steps := steps, status := .noVariables } := by
      intro steps hlength hl
      rw [Verdict.ofSteps, if_neg (by omega), if_pos (by rw [hl]; rfl)]
    exact ⟨_, _, hnone hlength hl, hnone hlength' (hletters.trans hl), rfl, rfl, rfl, rfl, .nil⟩
  · obtain ⟨rows, hrows⟩ := exists_rowsOf_iff.mpr hread
    obtain ⟨rows', hrows'⟩ := exists_rowsOf_iff.mpr hread'
    refine ⟨_, _, (verdict_eq_ok_iff hlength hl).mpr ⟨rows, hrows, rfl⟩,
      (verdict_eq_ok_iff hlength' (hletters ▸ hl)).mpr ⟨rows', hrows', rfl⟩, ?_⟩
    rw [hletters] at hrows' ⊢
    have hrow : List.Forall₂ (fun a r => a.keys = lettersOfAll steps ∧ Row.ofValuation steps a = .ok r)
        (valuations (lettersOfAll steps)) rows :=
      (List.forall₂_and_left _ _).mpr ⟨fun a => (Valuation.mem_valuations (nodup_lettersOfAll steps)).mp, mapM_eq_ok_iff.mp hrows⟩
    refine Verdict.tellsSame_ofRows (forall₂_trans hrow.flip (fun r a r' hr hr' => ?_) (mapM_eq_ok_iff.mp hrows'))
    obtain ⟨hkeys, hr⟩ := hr
    obtain ⟨rfl, heval⟩ := ofValuation_eq_ok_iff.mp hr
    obtain ⟨he, heval'⟩ := ofValuation_eq_ok_iff.mp hr'
    refine ⟨he, ?_, hvalues _ hkeys _ _ heval heval'⟩
    rw [Bool.eq_iff_iff, isAgreeing_iff heval, isAgreeing_iff (he ▸ heval'), he, hdiffer _ hkeys]

/-! ## Other lists of steps -/

/-- Steps with the same letters have them in the same order. -/
theorem lettersOfAll_congr (h : ∀ c, (∃ f ∈ steps', c ∈ letters f) ↔ ∃ f ∈ steps, c ∈ letters f) :
    lettersOfAll steps' = lettersOfAll steps := by
  refine List.filter_congr fun c hc => ?_
  have hmem := h c
  rw [← mem_lettersOfAll, ← mem_lettersOfAll, lettersOfAll, lettersOfAll, List.mem_filter, List.mem_filter, and_iff_right hc,
    and_iff_right hc] at hmem
  exact Bool.eq_iff_iff.mpr hmem

/-- The steps of a list in any order, and as often as one likes. -/
theorem exists_tellsSame_of_places (hlength : 2 ≤ steps.length) (hlength' : 2 ≤ steps'.length) (hread : ∀ f ∈ steps, WellFormed f)
    {places : List Nat} (hplaces : List.Forall₂ (fun i f => steps[i]? = some f) places steps') (hall : ∀ f ∈ steps, f ∈ steps') :
    ∃ v v', Verdict.ofSteps steps = .ok v ∧ Verdict.ofSteps steps' = .ok v' ∧
      v.TellsSame (fun bs bs' => List.Forall₂ (fun i b => bs[i]? = some b) places bs') v' := by
  have hmem : ∀ f, f ∈ steps' ↔ f ∈ steps := by
    refine fun f => ⟨fun hf => ?_, hall f⟩
    obtain ⟨i, -, hi⟩ := exists_mem_of_forall₂ hplaces.flip hf
    exact List.mem_of_getElem? hi
  refine exists_tellsSame hlength hlength' hread (fun f hf => hread f ((hmem f).mp hf)) ?_ (fun a _ => ?_)
    fun a _ bs bs' hbs hbs' => forall₂_trans hplaces (fun i f b' hi hb' => ?_) hbs'
  · exact lettersOfAll_congr fun c => by simp only [hmem]
  · simp only [Differ, hmem]
  · obtain ⟨b, hb, heval⟩ := exists_getElem?_of_forall₂ hbs hi
    rw [hb, Except.ok.inj (heval.symm.trans hb')]

/-- One more step that is equivalent to another one. In place of the further step there is the one that it is equivalent to. -/
theorem exists_tellsSame_insert {before after : List String} (hlength : 2 ≤ (before ++ after).length)
    (hread : ∀ f ∈ before ++ after, WellFormed f) {j : Nat} {f g : String} (hj : (before ++ after)[j]? = some f)
    (hequiv : Equivalent f g) (hletters : ∀ c ∈ letters g, c ∈ lettersOfAll (before ++ after)) :
    ∃ v v', Verdict.ofSteps (before ++ after) = .ok v ∧ Verdict.ofSteps (before ++ g :: after) = .ok v' ∧
      v.TellsSame (fun bs bs' => ∃ b, bs[j]? = some b ∧ bs' = bs.take before.length ++ b :: bs.drop before.length) v' := by
  have hf := List.mem_of_getElem? hj
  have hmem : ∀ h, h ∈ before ++ g :: after ↔ h = g ∨ h ∈ before ++ after := by
    intro h
    simp only [List.mem_append, List.mem_cons]
    tauto
  have hsame : ∀ a : Valuation Char, a.keys = lettersOfAll (before ++ after) → evaluateLetters g a = evaluateLetters f a := by
    intro a ha
    have hkeys : ∀ c ∈ letters f, c ∈ a.keys := fun c hc => ha ▸ mem_lettersOfAll.mpr ⟨f, hf, hc⟩
    obtain ⟨b, hvalue⟩ := (hread f hf).exists_value (ofLetters_of_keys ha) hkeys
    rw [hvalue, ← hequiv.evaluateLetters_iff (ofLetters_of_keys ha) hkeys (fun c hc => ha ▸ hletters c hc), hvalue]
  refine exists_tellsSame hlength (by simp at hlength ⊢; omega) hread (fun h hh => ?_) (lettersOfAll_congr fun c => ?_)
    (fun a ha => ?_) fun a ha bs bs' hbs hbs' => ?_
  · rcases (hmem h).mp hh with rfl | hh
    · exact hequiv.wellFormed (hread f hf)
    · exact hread h hh
  · constructor
    · rintro ⟨h, hh, hc⟩
      rcases (hmem h).mp hh with rfl | hh
      · exact mem_lettersOfAll.mp (hletters c hc)
      · exact ⟨h, hh, hc⟩
    · rintro ⟨h, hh, hc⟩
      exact ⟨h, (hmem h).mpr (.inr hh), hc⟩
  · have hother : ∀ h ∈ before ++ g :: after, ∃ h' ∈ before ++ after, evaluateLetters h a = evaluateLetters h' a := by
      intro h hh
      rcases (hmem h).mp hh with rfl | hh
      · exact ⟨f, hf, hsame a ha⟩
      · exact ⟨h, hh, rfl⟩
    constructor
    · rintro ⟨h, hh, k, hk, hne⟩
      obtain ⟨h', hh', he⟩ := hother h hh
      obtain ⟨k', hk', he'⟩ := hother k hk
      exact ⟨h', hh', k', hk', he ▸ he' ▸ hne⟩
    · rintro ⟨h, hh, k, hk, hne⟩
      exact ⟨h, (hmem h).mpr (.inr hh), k, (hmem k).mpr (.inr hk), hne⟩
  · obtain ⟨b, hb, heval⟩ := exists_getElem?_of_forall₂ hbs hj
    have htake := List.forall₂_take before.length hbs
    have hdrop := List.forall₂_drop before.length hbs
    rw [List.take_left] at htake
    rw [List.drop_left] at hdrop
    have hinsert := List.rel_append htake (.cons ((hsame a ha).trans heval) hdrop)
    exact ⟨b, hb, Except.ok.inj ((mapM_eq_ok_iff.mpr hbs').symm.trans (mapM_eq_ok_iff.mpr hinsert))⟩

end Verdicts

/-- The verdict on two or more well formed steps tells the same for the same steps in any other order and number, with the
values in each row where their steps are. It also tells the same with one more step anywhere, over the letters of the others,
that is equivalent to one of them. -/
theorem verdict_of_rearranged {steps : List String} (hlength : 2 ≤ steps.length) (hread : ∀ f ∈ steps, WellFormed f) :
    (∀ (places : List Nat) (steps' : List String), List.Forall₂ (fun i f => steps[i]? = some f) places steps' →
      (∀ f ∈ steps, f ∈ steps') → 2 ≤ steps'.length →
      ∃ v v', Verdict.ofSteps steps = .ok v ∧ Verdict.ofSteps steps' = .ok v' ∧
        v.TellsSame (fun bs bs' => List.Forall₂ (fun i b => bs[i]? = some b) places bs') v') ∧
    ∀ (before after : List String) (j : Nat) (f g : String), steps = before ++ after → steps[j]? = some f → Equivalent f g →
      (∀ c ∈ letters g, c ∈ lettersOfAll steps) →
      ∃ v v', Verdict.ofSteps steps = .ok v ∧ Verdict.ofSteps (before ++ g :: after) = .ok v' ∧
        v.TellsSame (fun bs bs' => ∃ b, bs[j]? = some b ∧ bs' = bs.take before.length ++ b :: bs.drop before.length) v' := by
  refine ⟨fun places steps' hplaces hall hlength' => exists_tellsSame_of_places hlength hlength' hread hplaces hall, ?_⟩
  rintro before after j f g rfl hj hequiv hletters
  exact exists_tellsSame_insert hlength hread hj hequiv hletters

/-- `A` and `!A & B` differ in three rows, in the other order and with `A` twice as well, and with `!!A` between them. -/
theorem verdict_of_rearranged_twice :
    (∃ v v', Verdict.ofSteps ["A", "!A & B"] = .ok v ∧ Verdict.ofSteps ["!A & B", "A", "A"] = .ok v' ∧
      v.TellsSame (fun bs bs' => List.Forall₂ (fun i b => bs[i]? = some b) [1, 0, 0] bs') v' ∧ v'.mismatchCount = 3) ∧
    Equivalent "A" "!!A" ∧ ∃ v v', Verdict.ofSteps ["A", "!A & B"] = .ok v ∧ Verdict.ofSteps ["A", "!!A", "!A & B"] = .ok v' ∧
      v.TellsSame (fun bs bs' => ∃ b, bs[0]? = some b ∧ bs' = bs.take 1 ++ b :: bs.drop 1) v' := by
  have hverdict : Verdict.ofSteps ["A", "!A & B"] = .ok (.ofRows ['A', 'B'] ["A", "!A & B"]
      [⟨[('A', true), ('B', true)], [true, false]⟩, ⟨[('A', true), ('B', false)], [true, false]⟩,
        ⟨[('A', false), ('B', true)], [false, true]⟩, ⟨[('A', false), ('B', false)], [false, false]⟩]) := by decide
  have hread : ∀ f ∈ ["A", "!A & B"], WellFormed f := by
    obtain ⟨rows, hrows, -⟩ := (verdict_eq_ok_iff (by decide) (by decide)).mp hverdict
    exact exists_rowsOf_iff.mp ⟨rows, hrows⟩
  have hequiv : Equivalent "A" "!!A" := by
    have hequal : Verdict.ofSteps ["A", "!!A"] =
        .ok (.ofRows ['A'] ["A", "!!A"] [⟨[('A', true)], [true, true]⟩, ⟨[('A', false)], [false, false]⟩]) := by decide
    exact .of_allEqual (by decide) hequal (by decide)
  obtain ⟨hplaces, hinsert⟩ := verdict_of_rearranged (by decide) hread
  refine ⟨?_, hequiv, hinsert ["A"] ["!A & B"] 0 "A" "!!A" rfl rfl hequiv (by decide)⟩
  obtain ⟨v, v', hv, hv', hsame⟩ := hplaces [1, 0, 0] ["!A & B", "A", "A"] (.cons rfl (.cons rfl (.cons rfl .nil))) (by simp)
    (by decide)
  refine ⟨v, v', hv, hv', hsame, hsame.mismatchCount.trans ?_⟩
  obtain rfl := Except.ok.inj (hverdict.symm.trans hv)
  decide

end Propositional
