import Propositional.Proofs.Latex.Layout
import Propositional.Proofs.Latex.Strictness

/-!
# The sources of steps

A step keeps its text on one line, with one space between its words, while its formula was read from the text as it stood. As the
layout of a text does not show in its normal form, the text that is kept gives the formula and the diagnostics of the step again
(`normalize_layout`).
-/

namespace Propositional

open Text Latex

/-- What the demand for strictness does not refuse is the same without it. -/
theorem Latex.normalize_lenient {strict : Bool} {s : String} {n : Normalized} (h : normalize strict s = .ok n) :
    normalize false s = .ok n := by
  cases strict with
  | false => exact h
  | true =>
    obtain ⟨m, hm⟩ := exists_normalize s
    rw [normalize_strict hm] at h
    unfold heed at h
    split at h
    · rw [← Except.ok.inj h]
      exact hm
    · cases h

namespace Derivation

/-- A step keeps the words of the text that its formula was read from. -/
theorem exists_text_of_mem_stepsFrom {strict : Bool} {ss : List (List Char)} : ∀ {i : Nat} {ts : List Step},
    stepsFrom strict i ss = .ok ts → ∀ t ∈ ts, ∃ s, t.source = String.ofList (collapse s) ∧
      normalize strict (String.ofList s) = .ok ⟨t.formula, t.diagnostics⟩ := by
  induction ss with
  | nil =>
    intro i ts h t ht
    obtain rfl := Except.ok.inj h
    cases ht
  | cons s ss ih =>
    intro i ts h t ht
    cases hn : normalize strict (String.ofList s) with
    | error e =>
      simp only [stepsFrom, hn] at h
      cases h
    | ok n =>
      cases hss : stepsFrom strict (i + 1) ss with
      | error e =>
        simp only [stepsFrom, hn, hss] at h
        cases h
      | ok us =>
        simp only [stepsFrom, hn, hss] at h
        obtain rfl := Except.ok.inj h
        rcases List.mem_cons.mp ht with rfl | ht
        · exact ⟨s, rfl, hn⟩
        · exact ih hss t ht

end Derivation

/-- The layout of a formula does not show in its normal form. Formulas that are the same but for their runs of blanks, which may
hold other blanks, and for blanks at their ends, have the same normal form with the same diagnostics, or are refused for the same
arrow. So what a step of a derivation keeps of its text on one line has the formula of the step as its normal form, with the
diagnostics of the step, whether the derivation was read strictly or not. -/
theorem normalize_layout :
    (∀ s t : String, Reflowed (trim s.toList) (trim t.toList) → ∀ strict, normalize strict s = normalize strict t) ∧
    ∀ (strict : Bool) (s : String) (steps : List Step), Derivation.steps strict s = .ok steps → ∀ t ∈ steps,
      normalize strict t.source = .ok ⟨t.formula, t.diagnostics⟩ ∧ normalize false t.source = .ok ⟨t.formula, t.diagnostics⟩ := by
  refine ⟨fun s t h strict => ?_, fun strict s steps h t ht => ?_⟩
  · have := normalize_reflowed h strict
    rwa [String.ofList_toList, String.ofList_toList] at this
  · obtain ⟨text, hsource, hn⟩ := Derivation.exists_text_of_mem_stepsFrom h t ht
    have hcollapsed : normalize strict t.source = .ok ⟨t.formula, t.diagnostics⟩ := by
      rw [hsource, ← normalize_reflowed (.trim_collapse text) strict]
      exact hn
    exact ⟨hcollapsed, normalize_lenient hcollapsed⟩

/-- A formula on two lines, with a backslash before two spaces, and on one line, and a step on two lines with an arrow that has no
operand. -/
theorem normalize_layout_lines :
    normalize true " A \\lor\n\t\\  B" = normalize true "A \\lor \\ B" ∧
      Derivation.steps false "A \\land\n\t-> B" = .ok [⟨1, "A & | B", "A \\land -> B", ["A & -> B"]⟩] ∧
      normalize false "A \\land -> B" = .ok ⟨"A & | B", ["A & -> B"]⟩ := by
  have hlayout : Reflowed (trim " A \\lor\n\t\\  B".toList) (trim "A \\lor \\ B".toList) := by
    have hsqueeze : squeeze (trim " A \\lor\n\t\\  B".toList) = trim "A \\lor \\ B".toList := by decide
    rw [← hsqueeze]
    exact .squeeze _
  have hsteps : Derivation.steps false "A \\land\n\t-> B" = .ok [⟨1, "A & | B", "A \\land -> B", ["A & -> B"]⟩] := by decide
  obtain ⟨hformulas, hderivations⟩ := normalize_layout
  exact ⟨hformulas _ _ hlayout true, hsteps, (hderivations false _ _ hsteps _ List.mem_cons_self).2⟩

end Propositional
