import Propositional.Proofs.Command.ExitCode
import Propositional.Proofs.Latex.Broken
import Propositional.Proofs.Text.Parts

/-!
# Operators that are cut

A derivation is cut at each `=` outside brackets, one that belongs to an operator included. What is left of the operator stays at
an end of its step through all rewriting: a `!` negates nothing there, and neither `<` nor `>` is part of any formula. So the
steps have no table, and there is no verdict on them (`status_of_cut_operator`).
-/

namespace Propositional

open Text Latex

/-! ## The ends of a step -/

namespace Latex

/-- What a text ends in that is no brace, it ends in when its overlines are written as complements. -/
theorem Overlined.getLast?_written {d : Overlined} {c : Char} (hc : c ≠ '}') (h : d.text.getLast? = some c) :
    d.written.getLast? = some c := by
  induction d with
  | nil => cases h
  | char x d ih =>
    rw [text, List.getLast?_cons] at h
    rw [written, List.getLast?_cons]
    cases hd : d.text.getLast? with
    | some y =>
      rw [hd] at h ih
      rw [ih h]
      rfl
    | none =>
      rw [hd] at h
      cases d with
      | nil => exact h
      | char y d => simp [text] at hd
      | overline w x d => simp [text] at hd
  | overline w x d _ ih =>
    rw [written_overline, List.getLast?_append]
    cases hd : d.text.getLast? with
    | some y =>
      have hlast : (overline w x d).text.getLast? = some y := by
        simp [text, List.getLast?_append, List.getLast?_cons, hd]
      rw [hlast] at h
      rw [hd] at ih
      rw [ih h]
      rfl
    | none =>
      have hlast : (overline w x d).text.getLast? = some '}' := by
        simp [text, List.getLast?_append, List.getLast?_cons, hd]
      rw [hlast] at h
      exact absurd (Option.some.inj h).symm hc

/-- Replacing overlines leaves the last character, unless it is a brace that closes. -/
theorem replaceOverlines_concat {c : Char} (hc : c ≠ '}') (p : List Char) :
    ∃ p', replaceOverlines (p ++ [c]) = p' ++ [c] := by
  obtain ⟨d, s, he, hd, hs⟩ := Overlined.exists_divides (p ++ [c])
  have hlast : (d.text ++ s).getLast? = some c := by rw [← he, List.getLast?_concat]
  rw [he, replaceOverlines_of_divides hd hs]
  refine List.getLast?_eq_some_iff.mp ?_
  rw [List.getLast?_append] at hlast ⊢
  cases hend : s.getLast? with
  | some b => rwa [hend] at hlast
  | none =>
    rw [hend, Option.none_or] at hlast
    exact Overlined.getLast?_written hc hlast

/-- A character that no group of spellings has, and that is no letter, stays at the end of a text. -/
theorem respell_concat {c : Char} (hc : c ∈ ['!', '<']) (p : List Char) : ∃ p', respell (p ++ [c]) = p' ++ [c] := by
  have htable : ∀ c ∈ ['!', '<'], c.isAlpha = false ∧ isBlank c = false ∧
      ∀ g ∈ groups, replaceMatches g.matcher g.native [c] = [c] := by decide
  obtain ⟨ha, hb, hkept⟩ := htable c hc
  obtain ⟨p', _, rfl, hp'⟩ := exists_respell_append (T := (· = [c])) (by
    rintro _ rfl
    exact ⟨not_startsWithLetter_cons ha [], List.dropWhile_cons_of_neg (by simp [hb]), hkept⟩) p rfl
  exact ⟨p', hp'⟩

/-- A character that no group of spellings has stays at the start of a text. -/
theorem respell_cons {c : Char} (hs : c ≠ '\\') (hc : ∀ g ∈ groups, c ∉ g.chars) (q : List Char) :
    ∃ q', respell (c :: q) = c :: q' := by
  refine respell_rel (R := fun s _ => ∃ q', s = c :: q') ?_ (t := []) ⟨q, rfl⟩
  rintro g hg _ - ⟨q, rfl⟩
  have hnone : g.base (c :: q) = none := by rw [Group.base_of_ne hs, if_neg (by simpa using hc g hg)]
  exact ⟨_, replaceFrom_of_none (Group.matcher_of_base_none hnone)⟩

/-! ## What is left of an operator -/

namespace Lexeme

/-- A text that is cut behind a `!` or a `<` is broken. -/
theorem isBroken_lex_concat {c : Char} (hc : c ∈ ['!', '<']) (p : List Char) : IsBroken (lex (p ++ [c])) := by
  have htable : ∀ c ∈ ['!', '<'], c.isAlpha = false ∧ c ∈ ['0', '1', ' ', '!', '(', '<', '\\'] ∧
      (lex [c] = [.not] ∨ lex [c] = [other [c]]) := by decide
  obtain ⟨ha, hgoes, hlex⟩ := htable c hc
  by_cases hjoins : Joins p [c]
  · obtain ⟨p', rfl⟩ := List.getLast?_eq_some_iff.mp ((joins_cons.mp hjoins).backslash hgoes)
    rw [List.append_assoc]
    exact .inl (exists_other_mem_lex (not_startsWithLetter_cons ha []))
  · rw [lex_append hjoins]
    rcases hlex with hlex | hlex <;> rw [hlex]
    · exact .inr List.getLast?_concat
    · exact .inl ⟨_, List.mem_append_right _ List.mem_cons_self⟩

/-- A text that is cut before a `>` is broken. -/
theorem isBroken_lex_cons (q : List Char) : IsBroken (lex ('>' :: q)) := by
  have hnext : next '>' q = (some (other ['>']), 0) := by
    rw [next_eq (by decide) (by decide)]
    rfl
  rw [lex, lexFrom_zero_cons, hnext]
  exact .inl ⟨_, List.mem_cons_self⟩

end Lexeme

/-- The lexemes of a text are broken if the text ends in a `!` or a `<`, or starts with a `>`. -/
theorem isBroken_lexemes {s : List Char} (h : (∃ c ∈ ['!', '<'], s.getLast? = some c) ∨ s.head? = some '>') :
    IsBroken (lexemes (String.ofList s)) := by
  rw [lexemes, String.toList_ofList]
  rcases h with ⟨c, hc, hlast⟩ | hfirst
  · obtain ⟨p, rfl⟩ := List.getLast?_eq_some_iff.mp hlast
    have hne : c ≠ '}' := by
      rintro rfl
      exact absurd hc (by decide)
    obtain ⟨p₁, h₁⟩ := replaceOverlines_concat hne p
    obtain ⟨p₂, h₂⟩ := respell_concat hc p₁
    rw [h₁, h₂]
    exact Lexeme.isBroken_lex_concat hc p₂
  · obtain ⟨q, rfl⟩ := List.head?_eq_some_iff.mp hfirst
    rw [replaceOverlines_cons (not_opensOverline_cons (by decide) q)]
    obtain ⟨q', hq'⟩ := respell_cons (c := '>') (by decide) (by decide) (replaceOverlines q)
    rw [hq']
    exact Lexeme.isBroken_lex_cons q'

end Latex

/-! ## The step with the rest of the operator -/

/-- Where an operator is cut, a text of a step ends in its first part or starts with its last one. -/
theorem Derivation.exists_segment_of_cut {s u v : List Char} (hclean : clean s = u ++ '=' :: v) (hdepth : u.foldl depthAfter 0 =
    0)
    (hop : (∃ c ∈ ['!', '<'], u.getLast? = some c) ∨ v.head? = some '>') :
    ∃ t ∈ segments s, (∃ c ∈ ['!', '<'], t.getLast? = some c) ∨ t.head? = some '>' := by
  have hmem : ∀ {p}, p ∈ splitTopLevel ['='] u ∨ p ∈ splitTopLevel ['='] v → trim p ≠ [] → trim p ∈ segments s := by
    intro p hp hne
    rw [segments, hclean, splitTopLevel_append (by decide) hdepth]
    exact List.mem_filter.mpr ⟨List.mem_map_of_mem (List.mem_append.mpr hp), by simpa using hne⟩
  rcases hop with ⟨c, hc, hlast⟩ | hfirst
  · have htable : ∀ c ∈ ['!', '<'], isBlank c = false ∧ ∀ d, splitTopLevelFrom ['='] d [c] = [[c]] := by
      intro c hc
      simp only [List.mem_cons, List.not_mem_nil, or_false] at hc
      rcases hc with rfl | rfl <;> exact ⟨by decide, fun d => rfl⟩
    obtain ⟨hb, hpart⟩ := htable c hc
    obtain ⟨u, rfl⟩ := List.getLast?_eq_some_iff.mp hlast
    obtain ⟨before, last, -, happend⟩ := exists_splitTopLevelFrom_append ['='] u 0
    have hparts : last ++ [c] ∈ splitTopLevel ['='] (u ++ [c]) := by
      rw [splitTopLevel, happend _ _ _ (hpart _)]
      exact List.mem_append_right _ List.mem_cons_self
    obtain ⟨p, hp⟩ := trim_concat hb last
    have ht := hmem (.inl hparts)
    rw [hp] at ht
    exact ⟨_, ht (by simp), .inl ⟨c, hc, List.getLast?_concat⟩⟩
  · obtain ⟨v, rfl⟩ := List.head?_eq_some_iff.mp hfirst
    obtain ⟨first, after, hv⟩ := exists_splitTopLevelFrom_eq_cons ['='] (depthAfter 0 '>') v
    have hparts : '>' :: first ∈ splitTopLevel ['='] ('>' :: v) := by
      rw [splitTopLevel, splitTopLevelFrom, if_neg (by simp), hv]
      exact List.mem_cons_self
    have ht := hmem (.inr hparts)
    rw [trim_cons (by decide)] at ht
    exact ⟨_, ht (by simp), .inr rfl⟩

/-- Each text is read as a step. -/
theorem Derivation.exists_step_of_mem {strict : Bool} {ss : List (List Char)} : ∀ {i : Nat} {ts : List Step},
    stepsFrom strict i ss = .ok ts → ∀ s ∈ ss, ∃ t ∈ ts, normalize strict (String.ofList s) = .ok ⟨t.formula, t.diagnostics⟩ := by
  induction ss with
  | nil => exact fun _ _ hs => by cases hs
  | cons s ss ih =>
    intro i ts h s' hs'
    cases hn : normalize strict (String.ofList s) with
    | error e =>
      simp only [stepsFrom, hn] at h
      cases h
    | ok n =>
      cases hss : stepsFrom strict (i + 1) ss with
      | error e =>
        simp only [stepsFrom, hn, hss] at h
        cases h
      | ok us =>
        simp only [stepsFrom, hn, hss] at h
        obtain rfl := Except.ok.inj h
        rcases List.mem_cons.mp hs' with rfl | hs'
        · exact ⟨_, List.mem_cons_self, hn⟩
        · obtain ⟨t, ht, ht'⟩ := ih hss s' hs'
          exact ⟨t, List.mem_cons_of_mem _ ht, ht'⟩

/-- A verdict that is none of the degenerate ones is on well formed steps. -/
theorem wellFormed_of_ofSteps {steps : List String} {verdict : Verdict} (h : Verdict.ofSteps steps = .ok verdict) :
    verdict.status = .nothingToCompare ∨ verdict.status = .noVariables ∨ ∀ f ∈ steps, WellFormed f := by
  by_cases hlength : 2 ≤ steps.length
  · by_cases hl : lettersOfAll steps = []
    · rw [Verdict.ofSteps, if_neg (by omega), if_pos (by simp [hl])] at h
      exact .inr (.inl (by rw [← Except.ok.inj h]))
    · obtain ⟨rows, hrows, -⟩ := (verdict_eq_ok_iff hlength hl).mp h
      exact .inr (.inr (exists_rowsOf_iff.mp ⟨rows, hrows⟩))
  · rw [Verdict.ofSteps, if_pos (by omega)] at h
    exact .inl (by rw [← Except.ok.inj h])

/-- Where an `=` outside brackets stands behind a `!` or a `<`, or before a `>`, there is no verdict that the steps of the
derivation are equivalent or that they are not: there is none at all, unless nothing is compared. -/
theorem status_of_cut_operator {strict : Bool} {s : String} {u v : List Char}
    (hclean : Derivation.clean s.toList = u ++ '=' :: v) (hdepth : u.foldl depthAfter 0 = 0)
    (hop : u.getLast? = some '!' ∨ u.getLast? = some '<' ∨ v.head? = some '>') :
    ∀ verdict, (Verdict.ofDerivation strict s).result = .ok verdict →
      verdict.status = .nothingToCompare ∨ verdict.status = .noVariables := by
  intro verdict h
  rw [Verdict.ofDerivation, Logged.result_bind, Logged.result_mapError, Derivation.result_stepsLogged,
    mapError_bind_eq_ok_iff] at h
  obtain ⟨steps, hsteps, h⟩ := h
  rw [Logged.result_ofExcept] at h
  have hverdict : Verdict.ofSteps (steps.map (·.formula)) = .ok verdict := by
    cases hof : Verdict.ofSteps (steps.map (·.formula)) with
    | error e =>
      rw [hof] at h
      cases h
    | ok v =>
      rw [hof] at h
      exact congrArg _ (Except.ok.inj h)
  have hcut : (∃ c ∈ ['!', '<'], u.getLast? = some c) ∨ v.head? = some '>' := by
    rcases hop with hop | hop | hop
    · exact .inl ⟨_, by simp, hop⟩
    · exact .inl ⟨_, by simp, hop⟩
    · exact .inr hop
  rcases wellFormed_of_ofSteps hverdict with hstatus | hstatus | hall
  · exact .inl hstatus
  · exact .inr hstatus
  · obtain ⟨t, ht, hends⟩ := Derivation.exists_segment_of_cut hclean hdepth hcut
    obtain ⟨step, hstep, hn⟩ := Derivation.exists_step_of_mem hsteps t ht
    obtain ⟨r, f, hr, hf⟩ := exists_through_of_wellFormed hn (hall _ (List.mem_map_of_mem hstep))
    exact absurd (isBroken_lexemes hends) (not_isBroken_of_through hr hf)

/-- Steps without letters are not compared, and with letters the step `A !` fails. -/
theorem status_of_cut_operator_xor :
    Derivation.clean "1 != 0".toList = "1 !".toList ++ '=' :: " 0".toList ∧ "1 !".toList.foldl depthAfter 0 = 0 ∧
      "1 !".toList.getLast? = some '!' ∧
      (∃ verdict, (Verdict.ofDerivation true "1 != 0").result = .ok verdict ∧
        (verdict.status = .nothingToCompare ∨ verdict.status = .noVariables)) ∧
      ∃ e, (Verdict.ofDerivation true "A != B").result = .error e := by
  have hclean : Derivation.clean "1 != 0".toList = "1 !".toList ++ '=' :: " 0".toList := by decide
  have hdepth : "1 !".toList.foldl depthAfter 0 = 0 := by decide
  have hverdict : (Verdict.ofDerivation true "1 != 0").result = .ok { steps := ["1!", "0"], status := .noVariables } := by decide
  exact ⟨hclean, hdepth, rfl, ⟨_, hverdict, status_of_cut_operator hclean hdepth (.inl rfl) _ hverdict⟩, _, rfl⟩

end Propositional
