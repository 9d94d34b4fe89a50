import Propositional.Proofs.Evaluation.Variables
import Propositional.Proofs.Latex.Acceptance
import Propositional.Proofs.Latex.Junction
import Propositional.Proofs.Text.Bars

/-!
# Texts of no formula

A lexeme of no kind, or a negation at the end, stays in a text through all rewriting, and no formula has it
(`not_isBroken_of_through`). A backslash directly before a bar is one: neither overlines nor macros take it, so a text whose
normal form is well formed has none (`barsBare_of_wellFormed`).
-/

namespace Propositional.Latex

open Text

/-- A text that holds something else than a formula does: a lexeme of no kind, or a negation at its end. -/
def IsBroken (ts : List Lexeme) : Prop := (∃ s, .other s ∈ ts) ∨ ts.getLast? = some .not

namespace Lexeme

/-- A backslash that no letter follows leaves a lexeme of no kind. A backslash before it takes it, or is taken itself. -/
theorem exists_other_mem_lex {p q : List Char} (hq : ¬StartsWithLetter q) : ∃ s, other s ∈ lex (p ++ '\\' :: q) := by
  have hhead : ∀ {q : List Char}, ¬StartsWithLetter q → ∃ s, other s ∈ lex ('\\' :: q) := by
    intro q hq
    have hname : ([] ++ q).takeWhile Char.isAlpha = [] := takeWhile_isAlpha (by simp) hq
    rw [List.nil_append] at hname
    rw [lex, lexFrom_zero_cons, next_of_backslash, if_pos hname]
    exact ⟨_, List.mem_cons_self⟩
  induction p using List.reverseRecOn generalizing q with
  | nil => exact hhead hq
  | append_singleton p b ih =>
    by_cases hb : b = '\\'
    · subst hb
      rw [List.append_assoc]
      exact ih (not_startsWithLetter_cons (by decide) q)
    · have hjoins : ¬Joins (p ++ [b]) ('\\' :: q) := by
        rw [joins_cons]
        intro hgoes
        have hlast := hgoes.backslash (by decide)
        rw [List.getLast?_concat] at hlast
        exact hb (Option.some.inj hlast)
      obtain ⟨s, hs⟩ := hhead hq
      rw [lex_append hjoins]
      exact ⟨s, List.mem_append_right _ hs⟩

end Lexeme

/-- No formula is broken. -/
theorem not_isBroken_of_through {ts : List Lexeme} {r : Reading Char} {f : Formula Char}
    (hr : ({} : Reading Char).through ts = some r)
    (hf : r.formula? = some f) : ¬IsBroken ts := by
  rintro (⟨s, hs⟩ | hlast)
  · exact Reading.mark?_ne_none_of_through hs hr rfl
  · obtain ⟨us, rfl⟩ := List.getLast?_eq_some_iff.mp hlast
    rw [Reading.through_append] at hr
    obtain ⟨r', -, hr'⟩ := Option.bind_eq_some_iff.mp hr
    rw [Reading.through_singleton] at hr'
    have hnone := Reading.operand_eq_none_of_take hr' (by simp) (by simp)
    obtain ⟨g, c, rfl, -⟩ := Reading.formula?_eq_some.mp hf
    cases hnone

/-- A well formed normal form is that of lexemes that are read as a formula. -/
theorem exists_through_of_wellFormed {strict : Bool} {s : String} {n : Normalized} (h : normalize strict s = .ok n)
    (hw : WellFormed n.formula) : ∃ r f, ({} : Reading Char).through (lexemes s) = some r ∧ r.formula? = some f := by
  have hv := Valuation.ofLetters_assign (fun c => mem_alphabet.mp) fun _ => true
  obtain ⟨b, hb⟩ := hw.exists_value hv fun c hc => by rw [Valuation.keys_assign]; exact List.mem_of_mem_filter hc
  obtain ⟨r, f, hr, hf, -⟩ := (evaluateLetters_normalize_eq_ok_iff h hv).mp hb
  exact ⟨r, f, hr, hf⟩

/-! ## Backslashes before bars -/

/-- The macro of overlines is a backslash and a name. -/
theorem overlineMacro_eq_cons : overlineMacro = '\\' :: "overline".toList := by decide

/-- A bar at the start of a text stays there when its overlines are written as complements: an overline starts with a
backslash. -/
theorem Overlined.head?_written_of_bar {d : Overlined} (h : d.text.head? = some '|') : d.written.head? = some '|' := by
  cases d with
  | nil => cases h
  | char c d => exact h
  | overline w x d =>
    rw [text, overlineMacro_eq_cons] at h
    exact absurd (Option.some.inj h) (by decide)

/-- What has no backslash before a bar in parentheses has none without them. -/
theorem barsBare_of_inParentheses {p : List Char} (h : BarsBare (inParentheses p)) : BarsBare p := by
  refine List.IsChain.infix h ?_
  unfold inParentheses
  split
  · exact List.infix_rfl
  · exact ⟨['('], [')'], by simp⟩

/-- Writing overlines as complements leaves the backslashes before bars. -/
theorem Overlined.barsBare_text {d : Overlined} {rest : List Char} (hd : d.Divides rest) (h : BarsBare d.written) :
    BarsBare d.text := by
  induction d generalizing rest with
  | nil => exact .nil
  | char c d ih =>
    obtain ⟨hhead, hrest⟩ := List.isChain_cons.mp h
    refine List.isChain_cons.mpr ⟨fun x hx hc => ?_, ih hd.2 hrest⟩
    rintro rfl
    exact hhead '|' (head?_written_of_bar hx) hc rfl
  | overline w x d ihx ih =>
    obtain ⟨hblanks, -, hdx, hdd⟩ := hd
    obtain ⟨hx, hrest, -⟩ := List.isChain_append.mp (List.isChain_cons.mp h).2
    have hcontent : BarsBare x.text := ihx hdx (BarsBare.trim_iff.mp (barsBare_of_inParentheses hx))
    have hbraces : BarsBare ('{' :: (x.text ++ '}' :: d.text)) :=
      (hcontent.append ((ih hdd hrest).cons (by decide)) (.inr (by simp))).cons (by decide)
    have hmacro : BarsBare overlineMacro := by decide
    exact hmacro.append ((BarsBare.of_blanks hblanks).append hbraces (.inr (by simp))) (.inl (by decide))

/-- Replacing overlines takes no backslash away from before a bar. -/
theorem barsBare_of_replaceOverlines {s : List Char} (h : BarsBare (replaceOverlines s)) : BarsBare s := by
  obtain ⟨d, u, rfl, hd, hu⟩ := Overlined.exists_divides s
  rw [replaceOverlines_of_divides hd hu] at h
  obtain ⟨hwritten, hrest, -⟩ := List.isChain_append.mp h
  refine (Overlined.barsBare_text hd hwritten).append hrest (.inr ?_)
  rcases hu with rfl | ⟨⟨w, r, rfl, -⟩, -⟩
  · simp
  · rw [overlineMacro_eq_cons]
    simp

/-- Respelling leaves a backslash before a bar. -/
theorem respell_escapedBar (p q : List Char) : ∃ p' q', respell (p ++ '\\' :: '|' :: q) = p' ++ '\\' :: '|' :: q' := by
  have htable : ∀ g ∈ groups, '\\' ∉ g.chars ∧ '|' ∉ g.chars := by decide
  have hkept : ∀ g ∈ groups, ∀ q,
      replaceMatches g.matcher g.native ('\\' :: '|' :: q) = '\\' :: '|' :: replaceMatches g.matcher g.native q := by
    intro g hg q
    obtain ⟨hslash, hbar⟩ := htable g hg
    have hnone : g.base ('\\' :: '|' :: q) = none := by simp [Group.base, either, macroMatcher, macroName?, charMatcher, hslash]
    have hnone' : g.base ('|' :: q) = none := by rw [Group.base_of_ne (by decide), if_neg (by simpa using hbar)]
    rw [replaceMatches, replaceFrom_of_none (Group.matcher_of_base_none hnone),
      replaceFrom_of_none (Group.matcher_of_base_none hnone')]
    rfl
  obtain ⟨p', _, ⟨q', rfl⟩, hp'⟩ := exists_respell_append (T := fun t => ∃ q, t = '\\' :: '|' :: q) (by
    rintro _ ⟨q, rfl⟩
    exact ⟨not_startsWithLetter_cons (by decide) _, List.dropWhile_cons_of_neg (by decide), fun g hg => ⟨_, hkept g hg q⟩⟩) p
      ⟨q, rfl⟩
  exact ⟨p', q', hp'⟩

/-- A text has no backslash directly before a bar if its normal form is well formed. -/
theorem barsBare_of_wellFormed {strict : Bool} {s : String} {n : Normalized} (h : normalize strict s = .ok n)
    (hw : WellFormed n.formula) : BarsBare s.toList := by
  refine barsBare_of_replaceOverlines ?_
  by_contra hnot
  obtain ⟨p, q, hpq⟩ := exists_escapedBar_of_not_barsBare hnot
  obtain ⟨p', q', hrespelled⟩ := respell_escapedBar p q
  obtain ⟨r, f, hr, hf⟩ := exists_through_of_wellFormed h hw
  refine not_isBroken_of_through hr hf (.inl ?_)
  rw [lexemes, hpq, hrespelled]
  exact Lexeme.exists_other_mem_lex (not_startsWithLetter_cons (by decide) _)

end Propositional.Latex
