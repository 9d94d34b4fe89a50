import Propositional.Proofs.Latex.Elimination
import Propositional.Proofs.Latex.Lexing
import Propositional.Proofs.Latex.Reflow

/-!
# The layout of lexemes

Texts that differ in their layout only are cut into the same lexemes, but for one case: a backslash without a name takes the
character behind it, which may be a blank. Such lexemes are settled by leaving the blank out, which nothing sees that is done with
lexemes. So the normal form of a formula does not depend on its layout (`normalize_reflowed`).
-/

namespace Propositional.Latex

open Text

namespace Lexeme

/-! ## Cutting -/

/-- A lexeme goes no further than the word in which it starts, unless it is a backslash before a blank. -/
theorem next_append {c : Char} {p s : List Char} (hb : isBlank c = false) (hc : c ≠ '\\' ∨ p ≠ []) (h : AtBlank s) :
    next c (p ++ s) = next c p := by
  by_cases hs : c = '\\'
  · subst hs
    obtain ⟨d, p, rfl⟩ := List.exists_cons_of_ne_nil (hc.resolve_left fun hne => hne rfl)
    rw [next_of_backslash, next_of_backslash,
      h.takeWhile_append fun c ha => isBlank_eq_false_of_isAlphanum (isAlphanum_of_isAlpha ha)]
    rfl
  · have htwo : ∀ q ∈ [['-', '>'], ['=', '>'], ['>'], ['=']], q <+: p ++ s ↔ q <+: p := by
      intro q hq
      apply h.prefix_append_iff
      revert q
      decide
    simp only [List.forall_mem_cons] at htwo
    obtain ⟨harrow, hdouble, hgreater, hequals, -⟩ := htwo
    have hlower := h.takeWhile_append (p := Char.isLower)
      (fun c hl => isBlank_eq_false_of_isAlphanum (isAlphanum_of_isAlpha (isAlpha_iff.mpr (.inr hl)))) p
    have hrun := h.takeWhile_append (p := (· = '=')) (fun c he => by rw [of_decide_eq_true he]; decide) p
    rw [next_eq hb hs, next_eq hb hs, hlower, hrun]
    simp only [harrow, hdouble, hgreater, hequals]

/-- A lexeme without the blank that a backslash without a name may have taken. -/
def settled : Lexeme → Lexeme
  | other ('\\' :: s) => other ('\\' :: trimEnd s)
  | t => t

/-- A backslash at the end of its word is settled to a lexeme of its own, and the lexemes behind it are those of the rest. -/
theorem map_settled_lexFrom_backslash {s : List Char} (h : AtBlank s) :
    (lexFrom 0 ('\\' :: s)).map settled = other ['\\'] :: (lexFrom 0 s).map settled := by
  have hname := h.takeWhile_append (p := Char.isAlpha) (fun c ha => isBlank_eq_false_of_isAlphanum (isAlphanum_of_isAlpha ha)) []
  rw [List.nil_append, List.takeWhile_nil] at hname
  rw [lexFrom_zero_cons, next_of_backslash, if_pos hname, lexFrom_eq_drop]
  have hsettled : settled (other ('\\' :: s.take 1)) = other ['\\'] := by
    have htrim : trimEnd (s.take 1) = [] := trimEnd_of_blank fun c hc => h c (by
      cases s with
      | nil => cases hc
      | cons b s =>
        obtain rfl : c = b := by simpa using hc
        rfl)
    rw [settled, htrim]
  have hrest : lexFrom 0 (s.drop 1) = lexFrom 0 s := by
    cases s with
    | nil => rfl
    | cons b s => exact (lexFrom_blank (h b rfl) s).symm
  rw [List.map_append, Option.toList_some, List.map_singleton, hsettled, hrest, List.singleton_append]

/-- Texts that differ in their layout are cut into the same lexemes, once these are settled. -/
theorem map_settled_lexFrom {s t : List Char} (h : Respaced s t) : (lexFrom 0 s).map settled = (lexFrom 0 t).map settled := by
  induction h using Respaced.scan with
  | @blanks w w' hw hw' => rw [← List.append_nil w, ← List.append_nil w', lexFrom_blanks hw, lexFrom_blanks hw']
  | gap _ _ hw hw' _ ih => rwa [lexFrom_blanks hw, lexFrom_blanks hw']
  | @char c s t hc h ih =>
    obtain ⟨p, s', t', rfl, rfl, -, hs, ht, h'⟩ := h.exists_word
    by_cases hp : c ≠ '\\' ∨ p ≠ []
    · have hle := next_le hp
      rw [lexFrom_zero_cons, lexFrom_zero_cons, next_append hc hp hs, next_append hc hp ht, lexFrom_eq_drop,
        lexFrom_eq_drop _ (p ++ t'), List.drop_append_of_le_length hle, List.drop_append_of_le_length hle, List.map_append,
        List.map_append]
      refine congrArg _ (ih (h'.append_left _) ?_)
      simp only [List.length_append, List.length_drop]
      omega
    · obtain ⟨rfl, rfl⟩ : c = '\\' ∧ p = [] := by simpa using hp
      rw [List.nil_append, List.nil_append, map_settled_lexFrom_backslash hs, map_settled_lexFrom_backslash ht]
      exact congrArg _ (ih h (Nat.le_refl _))

/-! ## Settled lexemes -/

/-- A lexeme of no kind is settled as one of no kind. -/
theorem exists_settled_other (s : List Char) : ∃ s', settled (other s) = other s' := by
  unfold settled
  split
  · exact ⟨_, rfl⟩
  · exact ⟨s, rfl⟩

/-- Settling shows neither in the text of lexemes nor in anything that is done with them. -/
theorem settled_eq_iff {t u : Lexeme} (hu : ∀ s, u ≠ other s) : settled t = u ↔ t = u := by
  cases t with
  | other s =>
    obtain ⟨s', hs'⟩ := exists_settled_other s
    rw [hs']
    exact iff_of_false (hu s').symm (hu s).symm
  | _ => rfl

/-- A lexeme is written as the settled one up to its layout. -/
theorem reflowed_spaced (t : Lexeme) : Reflowed t.spaced t.settled.spaced := by
  unfold settled
  split
  · rename_i s
    obtain ⟨w, hs, hw⟩ := exists_eq_trimEnd_append s
    have hspaced : ∀ s, (other ('\\' :: s)).spaced = ' ' :: '\\' :: (s ++ [' ']) := fun s => rfl
    rw [hspaced, hspaced]
    conv => lhs; rw [hs]
    rw [List.append_assoc]
    refine Reflowed.append (s := [' ', '\\']) (t := [' ', '\\']) (.refl _) (Reflowed.append (.refl _) ?_)
    exact .blanks (by simp) (by simp) (by simpa [or_imp, forall_and] using hw) (by simp)
  · exact .refl _

/-- The text of lexemes is that of the settled ones. -/
theorem render_map_settled (ts : List Lexeme) : render (ts.map settled) = render ts := by
  have hspaced : Reflowed (ts.flatMap spaced) ((ts.map settled).flatMap spaced) := by
    induction ts with
    | nil => exact .nil
    | cons t ts ih => exact (reflowed_spaced t).append ih
  rw [render, render, collapse, collapse, hspaced.squeeze_eq]

end Lexeme

open Lexeme

/-- A group is found among settled lexemes where it is found. -/
theorem groupLength?_map_settled (d : Int) (ts : List Lexeme) : groupLength? d (ts.map settled) = groupLength? d ts := by
  induction ts generalizing d with
  | nil => rfl
  | cons t ts ih =>
    cases t with
    | other s =>
      obtain ⟨s', hs'⟩ := exists_settled_other s
      rw [List.map_cons, hs', groupLength?, groupLength?, ih]
      all_goals simp
    | _ => simp [settled, groupLength?, ih]

/-- Settled lexemes have as many negations at their start. -/
theorem negationCount_map_settled (ts : List Lexeme) : negationCount (ts.map settled) = negationCount ts := by
  have hnot : ∀ t, decide (settled t = .not) = decide (t = .not) := fun t => decide_eq_decide.mpr (settled_eq_iff (by simp))
  simp only [negationCount, List.takeWhile_map, List.length_map, Function.comp_def, hnot]

/-- An operand is found among settled lexemes where it is found. -/
theorem operandLength?_map_settled (ts : List Lexeme) : operandLength? (ts.map settled) = operandLength? ts := by
  have hdrop : ∀ n, negationCount ((ts.map settled).drop n) = negationCount (ts.drop n) := fun n => by
    rw [← List.map_drop, negationCount_map_settled]
  have hgroup := groupLength?_map_settled 0 ts
  simp only [operandLength?, hdrop]
  cases ts with
  | nil => rfl
  | cons t ts =>
    cases t with
    | other s =>
      obtain ⟨s', hs'⟩ := exists_settled_other s
      rw [List.map_cons, hs']
    | rparen =>
      rw [List.map_cons] at hgroup ⊢
      show Option.map _ (groupLength? 0 (.rparen :: ts.map settled)) = _
      rw [show groupLength? 0 (.rparen :: ts.map settled) = groupLength? 0 (.rparen :: ts) from hgroup]
    | _ => rfl

/-- An operand is an atom with negations if the settled one is. -/
theorem isNegatedAtom_map_settled (ts : List Lexeme) : isNegatedAtom (ts.map settled) = isNegatedAtom ts := by
  induction ts with
  | nil => rfl
  | cons t ts ih =>
    cases t with
    | not => exact ih
    | atom c => cases ts <;> rfl
    | other s =>
      obtain ⟨s', hs'⟩ := exists_settled_other s
      rw [List.map_cons, hs']
      rfl
    | _ => rfl

/-- An operand is guarded as the settled one is. -/
theorem guardOperand_map_settled (ts : List Lexeme) : guardOperand (ts.map settled) = (guardOperand ts).map settled := by
  have hatom := isNegatedAtom_map_settled ts
  cases ts with
  | nil => rfl
  | cons t ts =>
    by_cases ht : t = .lparen
    · subst ht
      rfl
    · have hguard : ∀ {t : Lexeme} (ts : List Lexeme), t ≠ .lparen → guardOperand (t :: ts) =
          if isNegatedAtom (t :: ts) then t :: ts else .lparen :: (t :: ts ++ [.rparen]) := by
        intro t ts ht
        cases t <;> first | rfl | exact absurd rfl ht
      rw [List.map_cons] at hatom ⊢
      rw [hguard _ ht, hguard _ (mt (settled_eq_iff (by simp)).mp ht), hatom]
      split
      · rfl
      · simp [settled]

/-- The context of an arrow is that among settled lexemes. -/
theorem arrowContext_map_settled (done ts : List Lexeme) :
    arrowContext (done.map settled) (ts.map settled) = arrowContext done ts := by
  rw [arrowContext, arrowContext, ← render_map_settled ((done.take 6).reverse ++ _)]
  simp [settled]

/-- Settled lexemes are read with the same result, but for its lexemes, which are settled. -/
def Elimination.settled (e : Elimination) : Elimination := ⟨e.lexemes.map Lexeme.settled, e.degraded⟩

/-- The elimination goes on settled lexemes as it goes, and leaves settled lexemes. -/
theorem eliminateFrom_map_settled (strict : Bool) (done ts : List Lexeme) :
    eliminateFrom strict (done.map settled) (ts.map settled) = (eliminateFrom strict done ts).map Elimination.settled := by
  induction ts generalizing done with
  | nil => simp [eliminateFrom, Elimination.settled, Except.map]
  | cons t ts ih =>
    by_cases ht : t = .arrow
    · subst ht
      rw [List.map_cons, show settled .arrow = .arrow from rfl, eliminateFrom, eliminateFrom, operandLength?_map_settled]
      cases operandLength? done with
      | some n =>
        have hdone : (Lexeme.or :: ((guardOperand ((done.map settled).take n).reverse).reverse ++
          .not :: (done.map settled).drop n)) =
            (Lexeme.or :: ((guardOperand (done.take n).reverse).reverse ++ .not :: done.drop n)).map settled := by
          rw [← List.map_take, ← List.map_reverse, guardOperand_map_settled]
          simp [settled]
        simp only [hdone, ih]
      | none =>
        have hdone : Lexeme.or :: done.map settled = (Lexeme.or :: done).map settled := rfl
        simp only [arrowContext_map_settled, hdone, ih]
        cases strict with
        | true => rfl
        | false =>
          cases eliminateFrom false (.or :: done) ts <;> rfl
    · rw [List.map_cons, eliminateFrom_cons_of_ne (mt (settled_eq_iff (by simp)).mp ht), eliminateFrom_cons_of_ne ht]
      exact ih (t :: done)

/-- Lexemes that are settled to the same have the same normal form, or lack the same left operand. -/
theorem normalize_of_settled {strict : Bool} {s t : String} (h : (lexemes s).map settled = (lexemes t).map settled) :
    normalize strict s = normalize strict t := by
  have hnormal : ∀ s, normalize strict s = (eliminateFrom strict [] ((lexemes s).map settled)).map fun e =>
      ⟨String.ofList (render e.lexemes), e.degraded⟩ := by
    intro s
    have heliminate := eliminateFrom_map_settled strict [] (lexemes s)
    rw [List.map_nil] at heliminate
    rw [normalize, eliminate, heliminate]
    cases eliminateFrom strict [] (lexemes s) with
    | error _ => rfl
    | ok e => simp [Except.map, Elimination.settled, render_map_settled]
  rw [hnormal, hnormal, h]

/-! ## The normal form -/

/-- Blanks before a formula come to nothing. -/
theorem lexemes_blanks {w : List Char} (hw : ∀ c ∈ w, isBlank c) (s : List Char) :
    lexemes (String.ofList (w ++ s)) = lexemes (String.ofList s) := by
  have hoverlines : replaceOverlines (w ++ s) = w ++ replaceOverlines s := by
    induction w with
    | nil => rfl
    | cons c w ih =>
      obtain ⟨hc, hw⟩ := List.forall_mem_cons.mp hw
      rw [List.cons_append, replaceOverlines_cons (not_opensOverline_cons (ne_of_holds hc (by decide)) _), ih hw]
      rfl
  have hrespell : ∀ s, respell (w ++ s) = w ++ respell s := fun s => by
    refine respell_rel (R := fun t s => t = w ++ s) (fun g hg t s h => ?_) rfl
    rw [h, replaceMatches, Group.replaceFrom_blanks hg hw, replaceMatches]
  rw [lexemes, lexemes, String.toList_ofList, String.toList_ofList, hoverlines, hrespell, lex, lexFrom_blanks hw, lex]

/-- Formulas that are the same up to their layout, and up to blanks at their ends, have the same normal form, with the same
diagnostics, or lack the same left operand. -/
theorem normalize_reflowed {s t : List Char} (h : Reflowed (trim s) (trim t)) (strict : Bool) :
    normalize strict (String.ofList s) = normalize strict (String.ofList t) := by
  have hdrop : ∀ s, lexemes (String.ofList s) = lexemes (String.ofList (s.dropWhile isBlank)) := by
    intro s
    conv => lhs; rw [← List.takeWhile_append_dropWhile (p := isBlank) (l := s)]
    exact lexemes_blanks (fun c hc => List.mem_takeWhile_imp hc) _
  apply normalize_of_settled
  rw [hdrop s, hdrop t, lexemes, lexemes, String.toList_ofList, String.toList_ofList]
  exact map_settled_lexFrom (respaced_respell (respaced_replaceOverlinesFrom h.respaced .nil .nil))

end Propositional.Latex
