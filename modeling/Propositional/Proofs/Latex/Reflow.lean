import Propositional.Proofs.Latex.ClosedOverlines
import Propositional.Proofs.Latex.Respelling
import Propositional.Proofs.Text.Reflow

/-!
# The layout of overlines and spellings

Two texts that differ in their layout only are rewritten to texts that differ in their layout only. Both steps are taken on the
two texts at once, word by word: the overlines, with the overlines of either text that are open at a place
(`respaced_replaceOverlinesFrom`), and one group of spellings after the other (`respaced_respell`).
-/

namespace Propositional.Latex

open Text

/-! ## Overlines -/

/-- Where an overline opens in one text, one opens in the other. -/
theorem exists_opening {w r t : List Char} (hw : ∀ c ∈ w, isBlank c) (h : Respaced (overlineMacro ++ (w ++ '{' :: r)) t) :
    ∃ w' r', t = overlineMacro ++ (w' ++ '{' :: r') ∧ (∀ c ∈ w', isBlank c) ∧ Respaced r r' := by
  obtain ⟨t', rfl, h'⟩ := h.exists_of_append (by decide)
  obtain ⟨w', r', rfl, hw', -, hr⟩ := h'.exists_of_cons rfl hw (by decide)
  exact ⟨w', r', rfl, hw', hr⟩

/-- A letter is the same in any layout, and what stands in parentheses has the layout that it has without them. -/
theorem reflowed_complement {s t : List Char} (h : Reflowed s t) : Reflowed (complement s) (complement t) := by
  have htrim := h.trim
  rw [complement_eq_inParentheses, complement_eq_inParentheses]
  refine .char (by decide) ?_
  have hletter : ∀ {s : List Char}, s.length = 1 ∧ s.all Char.isUpper → ∀ c ∈ s, isBlank c = false := fun hs c hc =>
    isBlank_eq_false_of_isAlphanum (isAlphanum_of_isUpper (List.all_eq_true.mp hs.2 c hc))
  generalize trim s = s' at htrim
  generalize trim t = t' at htrim
  by_cases hs : s'.length = 1 ∧ s'.all Char.isUpper
  · obtain rfl := htrim.eq_of_not_blank (hletter hs)
    exact .refl _
  · by_cases ht : t'.length = 1 ∧ t'.all Char.isUpper
    · rw [htrim.symm.eq_of_not_blank (hletter ht)] at hs
      exact absurd ht hs
    · rw [inParentheses, if_neg hs, inParentheses, if_neg ht]
      exact .char (by decide) (htrim.append (.refl _))

/-- Two overlines that are open are the same up to the layout of what was written before them and of the text from them on. -/
structure OverlineFrame.Reflowed (f g : OverlineFrame) : Prop where
  before : Text.Reflowed f.before.reverse g.before.reverse
  depth : f.depth = g.depth
  source : Respaced f.source g.source

/-- The same text leads from overlines that are open to overlines that are open, whatever the layout of what stands before it. -/
theorem exists_framesAfter? {s : List Char} {fs gs fs' : List OverlineFrame} (h : List.Forall₂ OverlineFrame.Reflowed fs gs)
    (hfs : framesAfter? fs s = some fs') : ∃ gs', framesAfter? gs s = some gs' ∧ List.Forall₂ OverlineFrame.Reflowed fs' gs' := by
  cases h with
  | nil => exact ⟨[], rfl, by obtain rfl := Option.some.inj hfs; exact .nil⟩
  | @cons f g fs gs hf h =>
    rw [framesAfter?] at hfs
    obtain ⟨e, he, rfl⟩ := Option.map_eq_some_iff.mp hfs
    rw [hf.depth] at he
    refine ⟨{ g with depth := e } :: gs, by rw [framesAfter?, he]; rfl, .cons ?_ h⟩
    exact ⟨hf.before, rfl, hf.source⟩

/-- A character does not fit into an overline that is open only if it is the brace that closes it. -/
theorem eq_of_framesAfter?_eq_none {c : Char} {fs : List OverlineFrame} (h : framesAfter? fs [c] = none) :
    c = '}' ∧ ∃ f fs', fs = f :: fs' ∧ f.depth = 0 := by
  cases fs with
  | nil => cases h
  | cons f fs =>
    rw [framesAfter?, Option.map_eq_none_iff, depthAfter?_cons] at h
    unfold brace? at h
    split at h
    · cases h
    · refine ⟨rfl, f, fs, rfl, ?_⟩
      cases hd : f.depth with
      | zero => rfl
      | succ k =>
        rw [hd] at h
        cases h
    · cases h

/-- The end of a text comes to texts that differ in their layout, with blanks before it in either text. -/
theorem respaced_resume {fs gs : List OverlineFrame} (h : List.Forall₂ OverlineFrame.Reflowed fs gs) {s t : List Char}
    (hst : Respaced s t) : Respaced (resume fs s) (resume gs t) := by
  induction h generalizing s t with
  | nil => exact hst
  | cons hf _ ih => exact ih (hf.before.append_respaced hf.source)

/-- Blanks stay where they are. -/
theorem replaceOverlinesFrom_blanks {w : List Char} (hw : ∀ c ∈ w, isBlank c) (frames : List OverlineFrame) (out s : List Char) :
    replaceOverlinesFrom 0 frames out (w ++ s) = replaceOverlinesFrom 0 frames (w.reverse ++ out) s :=
  replaceOverlinesFrom_append_of_inert (fun c hc => isInert_of_isBlank (hw c hc)) frames out s

/-- The overlines of two texts that differ in their layout are replaced by texts that differ in their layout. A brace closes the
innermost overline in both texts. -/
theorem respaced_replaceOverlinesFrom {s t : List Char} (h : Respaced s t) {frames frames' : List OverlineFrame}
    (hframes : List.Forall₂ OverlineFrame.Reflowed frames frames') {out out' : List Char}
    (hout : Text.Reflowed out.reverse out'.reverse) :
    Respaced (replaceOverlinesFrom 0 frames out s) (replaceOverlinesFrom 0 frames' out' t) := by
  induction h using Respaced.scan generalizing frames frames' out out' with
  | @blanks w w' hw hw' =>
    rw [← List.append_nil w, ← List.append_nil w', replaceOverlinesFrom_blanks hw, replaceOverlinesFrom_blanks hw',
      replaceOverlinesFrom_nil, replaceOverlinesFrom_nil]
    refine respaced_resume hframes ?_
    simp only [List.reverse_append, List.reverse_reverse]
    exact hout.append_respaced (.blanks hw hw')
  | gap hne hne' hw hw' _ ih =>
    rw [replaceOverlinesFrom_blanks hw, replaceOverlinesFrom_blanks hw']
    refine ih hframes ?_
    simp only [List.reverse_append, List.reverse_reverse]
    exact hout.append (.blanks hne hne' hw hw')
  | @char c s t hc h ih =>
    have hcons : Respaced (c :: s) (c :: t) := .char hc h
    by_cases ho : OpensOverline (c :: s)
    · obtain ⟨w, r, he, hw⟩ := ho
      have hsource := hcons
      rw [he] at hsource
      obtain ⟨w', r', he', hw', hr⟩ := exists_opening hw hsource
      have hframe : OverlineFrame.Reflowed ⟨out, 0, c :: s⟩ ⟨out', 0, c :: t⟩ := ⟨hout, rfl, hcons⟩
      rw [he, he', replaceOverlinesFrom_open hw, replaceOverlinesFrom_open hw', ← he, ← he']
      refine ih hr ?_ (.cons hframe hframes) (by simpa using Reflowed.nil)
      have hlen := congrArg List.length he
      simp only [List.length_append, List.length_cons] at hlen
      omega
    · have ho' : ¬OpensOverline (c :: t) := by
        rintro ⟨w, r, he, hw⟩
        have hsource := hcons.symm
        rw [he] at hsource
        obtain ⟨w', r', he', hw', -⟩ := exists_opening hw hsource
        exact ho ⟨w', r', he', hw'⟩
      cases hf : framesAfter? frames [c] with
      | some fs =>
        obtain ⟨fs', hf', hfs⟩ := exists_framesAfter? hframes hf
        rw [replaceOverlinesFrom_char ho hf, replaceOverlinesFrom_char ho' hf']
        refine ih h (Nat.le_refl _) hfs ?_
        rw [List.reverse_cons, List.reverse_cons]
        exact hout.append (.refl _)
      | none =>
        obtain ⟨rfl, f, fs, rfl, hd⟩ := eq_of_framesAfter?_eq_none hf
        cases hframes with
        | @cons f g fs gs hfg hframes =>
          obtain ⟨before, depth, source⟩ := f
          obtain ⟨before', depth', source'⟩ := g
          obtain rfl : depth = 0 := hd
          obtain rfl : 0 = depth' := hfg.depth
          rw [replaceOverlinesFrom_close, replaceOverlinesFrom_close]
          refine ih h (Nat.le_refl _) hframes ?_
          simp only [List.reverse_append, List.reverse_reverse]
          exact hfg.before.append (reflowed_complement hout)

/-! ## Spellings -/

namespace Group

variable {g : Group}

/-- At a backslash a group matches a macro with one of its names. -/
theorem base_backslash (hg : g ∈ groups) (s : List Char) :
    g.base ('\\' :: s) = if s.takeWhile Char.isAlpha ≠ [] ∧ isNamed g.names (s.takeWhile Char.isAlpha) then
      some ('\\' :: s.takeWhile Char.isAlpha).length else none := by
  have hchars : g.chars.contains '\\' = false := by
    rw [Bool.eq_false_iff]
    intro hm
    exact (of_mem_chars hg (by simpa using hm)).1 rfl
  simp only [base, either, macroMatcher, macroName?, charMatcher, hchars, List.isEmpty_iff]
  by_cases hname : s.takeWhile Char.isAlpha = []
  · simp [hname]
  · by_cases hnamed : isNamed g.names (s.takeWhile Char.isAlpha) <;> simp [hname, hnamed]

/-- A group matches the same at the same place of two texts that differ in their layout, or nothing in both. -/
theorem base_respaced (hg : g ∈ groups) {c : Char} (hc : isBlank c = false) {s t : List Char} (h : Respaced s t) :
    (g.base (c :: s) = none ∧ g.base (c :: t) = none) ∨
      ∃ p s' t', c :: s = p ++ s' ∧ c :: t = p ++ t' ∧ p ≠ [] ∧ g.base (p ++ s') = some p.length ∧
        g.base (p ++ t') = some p.length ∧ Respaced s' t' := by
  by_cases hbackslash : c = '\\'
  · subst hbackslash
    obtain ⟨q, s', t', rfl, rfl, hq, hs, ht, h'⟩ := h.exists_word
    have hsplit : ∀ r, '\\' :: (q ++ r) = ('\\' :: q.takeWhile Char.isAlpha) ++ (q.dropWhile Char.isAlpha ++ r) := by
      intro r
      rw [List.cons_append, ← List.append_assoc, List.takeWhile_append_dropWhile]
    have hbase : ∀ {r}, AtBlank r → g.base ('\\' :: (q ++ r)) =
        if q.takeWhile Char.isAlpha ≠ [] ∧ isNamed g.names (q.takeWhile Char.isAlpha) then
          some ('\\' :: q.takeWhile Char.isAlpha).length else none := by
      intro r hr
      rw [base_backslash hg, hr.takeWhile_append fun c ha => isBlank_eq_false_of_isAlphanum (isAlphanum_of_isAlpha ha)]
    by_cases hname : q.takeWhile Char.isAlpha ≠ [] ∧ isNamed g.names (q.takeWhile Char.isAlpha)
    · refine .inr ⟨_, _, _, hsplit s', hsplit t', by simp, ?_, ?_, h'.append_left _⟩
      · rw [← hsplit, hbase hs, if_pos hname]
      · rw [← hsplit, hbase ht, if_pos hname]
    · exact .inl ⟨by rw [hbase hs, if_neg hname], by rw [hbase ht, if_neg hname]⟩
  · rw [base_of_ne hbackslash, base_of_ne hbackslash]
    by_cases hm : g.chars.contains c
    · refine .inr ⟨[c], s, t, rfl, rfl, by simp, ?_, ?_, h⟩ <;> rw [List.singleton_append, base_of_ne hbackslash, if_pos hm] <;>
        rfl
    · exact .inl ⟨if_neg hm, if_neg hm⟩

/-- The spellings of a group are replaced in texts that differ in their layout by texts that differ in their layout. -/
theorem respaced_replaceFrom (hg : g ∈ groups) {s t : List Char} (h : Respaced s t) :
    Respaced (replaceMatches g.matcher g.native s) (replaceMatches g.matcher g.native t) := by
  unfold replaceMatches
  induction h using Respaced.scan with
  | @blanks w w' hw hw' =>
    rw [← List.append_nil w, ← List.append_nil w', replaceFrom_blanks hg hw, replaceFrom_blanks hg hw', replaceFrom,
      List.append_nil, List.append_nil]
    exact .blanks hw hw'
  | gap hne hne' hw hw' _ ih =>
    rw [replaceFrom_blanks hg hw, replaceFrom_blanks hg hw']
    exact .gap hne hne' hw hw' ih
  | @char c s t hc h ih =>
    rcases base_respaced hg hc h with ⟨hs, ht⟩ | ⟨p, s', t', hsp, htp, hne, hs, ht, h'⟩
    · rw [replaceFrom_of_none (matcher_of_base_none hs), replaceFrom_of_none (matcher_of_base_none ht)]
      exact .char hc (ih h (Nat.le_refl _))
    · have hleft : Respaced (g.left s') (g.left t') := by
        unfold left
        split
        · exact h'.dropWhile
        · exact h'
      have hlen : (g.left s').length ≤ s.length := by
        have hp := List.length_pos_iff.mpr hne
        have hsplit := congrArg List.length (g.taken_append_left s')
        have hall := congrArg List.length hsp
        simp only [List.length_append, List.length_cons] at hsplit hall
        omega
      rw [hsp, htp, replaceFrom_of_base hne hs, replaceFrom_of_base hne ht]
      exact (ih hleft hlen).append_left _

end Group

/-- Texts that differ in their layout are brought to native spellings that differ in their layout. -/
theorem respaced_respell {s t : List Char} (h : Respaced s t) : Respaced (respell s) (respell t) :=
  respell_rel (fun _ hg _ _ h => Group.respaced_replaceFrom hg h) h

end Propositional.Latex
