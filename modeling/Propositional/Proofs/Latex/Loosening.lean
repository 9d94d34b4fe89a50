import Propositional.Proofs.Latex.Junction

/-!
# Blanks between texts

A blank may be put in where nothing goes on: the formula stays the same (`normalize_of_not_joins`). The blank is followed
through the rewriting. An overline around it keeps what stands on its two sides, or trims the blank away with others, and a
negation before it takes it along; everywhere else the two sides are rewritten each by itself.
-/

namespace Propositional.Latex

open Text

/-! ## Openings where two texts meet -/

/-- An overline that opens in two texts opens in the first one, unless its brace is the first thing in the second. If neither, the
name of the macro would go on in the second text. -/
theorem exists_of_opensOverline_append {p q : List Char} (hp : p ≠ []) (hjoins : ¬Joins p q) (h : OpensOverline (p ++ q)) :
    (∃ w r, p = overlineMacro ++ (w ++ '{' :: r) ∧ ∀ c ∈ w, isBlank c) ∨
      ∃ w w' r, p = overlineMacro ++ w ∧ q = w' ++ '{' :: r ∧ (∀ c ∈ w, isBlank c) ∧ ∀ c ∈ w', isBlank c := by
  obtain ⟨w, r, he, hw⟩ := h
  rcases List.append_eq_append_iff.mp he with ⟨u, hu, hq⟩ | ⟨u, rfl, hq⟩
  · cases u with
    | nil => exact .inr ⟨[], w, r, by simpa using hu.symm, hq, by simp, hw⟩
    | cons d u =>
      obtain ⟨b, p, rfl⟩ := List.exists_cons_of_ne_nil hp
      have hcons : '\\' :: overlineMacro.tail = b :: (p ++ d :: u) := hu
      obtain ⟨rfl, htail⟩ := List.cons.inj hcons
      have hletters : ∀ c ∈ p ++ d :: u, c.isAlpha := by
        rw [← htail]
        decide
      obtain ⟨hpl, hd⟩ := List.forall_mem_append.mp hletters
      rw [hq] at hjoins
      exact absurd ⟨d, rfl, hd d List.mem_cons_self⟩ (not_startsWithLetter_of_not_joins hjoins (endsInMacro_cons hpl))
  · rcases List.append_eq_append_iff.mp hq with ⟨v, rfl, hv⟩ | ⟨v, rfl, hv⟩
    · cases v with
      | nil => exact .inr ⟨w, [], r, by simp, hv.symm, hw, by simp⟩
      | cons d v =>
        obtain ⟨rfl, rfl⟩ := List.cons.inj hv
        exact .inl ⟨w, v, rfl, hw⟩
    · obtain ⟨hu, hv'⟩ := List.forall_mem_append.mp hw
      exact .inr ⟨u, v, r, rfl, hv, hu, hv'⟩

/-! ## Overlines at the start of a text -/

/-- A closed overline at the start of a text is written as the complement of what its content comes to. The overlines of the
content are closed, as its braces are balanced. -/
theorem replaceOverlines_overline {w content : List Char} (hw : ∀ c ∈ w, isBlank c) (hb : IsBalanced content) (r : List Char) :
    replaceOverlines (overlineMacro ++ (w ++ '{' :: (content ++ '}' :: r))) =
      complement (replaceOverlines content) ++ replaceOverlines r := by
  obtain ⟨x, s, rfl, hx, hs⟩ := Overlined.exists_divides content
  obtain rfl : s = [] := hs.resolve_right fun hu => hu.2 (hb.closesOverline hu.1)
  obtain ⟨d, s, rfl, hd, hs⟩ := Overlined.exists_divides r
  rw [List.append_nil] at hb
  have hall := replaceOverlines_of_divides (d := .overline w x d) ⟨hw, hb, hx, hd⟩ hs
  have hassoc : overlineMacro ++ (w ++ '{' :: (x.text ++ [] ++ '}' :: (d.text ++ s))) = (Overlined.overline w x d).text ++ s := by
    simp [Overlined.text]
  rw [hassoc, hall, replaceOverlines_of_divides hx (.inl rfl), replaceOverlines_of_divides hd hs, Overlined.written_overline,
    List.append_nil, List.append_assoc]

/-- A text that starts with an overline that is never closed stays as it is. -/
theorem replaceOverlines_of_isUnclosed {s : List Char} (h : IsUnclosed s) : replaceOverlines s = s :=
  replaceOverlines_of_divides (d := .nil) trivial (.inr h)

/-- Where no brace closes more than is open, an overline is never closed. -/
theorem isUnclosed_of_depth {w r : List Char} (hw : ∀ c ∈ w, isBlank c) {k : Nat} (h : depthAfter? brace? 0 r = some k) :
    IsUnclosed (overlineMacro ++ (w ++ '{' :: r)) := by
  refine ⟨⟨w, r, rfl, hw⟩, ?_⟩
  rintro ⟨w', content, r', he, hw', hb⟩
  have hbrace : ∀ {w r : List Char}, (∀ c ∈ w, isBlank c) → (w ++ '{' :: r).dropWhile isBlank = '{' :: r := fun hw => by
    rw [List.dropWhile_append_of_pos hw, List.dropWhile_cons_of_neg (by decide)]
  have hdrop := congrArg (List.dropWhile isBlank) (List.append_cancel_left he)
  rw [hbrace hw, hbrace hw'] at hdrop
  obtain ⟨-, rfl⟩ := List.cons.inj hdrop
  rw [depthAfter?_append, show depthAfter? brace? 0 content = some 0 from hb] at h
  cases h

/-- An overline at the start of a text is closed, or all of the text stays. -/
theorem replaceOverlines_opening {w : List Char} (hw : ∀ c ∈ w, isBlank c) (r : List Char) :
    (∃ content r', r = content ++ '}' :: r' ∧ IsBalanced content) ∨
      (∃ k, depthAfter? brace? 0 r = some k) ∧
        replaceOverlines (overlineMacro ++ (w ++ '{' :: r)) = overlineMacro ++ (w ++ '{' :: r) := by
  cases h : depthAfter? brace? 0 r with
  | none => exact .inl (exists_closing h)
  | some k => exact .inr ⟨⟨k, rfl⟩, replaceOverlines_of_isUnclosed (isUnclosed_of_depth hw h)⟩

/-- A blank does not change the depth of braces. -/
theorem depthAfter?_insert_blank (p q : List Char) (k : Nat) :
    depthAfter? brace? k (p ++ ' ' :: q) = depthAfter? brace? k (p ++ q) := by
  rw [depthAfter?_append, depthAfter?_append]
  rfl

/-! ## Complements -/

/-- Nothing goes on a complement, and it ends in no macro. -/
theorem complement_end (y content : List Char) :
    ¬EndsInMacro (y ++ complement content) ∧ ∀ c, ¬GoesOn (y ++ complement content) c := by
  rcases complement_eq content with ⟨x, -, he⟩ | he <;> rw [he]
  · have hname : ¬EndsInMacro (y ++ ['!', x.1]) := by
      rw [endsInMacro_append]
      rintro (h | h)
      · rcases (endsInMacro_append ['!'] [x.1]).mp h with h | h
        · have := (endsInMacro_concat [] x.1).mp h
          rw [if_pos (isAlpha_of_isUpper x.2)] at this
          exact absurd this (by decide)
        · exact absurd h.1 (by decide)
      · exact absurd (h.2 '!' List.mem_cons_self) (by decide)
    refine ⟨hname, ?_⟩
    rintro c ⟨b, hb, h⟩
    obtain rfl : x.1 = b := by simpa [List.getLast?_append] using hb
    rcases h with h | h | h | h
    · exact ne_of_holds x.2 (by decide) h
    · exact hname h.2
    · have := isUpper_eq_false_of_isLower h.1
      rw [x.2] at this
      cases this
    · have htable : ∀ o ∈ operatorPairs, o.1.isUpper = false := by decide
      have := htable _ h
      rw [x.2] at this
      cases this
  · have hend : y ++ '!' :: '(' :: (trim content ++ [')']) = (y ++ '!' :: '(' :: trim content) ++ [')'] := by simp
    rw [hend]
    exact ⟨not_endsInMacro_concat (by decide) (by decide) _, not_goesOn_concat (by decide) _⟩

/-- The complements of contents that differ in a blank are the same where it is trimmed away. Else the blank stands in the same
place, behind a parenthesis and what was not trimmed before it. -/
theorem complement_insert_blank {c : Char} (hc : isBlank c = false) (p q : List Char) :
    complement (p ++ c :: q) = complement (p ++ ' ' :: c :: q) ∨
      ∃ w p' q', p = w ++ p' ∧ p' ≠ [] ∧ complement (p ++ c :: q) = '!' :: '(' :: (p' ++ c :: q') ∧
        complement (p ++ ' ' :: c :: q) = '!' :: '(' :: (p' ++ ' ' :: c :: q') := by
  by_cases hp : p.dropWhile isBlank = []
  · left
    have hblank := List.dropWhile_eq_nil_iff.mp hp
    have htrim : trim (p ++ c :: q) = trim (p ++ ' ' :: c :: q) := by
      rw [trim, trim, List.dropWhile_append_of_pos hblank, List.dropWhile_append_of_pos hblank,
        List.dropWhile_cons_of_pos (a := ' ') (by decide)]
    rw [complement_eq_inParentheses, complement_eq_inParentheses, htrim]
  · right
    have hdrop : ∀ s, (p ++ s).dropWhile isBlank = p.dropWhile isBlank ++ s := fun s => by
      rw [List.dropWhile_append, if_neg (by simpa using hp)]
    have hcomplement : ∀ r, complement (p ++ (r ++ c :: q)) =
        '!' :: '(' :: (p.dropWhile isBlank ++ (r ++ c :: (trimEnd q ++ [')']))) := by
      intro r
      have htrim : trim (p ++ (r ++ c :: q)) = p.dropWhile isBlank ++ (r ++ c :: trimEnd q) := by
        rw [trim, hdrop, ← List.append_assoc, trimEnd_append hc, List.append_assoc]
      have hlong : ¬(p.dropWhile isBlank ++ (r ++ c :: trimEnd q)).length = 1 := by
        have := List.length_pos_iff.mpr hp
        simp only [List.length_append, List.length_cons]
        omega
      rw [complement_eq_inParentheses, htrim, inParentheses, if_neg fun h => hlong h.1]
      simp
    exact ⟨p.takeWhile isBlank, p.dropWhile isBlank, trimEnd q ++ [')'], List.takeWhile_append_dropWhile.symm, hp, hcomplement [],
      hcomplement [' ']⟩

/-- Contents that differ in blanks only have complements that do. -/
theorem respaced_complement {s t : List Char} (h : Respaced s t) {r r' : List Char} (hr : Respaced r r') :
    Respaced (complement s ++ r) (complement t ++ r') := by
  have := reflowed_complement (Reflowed.of_respaced h)
  rw [Overlined.complement_trim, Overlined.complement_trim] at this
  exact this.append_respaced hr

/-! ## Overlines -/

/-- The texts come from two that have a character behind `p`, the second one with a blank before it. They differ in blanks only,
or the second one is the first one with a blank before a character that goes on nothing that it did not go on before. -/
def ComesApart (p : List Char) (c : Char) (s t : List Char) : Prop :=
  Respaced s t ∨ ∃ p' c' q', isBlank c' = false ∧ s = p' ++ c' :: q' ∧ t = p' ++ ' ' :: c' :: q' ∧
    ∀ y, GoesOn (y ++ p') c' → GoesOn (y ++ p) c

/-- Replacing overlines leaves a character at the start that goes on nothing that the first one did not go on. -/
theorem exists_replaceOverlines_eq_cons {c : Char} (hc : isBlank c = false) (q : List Char) :
    ∃ c' q', isBlank c' = false ∧ replaceOverlines (c :: q) = c' :: q' ∧ ∀ y, GoesOn y c' → GoesOn y c := by
  by_cases ho : OpensOverline (c :: q)
  · obtain ⟨w, r, he, hw⟩ := ho
    rcases replaceOverlines_opening hw r with ⟨content, r, rfl, hb⟩ | ⟨-, hsame⟩
    · rw [he, replaceOverlines_overline hw hb, complement_eq_inParentheses]
      exact ⟨'!', _, by decide, rfl, fun y h => goesOn_of_backslash (h.backslash (by decide)) c⟩
    · rw [he, hsame, ← he]
      exact ⟨c, q, hc, rfl, fun _ h => h⟩
  · exact ⟨c, _, hc, replaceOverlines_cons ho, fun _ h => h⟩

/-- Texts come apart behind one more character. -/
theorem ComesApart.cons {p : List Char} {c : Char} {s t : List Char} (h : ComesApart p c s t) (x : Char) :
    ComesApart (x :: p) c (x :: s) (x :: t) := by
  rcases h with h | ⟨p', c', q', hc', rfl, rfl, hgoes⟩
  · exact .inl (h.append_left [x])
  · refine .inr ⟨x :: p', c', q', hc', rfl, rfl, fun y hg => ?_⟩
    have := hgoes (y ++ [x])
    rw [List.append_assoc, List.append_assoc] at this
    exact this hg

/-- A complement joins nothing to what stands behind it. -/
theorem ComesApart.complement_append {p : List Char} {c : Char} {s t : List Char} (h : ComesApart p c s t) (hp : ¬GoesOn p c)
    (before content : List Char) : ComesApart (before ++ p) c (complement content ++ s) (complement content ++ t) := by
  rcases h with h | ⟨p', c', q', hc', rfl, rfl, hgoes⟩
  · exact .inl (h.append_left _)
  · refine .inr ⟨complement content ++ p', c', q', hc', by simp, by simp, fun y hg => ?_⟩
    obtain ⟨hname, hend⟩ := complement_end y content
    rw [← List.append_assoc] at hg
    have hon := hgoes _ hg
    by_cases hnil : p = []
    · rw [hnil, List.append_nil] at hon
      exact absurd hon (hend c)
    · exact absurd (hon.of_append hnil hname) hp

/-- What is left of the content of an overline stays apart in its complement. -/
theorem ComesApart.complement {p : List Char} {c : Char} {s t : List Char} (h : ComesApart p c s t) (hp : ¬GoesOn p c)
    (before r : List Char) : ComesApart (before ++ p) c (Latex.complement s ++ r) (Latex.complement t ++ r) := by
  rcases h with h | ⟨p', c', q', hc', rfl, rfl, hgoes⟩
  · exact .inl (respaced_complement h (.refl r))
  · rcases complement_insert_blank hc' p' q' with he | ⟨w, u, v, rfl, hu, hs, ht⟩
    · rw [he]
      exact .inl (.refl _)
    · refine .inr ⟨'!' :: '(' :: u, c', v ++ r, hc', by rw [hs]; simp, by rw [ht]; simp, fun y hg => ?_⟩
      have hopen : y ++ '!' :: '(' :: u = (y ++ ['!'] ++ ['(']) ++ u := by simp
      rw [hopen] at hg
      have hon := hg.of_append hu (not_endsInMacro_concat (by decide) (by decide) _)
      exact absurd (hgoes [] (hon.append_left w)) hp

section Induction

variable {c : Char} (hc : isBlank c = false) {p : List Char} (h : ¬GoesOn p c)
  (ih : ∀ r : List Char, r.length < p.length → ¬GoesOn r c → ∀ q,
    ComesApart r c (replaceOverlines (r ++ c :: q)) (replaceOverlines (r ++ ' ' :: c :: q)))

include hc h ih

/-- An overline whose brace stands in the first text. The second text starts in the overline, or behind the brace that
closes it. -/
theorem comesApart_of_opening {w r : List Char} (hw : ∀ c ∈ w, isBlank c) (hp : p = overlineMacro ++ (w ++ '{' :: r))
    (q : List Char) : ComesApart p c (replaceOverlines (p ++ c :: q)) (replaceOverlines (p ++ ' ' :: c :: q)) := by
  have hassoc : ∀ s, p ++ s = overlineMacro ++ (w ++ '{' :: (r ++ s)) := fun s => by rw [hp]; simp
  have hinner : ∀ {a b : List Char}, r = a ++ b → b.length < p.length ∧ ¬GoesOn b c ∧ ∃ before, p = before ++ b := by
    rintro a b rfl
    have hsplit : p = (overlineMacro ++ (w ++ '{' :: a)) ++ b := by rw [hp]; simp
    refine ⟨?_, fun hg => h (hsplit ▸ hg.append_left _), _, hsplit⟩
    rw [hsplit]
    simp only [List.length_append, List.length_cons]
    omega
  have hclosing : c = '}' → IsBalanced r →
    ComesApart p c (replaceOverlines (p ++ c :: q)) (replaceOverlines (p ++ ' ' :: c :: q)) := by
    rintro rfl hb
    have hb' : IsBalanced (r ++ [' ']) := by
      unfold IsBalanced
      rwa [depthAfter?_insert_blank, List.append_nil]
    have hcontent : Respaced (replaceOverlines r) (replaceOverlines (r ++ [' '])) := by
      refine respaced_replaceOverlinesFrom ?_ .nil .nil
      have : Respaced (r ++ []) (r ++ [' ']) := (Respaced.blanks (by simp) (by simp)).append_left r
      rwa [List.append_nil] at this
    have hsecond : r ++ ' ' :: '}' :: q = r ++ [' '] ++ '}' :: q := by simp
    rw [hassoc, hassoc, hsecond, replaceOverlines_overline hw hb, replaceOverlines_overline hw hb']
    exact .inl (respaced_complement hcontent (.refl _))
  rcases replaceOverlines_opening hw (r ++ c :: q) with ⟨content, z, he, hb⟩ | ⟨⟨k, hk⟩, hsame⟩
  · rcases List.append_eq_append_iff.mp he with ⟨u, rfl, hu⟩ | ⟨u, rfl, hu⟩
    · cases u with
      | nil =>
        rw [List.append_nil] at hb
        exact hclosing (List.cons.inj hu).1 hb
      | cons d u =>
        rw [List.cons_append] at hu
        obtain ⟨rfl, rfl⟩ := List.cons.inj hu
        obtain ⟨hlen, hgoes, before, hbefore⟩ := hinner (a := []) rfl
        have hb' : IsBalanced (r ++ ' ' :: c :: u) := by
          unfold IsBalanced
          rwa [depthAfter?_insert_blank]
        have hfirst : r ++ c :: (u ++ '}' :: z) = r ++ c :: u ++ '}' :: z := by simp
        have hsecond : r ++ ' ' :: c :: (u ++ '}' :: z) = r ++ ' ' :: c :: u ++ '}' :: z := by simp
        have hcontent := (ih r hlen hgoes u).complement hgoes before (replaceOverlines z)
        rw [hassoc, hassoc, hfirst, hsecond, replaceOverlines_overline hw hb, replaceOverlines_overline hw hb']
        rwa [← hbefore] at hcontent
    · cases u with
      | nil =>
        rw [List.append_nil] at hclosing
        exact hclosing (List.cons.inj hu).1.symm hb
      | cons d u =>
        rw [List.cons_append] at hu
        obtain ⟨rfl, rfl⟩ := List.cons.inj hu
        obtain ⟨hlen, hgoes, before, hbefore⟩ := hinner (a := content ++ ['}']) (b := u) (by simp)
        have hmove : ∀ s, content ++ '}' :: u ++ s = content ++ '}' :: (u ++ s) := by simp
        have hrest := (ih u hlen hgoes q).complement_append hgoes before (replaceOverlines content)
        rw [hassoc, hassoc, hmove, hmove, replaceOverlines_overline hw hb, replaceOverlines_overline hw hb]
        rwa [← hbefore] at hrest
  · have hsecond := replaceOverlines_of_isUnclosed (isUnclosed_of_depth hw ((depthAfter?_insert_blank r (c :: q) 0).trans hk))
    rw [hassoc, hassoc, hsame, hsecond, ← hassoc, ← hassoc]
    exact .inr ⟨p, c, q, hc, rfl, rfl, fun _ hg => hg⟩

/-- No overline has its brace in the first text. If one opens across the two texts, its macro stands at the end of the first and
its brace at the start of the second. -/
theorem comesApart_of_no_opening (hp : p ≠ []) (hno : ¬∃ w r, p = overlineMacro ++ (w ++ '{' :: r) ∧ ∀ c ∈ w, isBlank c)
    (q : List Char) : ComesApart p c (replaceOverlines (p ++ c :: q)) (replaceOverlines (p ++ ' ' :: c :: q)) := by
  have hjoins : ¬Joins p (c :: q) := mt joins_cons.mp h
  have hjoins' : ¬Joins p (' ' :: c :: q) := fun hj => h (goesOn_of_backslash ((joins_cons.mp hj).backslash (by decide)) c)
  by_cases hmeet : ∃ w, p = overlineMacro ++ w ∧ c = '{' ∧ ∀ c ∈ w, isBlank c
  · obtain ⟨w, rfl, rfl, hw⟩ := hmeet
    have hw' : ∀ c ∈ w ++ [' '], isBlank c := List.forall_mem_append.mpr ⟨hw, by simp⟩
    have hfirst : overlineMacro ++ w ++ '{' :: q = overlineMacro ++ (w ++ '{' :: q) := by simp
    have hsecond : overlineMacro ++ w ++ ' ' :: '{' :: q = overlineMacro ++ (w ++ [' '] ++ '{' :: q) := by simp
    rw [hfirst, hsecond]
    rcases replaceOverlines_opening hw q with ⟨content, z, rfl, hb⟩ | ⟨⟨k, hk⟩, hsame⟩
    · rw [replaceOverlines_overline hw hb, replaceOverlines_overline hw' hb]
      exact .inl (.refl _)
    · rw [hsame, replaceOverlines_of_isUnclosed (isUnclosed_of_depth hw' hk)]
      exact .inr ⟨overlineMacro ++ w, '{', q, hc, by simp, by simp, fun _ hg => hg⟩
  · have hnone : ∀ {s}, ¬Joins p s →
      (∀ {w' r}, s = w' ++ '{' :: r → (∀ c ∈ w', isBlank c) → c = '{') → ¬OpensOverline (p ++ s) := by
      intro s hs hbrace ho
      rcases exists_of_opensOverline_append hp hs ho with hfirst | ⟨w, w', r, hw, hs, hblank, hblank'⟩
      · exact hno hfirst
      · exact hmeet ⟨w, hw, hbrace hs hblank', hblank⟩
    have hfirst : ¬OpensOverline (p ++ c :: q) := by
      refine hnone hjoins fun {w' r} he hw' => ?_
      cases w' with
      | nil => exact (List.cons.inj he).1
      | cons d w' =>
        rw [(List.cons.inj he).1, hw' d List.mem_cons_self] at hc
        cases hc
    have hsecond : ¬OpensOverline (p ++ ' ' :: c :: q) := by
      refine hnone hjoins' fun {w' r} he hw' => ?_
      rcases w' with _ | ⟨d, _ | ⟨e, w'⟩⟩
      · cases (List.cons.inj he).1
      · exact (List.cons.inj (List.cons.inj he).2).1
      · rw [(List.cons.inj (List.cons.inj he).2).1, hw' e (by simp)] at hc
        cases hc
    obtain ⟨x, p, rfl⟩ := List.exists_cons_of_ne_nil hp
    simp only [List.cons_append] at hfirst hsecond ⊢
    rw [replaceOverlines_cons hfirst, replaceOverlines_cons hsecond]
    exact (ih p (by simp) (fun hg => h (hg.append_left [x])) q).cons x

end Induction

/-- Overlines come out the same on the two sides of a place where nothing goes on, whether a blank stands there or not. -/
theorem comesApart_replaceOverlines {c : Char} (hc : isBlank c = false) (p : List Char) (h : ¬GoesOn p c) (q : List Char) :
    ComesApart p c (replaceOverlines (p ++ c :: q)) (replaceOverlines (p ++ ' ' :: c :: q)) := by
  induction hn : p.length using Nat.strong_induction_on generalizing p q with
  | _ n ih =>
    subst hn
    have ih := fun r hlen hr q => ih _ hlen r hr q rfl
    by_cases hp : p = []
    · subst hp
      obtain ⟨c', q', hc', he, hgoes⟩ := exists_replaceOverlines_eq_cons hc q
      refine .inr ⟨[], c', q', hc', he, ?_, fun y => ?_⟩
      · exact (replaceOverlines_cons (not_opensOverline_cons (by decide) _)).trans (congrArg (' ' :: ·) he)
      · rw [List.append_nil]
        exact hgoes y
    · by_cases hfirst : ∃ w r, p = overlineMacro ++ (w ++ '{' :: r) ∧ ∀ c ∈ w, isBlank c
      · obtain ⟨w, r, he, hw⟩ := hfirst
        exact comesApart_of_opening hc h ih hw he q
      · exact comesApart_of_no_opening hc h ih hp hfirst q

/-! ## The formula -/

/-- The second text is the first one with a blank where nothing goes on, or the two differ in blanks only. -/
inductive Loosened : List Char → List Char → Prop where
  | respaced {s t : List Char} : Respaced s t → Loosened s t
  | apart {p q : List Char} {c : Char} : isBlank c = false → ¬GoesOn p c → Loosened (p ++ c :: q) (p ++ ' ' :: c :: q)

namespace Loosened

/-- A blank where nothing goes on loosens a text. -/
theorem of_not_joins {p q : List Char} (h : ¬Joins p q) : Loosened (p ++ q) (p ++ ' ' :: q) := by
  cases q with
  | nil => exact .respaced (.append_left p (.blanks (by simp) (by simp)))
  | cons c q =>
    cases hc : isBlank c with
    | true =>
      have hgap : Respaced ([c] ++ q) ([' ', c] ++ q) := .gap (by simp) (by simp) (by simpa using hc) (by simpa using hc)
        (.refl q)
      exact .respaced (hgap.append_left p)
    | false => exact .apart hc (mt joins_cons.mpr h)

/-- Replacing overlines keeps texts loosened. -/
theorem replaceOverlines {s t : List Char} (h : Loosened s t) :
    Loosened (Latex.replaceOverlines s) (Latex.replaceOverlines t) := by
  cases h with
  | respaced h => exact .respaced (respaced_replaceOverlinesFrom h .nil .nil)
  | @apart p q c hc hp =>
    rcases comesApart_replaceOverlines hc p hp q with h | ⟨p', c', q', hc', hs, ht, hgoes⟩
    · exact .respaced h
    · rw [hs, ht]
      exact .apart hc' fun hg => hp (hgoes [] hg)

/-- A group of spellings is replaced on both sides of the blank, which a negation may take along. -/
theorem replaceMatches {g : Group} (hg : g ∈ groups) {s t : List Char} (h : Loosened s t) :
    Loosened (Text.replaceMatches g.matcher g.native s) (Text.replaceMatches g.matcher g.native t) := by
  cases h with
  | respaced h => exact .respaced (Group.respaced_replaceFrom hg h)
  | @apart p q c hc hp =>
    have hstop : EndsInMacro p → ¬StartsWithLetter (c :: q) := not_startsWithLetter_of_not_joins (mt joins_cons.mp hp)
    have hstop' : EndsInMacro p → ¬StartsWithLetter (' ' :: c :: q) := fun _ => not_startsWithLetter_cons (by decide) _
    rcases g.respellsApart hg p with ⟨p', hgoes, hp'⟩ | ⟨p', hp'⟩
    · have hblank : Text.replaceMatches g.matcher g.native (' ' :: c :: q) =
        ' ' :: Text.replaceMatches g.matcher g.native (c :: q) :=
        Group.replaceFrom_blanks hg (w := [' ']) (by simp) (c :: q)
      obtain ⟨c', q', he, hhead⟩ := Group.exists_replaceMatches_eq_cons hg c q
      rw [hp' _ hstop, hp' _ hstop', hblank, he]
      exact of_not_joins fun hj => hp (hgoes [] c (hhead _ (joins_cons.mp hj)))
    · rw [hp' _ hstop, hp' _ hstop', List.dropWhile_cons_of_pos (a := ' ') (by decide)]
      exact .respaced (.refl _)

/-- The lexemes are the same, but for a blank that a backslash took. -/
theorem map_settled_lexemes {s t : List Char} (h : Loosened s t) :
    (Lexeme.lex s).map Lexeme.settled = (Lexeme.lex t).map Lexeme.settled := by
  cases h with
  | respaced h => exact Lexeme.map_settled_lexFrom h
  | @apart p q c hc hp =>
    have hjoins : ¬Joins p (' ' :: c :: q) := fun hj => hp (goesOn_of_backslash ((joins_cons.mp hj).backslash (by decide)) c)
    have hblank : Lexeme.lex (' ' :: c :: q) = Lexeme.lex (c :: q) := Lexeme.lexFrom_blank (by decide) _
    rw [Lexeme.lex_append (mt joins_cons.mp hp), Lexeme.lex_append hjoins, hblank]

end Loosened

/-- A blank where nothing goes on does not show in the normal form of a formula. -/
theorem normalize_of_not_joins {p q : List Char} (h : ¬Joins p q) (strict : Bool) :
    normalize strict (String.ofList (p ++ q)) = normalize strict (String.ofList (p ++ ' ' :: q)) := by
  have hrespell := respell_rel (fun _ hg _ _ h => Loosened.replaceMatches hg h) (Loosened.of_not_joins h).replaceOverlines
  apply normalize_of_settled
  rw [lexemes, lexemes, String.toList_ofList, String.toList_ofList]
  exact hrespell.map_settled_lexemes

end Propositional.Latex
