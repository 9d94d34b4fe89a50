import Propositional.Derivation
import Propositional.Proofs.Derivation.Layout
import Propositional.Proofs.Latex.Arrangement
import Propositional.Proofs.Text.Parts

/-!
# The steps of a laid out derivation

A derivation that is laid out with a list of formulas has these formulas as its steps (`steps_of_laidOut`). The formulas are cut
where they were joined, as each closes the brackets it opens and holds `=` inside brackets only. The blanks in them may have
changed on the way, but texts that differ in blanks write the same signs, and what signs are translated to does not depend on how
they are written.
-/

namespace Propositional.Latex

open Text

/-! ## Brackets -/

/-- The depth of brackets behind a sign. -/
def depthAfterSign (depth : Nat) : Sign → Nat
  | .lparen | .lbrace => depth + 1
  | .rparen | .rbrace => depth - 1
  | _ => depth

/-- The spelling of a sign changes the depth as the sign does. -/
theorem foldl_depthAfter_of_mem_spellings {x : Sign} {p : List Char} (hp : p ∈ x.spellings) (d : Nat) :
    p.foldl depthAfter d = depthAfterSign d x := by
  have hflat : ∀ ps : List (List Char), (ps.all fun p => p.all isFlat) → p ∈ ps → p.foldl depthAfter d = d := by
    intro ps hps hm
    exact foldl_depthAfter_of_isFlat (List.all_eq_true.mp (List.all_eq_true.mp hps p hm)) d
  have hbracket : ∀ c, p ∈ [[c]] → p.foldl depthAfter d = depthAfter d c := by
    intro c hm
    obtain rfl : p = [c] := by simpa using hm
    rfl
  cases x with
  | letter x =>
    have hne : ∀ c : Char, c.isUpper = false → x.1 ≠ c := fun c hc => ne_of_holds x.2 hc
    refine hflat [[x.1]] ?_ hp
    simp [isFlat, hne '(' (by decide), hne '{' (by decide), hne ')' (by decide), hne '}' (by decide)]
  | constant b => cases b <;> exact hflat _ (by decide) hp
  | lparen => exact hbracket '(' hp
  | rparen => exact hbracket ')' hp
  | lbrace => exact hbracket '{' hp
  | rbrace => exact hbracket '}' hp
  | _ => exact hflat _ (by decide) hp

/-- The depth of brackets behind a text is that behind its signs. -/
theorem Written.foldl_depthAfter {rest : List Char} {xs : List Sign} {s : List Char} (h : Written Sign.spellings rest xs s)
    (d : Nat) : s.foldl depthAfter d = xs.foldl depthAfterSign d := by
  induction h generalizing d with
  | nil => rfl
  | blank hc _ ih => rw [List.foldl_cons, depthAfter_of_isFlat (isFlat_of_isBlank hc), ih]
  | sign hp _ _ ih => rw [List.foldl_append, foldl_depthAfter_of_mem_spellings hp, ih, List.foldl_cons]

/-- An arrangement closes the brackets that it opens. -/
theorem Arranged.foldl_depthAfterSign {p : Part} {xs : List Sign} (h : Arranged p xs) (d : Nat) :
    xs.foldl depthAfterSign d = d := by
  induction h generalizing d with
  | letter x => rfl
  | constant b => rfl
  | not _ ih => exact ih d
  | group _ ih => simp [depthAfterSign, ih]
  | overline _ ih => simp [depthAfterSign, ih]
  | ofOperand _ ih => exact ih d
  | @link xs ys op hop _ _ ih₁ ih₂ =>
    have hflat : ∀ op ∈ Sign.connectives, depthAfterSign d op = d := by simp [Sign.connectives, depthAfterSign]
    rw [List.foldl_append, ih₁, List.foldl_cons, hflat op hop, ih₂]

/-! ## Blanks -/

/-- A text that differs in blanks only starts with a letter if the other does. -/
theorem startsWithLetter_of_respaced {s t : List Char} (h : Respaced s t) (hl : StartsWithLetter t) : StartsWithLetter s := by
  obtain ⟨c, hc, ha⟩ := hl
  cases t with
  | nil => cases hc
  | cons d t =>
    obtain rfl : d = c := by simpa using hc
    have hblank : isBlank d = false := isBlank_eq_false_of_isAlphanum (isAlphanum_of_isAlpha ha)
    obtain ⟨w, s', rfl, -, hnil, -⟩ := h.symm.exists_of_cons (w := []) rfl (by simp) hblank
    rw [hnil rfl]
    exact ⟨d, rfl, ha⟩

/-- Texts that differ in blanks write the same signs. -/
theorem Written.respaced {xs : List Sign} {s t : List Char} (h : Respaced s t) (hs : Written Sign.spellings [] xs s) :
    Written Sign.spellings [] xs t := by
  induction xs generalizing s t with
  | nil => simpa using Written.blanks (h.isBlank hs.isBlank_of_nil) (.nil : Written Sign.spellings [] [] [])
  | cons x xs ih =>
    obtain ⟨w, p, s', rfl, hw, hp, hm, hs'⟩ := written_cons.mp hs
    have hsolid := Sign.isBlank_of_mem_spellings hp
    obtain ⟨v, e, he⟩ := Sign.exists_eq_append_of_mem_spellings hp
    cases p with
    | nil => simp at he
    | cons c p =>
      obtain ⟨hc, hp'⟩ := List.forall_mem_cons.mp hsolid
      obtain ⟨w', t', rfl, hw', -, ht⟩ := h.exists_of_cons rfl hw hc
      obtain ⟨t'', rfl, hrest⟩ := ht.exists_of_append hp'
      refine Written.blanks hw' (.sign (p := c :: p) hp (fun hmac hl => hm hmac ?_) (ih hrest hs'))
      simpa using startsWithLetter_of_respaced hrest (by simpa using hl)

end Propositional.Latex

namespace Propositional.Derivation

open Text Latex

/-! ## Cutting a derivation -/

/-- A formula is not cut. -/
theorem IsSource.uncut {s : List Char} (h : IsSource s) : Uncut '=' s := by
  obtain ⟨⟨xs, harranged, hw⟩, -, henclosed⟩ := h
  refine uncut_of_depth (fun _ => rfl) ?_ fun a b he hzero => ?_
  · rw [hw.foldl_depthAfter, harranged.foldl_depthAfterSign]
  · have hdepth := le_foldl_depthAfter a 0
    have := henclosed a b he
    rw [opened, closed] at hdepth
    omega

/-- A source with blanks around it is not cut at an `=`. -/
theorem Padded.uncut {s q : List Char} (h : Padded isBlank s q) (hs : IsSource s) : Uncut '=' q := by
  obtain ⟨u, v, rfl, hu, hv⟩ := h
  have hblanks : ∀ {w : List Char}, (∀ c ∈ w, isBlank c) → Uncut '=' w := fun hw => uncut_blanks (fun _ => rfl) (by decide) hw
  exact (hblanks hu).append (hs.uncut.append (hblanks hv))

/-- The texts write the same signs, which can stand one behind the other. -/
def Rewritten (s t : List Char) : Prop :=
  ∃ xs, Arranged .chain xs ∧ Written Sign.spellings [] xs s ∧ Written Sign.spellings [] xs t

/-- A part of a cleaned derivation writes the formula that it was. -/
theorem rewritten_of_respaced {s q w p' p : List Char} (hs : IsSource s) (hq : Padded isBlank s q) (he : q = w ++ p')
    (hw : ∀ c ∈ w, isBlank c) (hp : Respaced p' p) : Rewritten s (trim p) ∧ trim p ≠ [] := by
  obtain ⟨xs, harranged, hwritten⟩ := hs.written
  obtain ⟨u, v, rfl, hu, hv⟩ := hq
  have hpadded : Written Sign.spellings [] xs (u ++ (s ++ v)) :=
    .blanks hu (.append_blanks hv (hwritten.weaken fun hl => absurd hl (not_startsWithLetter_blanks hv not_startsWithLetter_nil)))
  rw [he] at hpadded
  have hpart : Written Sign.spellings [] xs (trim p) :=
    ((hpadded.of_blanks (fun _ => List.Subset.refl _) hw).respaced hp).trim (fun _ => List.Subset.refl _) not_startsWithLetter_nil
  refine ⟨⟨xs, harranged, hwritten, hpart⟩, fun hnil => ?_⟩
  rw [hnil] at hpart
  exact harranged.ne_nil (eq_nil_of_written_nil hpart)

/-- The parts of a cleaned derivation that are no blanks write the formulas that they were. -/
theorem forall₂_rewritten {ss qs ps : List (List Char)} (hq : List.Forall₂ (fun s q => IsSource s ∧ Padded isBlank s q) ss qs)
    (hp : List.Forall₂ (fun q p => ∃ w p', q = w ++ p' ∧ (∀ c ∈ w, isBlank c) ∧ Respaced p' p) qs ps) :
    List.Forall₂ Rewritten ss ((ps.map trim).filter (!·.isEmpty)) := by
  induction hq generalizing ps with
  | nil =>
    cases hp
    exact .nil
  | cons hs _ ih =>
    obtain _ | ⟨⟨w, p', he, hw, hp⟩, hps⟩ := hp
    obtain ⟨hrewritten, hne⟩ := rewritten_of_respaced hs.1 hs.2 he hw hp
    rw [List.map_cons, List.filter_cons, if_pos (by simpa using hne)]
    exact .cons hrewritten (ih hps)

/-- The texts of the steps of a laid out derivation write the formulas, one text for each. -/
theorem LaidOut.segments {ss : List (List Char)} {t : List Char} (h : LaidOut ss t) (hs : ∀ s ∈ ss, IsSource s) :
    List.Forall₂ Rewritten ss (segments t) := by
  obtain ⟨qs, hclean, hpad⟩ := h.clean hs
  have hsource := (List.forall₂_and_left ss qs).mpr ⟨hs, hpad⟩
  have huncut : ∀ q ∈ qs, Uncut '=' q :=
    ((List.forall₂_and_left qs ss).mp (List.Forall₂.flip (hsource.imp fun s q h => ⟨h.2.uncut h.1, trivial⟩))).1
  have hne : qs ≠ [] := by
    rintro rfl
    cases hpad
    exact h.1 rfl
  have hparts := splitTopLevel_trimLines (x := '=') (fun _ => rfl) (by decide) (joinWith ['='] qs)
  rw [splitTopLevel_joinWith (fun _ => rfl) hne huncut, ← hclean] at hparts
  exact forall₂_rewritten hsource hparts

/-! ## The steps -/

/-- Texts are read as steps, numbered one after the other, each with the native notation of the formula that it writes. -/
theorem stepsFrom_of_rewritten (strict : Bool) {ss ts : List (List Char)} (h : List.Forall₂ Rewritten ss ts) (index : Nat) :
    ∃ steps, stepsFrom strict index ts = .ok steps ∧ steps.map Step.index = List.range' index ss.length ∧
      List.Forall₂ (fun s step => step.diagnostics = [] ∧
        ∀ mode, normalize mode (String.ofList s) = .ok ⟨step.formula, []⟩) ss steps := by
  induction h generalizing index with
  | nil => exact ⟨[], rfl, rfl, .nil⟩
  | @cons s t ss ts hst _ ih =>
    obtain ⟨xs, harranged, hs, ht⟩ := hst
    obtain ⟨formula, hformula⟩ := harranged.exists_normalize
    obtain ⟨steps, hsteps, hindex, hall⟩ := ih (index + 1)
    have hnorm : ∀ {s}, Written Sign.spellings [] xs s → ∀ mode, normalize mode (String.ofList s) = .ok ⟨formula, []⟩ :=
      fun hs mode => hformula mode _ (by rwa [String.toList_ofList])
    refine ⟨⟨index, formula, String.ofList (collapse t), []⟩ :: steps, ?_, ?_, .cons ⟨rfl, hnorm hs⟩ hall⟩
    · rw [stepsFrom, hnorm ht, hsteps]
      rfl
    · rw [List.map_cons, hindex]
      rfl

/-- The steps of a derivation that is laid out with formulas are these formulas: as many, numbered in order, without a diagnostic,
and each has the native notation that its formula has when it is translated alone, strict or not. -/
theorem steps_of_laidOut (strict : Bool) {sources : List String} (hs : ∀ source ∈ sources, IsSource source.toList) {text : String}
    (h : LaidOut (sources.map String.toList) text.toList) :
    ∃ steps, Derivation.steps strict text = .ok steps ∧ steps.map Step.index = List.range' 1 sources.length ∧
      List.Forall₂ (fun source step => step.diagnostics = [] ∧ ∀ mode, normalize mode source = .ok ⟨step.formula, []⟩)
        sources steps := by
  have hsources : ∀ s ∈ sources.map String.toList, IsSource s := by simpa using hs
  obtain ⟨steps, hsteps, hindex, hall⟩ := stepsFrom_of_rewritten strict (h.segments hsources) 1
  refine ⟨steps, hsteps, by simpa using hindex, ?_⟩
  simpa using hall

/-- Two steps, the first one with all that a layout can have: delimiters, sized parentheses, a note, a line break and marks of
alignment. Its arrow holds an `=`, which is no cut. -/
theorem steps_of_laidOut_arrow : ∃ steps,
    Derivation.steps true "$\\left(A => B\\right)$ &\\text\x7b(Def)\x7d \\\\\n &= \\neg A \\lor B" = .ok steps ∧
      steps.map Step.index = [1, 2] ∧
      List.Forall₂ (fun source step => step.diagnostics = [] ∧ ∀ mode, normalize mode source = .ok ⟨step.formula, []⟩)
        ["(A => B)", "\\neg A \\lor B"] steps := by
  have hfirst : IsSource "(A => B)".toList := by
    refine ⟨⟨[.lparen, .letter ⟨'A', rfl⟩, .arrow, .letter ⟨'B', rfl⟩, .rparen], ?_, ?_⟩, by decide, fun a b he => ?_⟩
    · have hlink : Arranged .chain ([.letter ⟨'A', rfl⟩] ++ .arrow :: [.letter ⟨'B', rfl⟩]) :=
        .link (by decide) (.ofOperand (.letter _)) (.letter _)
      exact .ofOperand (.group hlink)
    · refine .plain (p := ['(']) (by decide) (by decide) (.plain (p := ['A']) (by decide) (by decide) ?_)
      refine .blank (by decide) (.plain (p := ['=', '>']) (by decide) (by decide) (.blank (by decide) ?_))
      exact .plain (p := ['B']) (by decide) (by decide) (.plain (p := [')']) (by decide) (by decide) .nil)
    · have hall : ∀ n < 8, "(A => B)".toList[n]? = some '=' →
          ("(A => B)".toList.take n).count ')' + ("(A => B)".toList.take n).count '\x7d' <
            ("(A => B)".toList.take n).count '(' + ("(A => B)".toList.take n).count '\x7b' := by decide
      have hlength : a.length < 8 := by
        have := congrArg List.length he
        simp at this
        omega
      have hcut := hall a.length hlength (by rw [he]; simp)
      rwa [he, List.take_left] at hcut
  have hsecond : IsSource "\\neg A \\lor B".toList := by
    refine ⟨⟨[.not, .letter ⟨'A', rfl⟩, .or, .letter ⟨'B', rfl⟩], ?_, ?_⟩, by decide, fun a b he => ?_⟩
    · show Arranged .chain ([.not, .letter ⟨'A', rfl⟩] ++ .or :: [.letter ⟨'B', rfl⟩])
      exact .link (by decide) (.ofOperand (.not (.letter _))) (.letter _)
    · refine .sign (p := "\\neg".toList) (by decide) (fun _ => not_startsWithLetter_cons (by decide) _) (.blank (by decide) ?_)
      refine .plain (p := ['A']) (by decide) (by decide) (.blank (by decide) ?_)
      refine .sign (p := "\\lor".toList) (by decide) (fun _ => not_startsWithLetter_cons (by decide) _) (.blank (by decide) ?_)
      exact .plain (p := ['B']) (by decide) (by decide) .nil
    · have hmem : '=' ∈ "\\neg A \\lor B".toList := by simp [he]
      exact absurd hmem (by decide)
  have hsized : Sized "(A => B)".toList "\\left(A => B\\right)".toList := by
    rw [show "(A => B)".toList = '(' :: ("A => B".toList ++ [')']) by decide,
      show "\\left(A => B\\right)".toList =
        '\\' :: ("left".toList ++ '(' :: ("A => B".toList ++ '\\' :: ("right".toList ++ [')']))) by decide]
    exact .bracket (by decide) (.inl rfl) (.append_left _ (.bracket (by decide) (.inr rfl) .nil))
  have hmargin : Margin "$ &\\text\x7b(Def)\x7d \\\\\n &".toList := by
    rw [show "$ &\\text\x7b(Def)\x7d \\\\\n &".toList =
      '$' :: ' ' :: '&' :: ((Item.note "(Def)".toList).text ++ ' ' :: '\\' :: '\\' :: '\n' :: ' ' :: '&' :: []) by decide]
    refine .mark (by decide) (.mark (by decide) (.mark (by decide) (.note (by decide) (.mark (by decide) (.lineBreak ?_)))))
    exact .mark (by decide) (.mark (by decide) (.mark (by decide) .nil))
  have hsame : Sized "\\neg A \\lor B".toList "\\neg A \\lor B".toList := by
    simpa using Sized.append_left "\\neg A \\lor B".toList .nil
  have hlaid : LaidOut (["(A => B)", "\\neg A \\lor B"].map String.toList)
      "$\\left(A => B\\right)$ &\\text\x7b(Def)\x7d \\\\\n &= \\neg A \\lor B".toList := by
    refine ⟨by simp, [['$'] ++ ("\\left(A => B\\right)".toList ++ "$ &\\text\x7b(Def)\x7d \\\\\n &".toList),
      [' '] ++ ("\\neg A \\lor B".toList ++ [])], by decide, .cons ?_ (.cons ?_ .nil)⟩
    · exact ⟨_, _, _, rfl, by decide, hsized, hmargin⟩
    · exact ⟨_, _, _, rfl, by decide, hsame, .nil⟩
  exact steps_of_laidOut true (by simpa using ⟨hfirst, hsecond⟩) hlaid

end Propositional.Derivation
