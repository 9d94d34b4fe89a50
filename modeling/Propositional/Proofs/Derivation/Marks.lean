import Propositional.Derivation
import Propositional.Proofs.Derivation.Passes
import Propositional.Proofs.Latex.Loosening
import Propositional.Proofs.Text.Parts

/-!
# Marks of alignment and delimiters

The characters `&` and `$` of a derivation are taken out and leave nothing behind. Where they stand between two things that do
not go on when they meet, the formulas of the derivation are the same as with a blank in their place (`formulas_of_apart`).
Where they hold apart what goes on, as in `A \lor&B`, what they held apart is joined (`formulas_joined`).
-/

namespace Propositional.Derivation

open Text Latex

/-! ## Without the layout -/

/-- A derivation without its notes. -/
def withoutNotes (s : List Char) : List Char := replaceMatches note [] s

/-- A derivation without its layout, with its lines as they are. -/
def bare (s : List Char) : List Char :=
  let s := replaceMatches environment [] (withoutNotes s)
  let s := replaceMatches (literal ['\\', '\\']) [] s
  let s := replaceMatches sizing [] s
  let s := replaceMatches spacing [' '] s
  s.filter isLasting

/-- Cleaning is taking out the layout, and trimming the lines. -/
theorem clean_eq (s : List Char) : clean s = trimLines (bare s) := rfl

/-- A place stands in the text of a note. -/
def InNote (u v : List Char) : Prop := InBraces noteMacros (· != '}') u v

/-- A place stands between the macro of a note or an environment and its group in braces. -/
def Parts (u v : List Char) : Prop :=
  Detaches noteMacros (· != '}') true u v ∨
    Detaches environmentMacros (fun c => c.isAlpha || c = '*') false (withoutNotes u) (withoutNotes v)

/-- The text of the last step before a place, as far as it stands before it. -/
def stepBefore (u : List Char) : List Char := ((splitTopLevel ['='] (bare u)).getLast?).getD []

/-- What stands of that step behind the place. -/
def stepBehind (u v : List Char) : List Char :=
  ((splitTopLevelFrom ['='] ((bare u).foldl depthAfter 0) (bare v)).head?).getD []

/-- Nothing is joined when what stands at a place is taken out: it stands in a note, or else neither between a macro of
the layout and its group in braces, nor, without the layout, between two texts of which the second goes on what the
first ends in. -/
def Apart (u v : List Char) : Prop := InNote u v ∨ ¬Parts u v ∧ ¬Joins (stepBefore u) (stepBehind u v)

/-! ## Notes -/

/-- A note is found exactly where one is written, and is as long as it is written. -/
theorem note_eq_some_iff {s : List Char} {n : Nat} :
    note s = some n ↔ ∃ m r, s = m ++ r ∧ IsBraced noteMacros (· != '}') true m ∧ n = m.length :=
  bracedMatcher_eq_some_iff note_openings (by decide)

/-- A note at the start of a text is taken out. -/
theorem withoutNotes_append {m : List Char} (hm : IsBraced noteMacros (· != '}') true m) (s : List Char) :
    withoutNotes (m ++ s) = withoutNotes s := by
  have hne : m ≠ [] := by
    obtain ⟨o, -, w, k, rfl, -⟩ := hm
    simp
  have hsome : note (m ++ s) = some m.length := note_eq_some_iff.mpr ⟨m, s, rfl, hm, rfl⟩
  rw [withoutNotes, replaceMatches, replaceFrom_of_match hne hsome]
  rfl

/-- A note that starts before a macro ends before it, or is open there. If it is open there, the backslash of the macro stands in
the content of the note. -/
theorem exists_note_before {o : String} (ho : o ∈ noteMacros) {x y : List Char} (hx : x ≠ []) {n : Nat}
    (h : note (x ++ (o.toList ++ y)) = some n) :
    (∃ m b, x = m ++ b ∧ IsBraced noteMacros (· != '}') true m) ∨
      ∃ o' ∈ noteMacros, ∃ w k, x = o'.toList ++ (w ++ '{' :: k) ∧ (∀ c ∈ w, isBlank c) ∧ ∀ c ∈ k, c != '}' := by
  obtain ⟨m, r, he, hm, -⟩ := note_eq_some_iff.mp h
  rcases List.append_eq_append_iff.mp he with ⟨u, rfl, hu⟩ | ⟨u, hu, -⟩
  · cases u with
    | nil =>
      rw [List.append_nil] at hm
      exact .inl ⟨x, [], (List.append_nil x).symm, hm⟩
    | cons d u =>
      obtain ⟨name, -, hname⟩ := note_openings o ho
      rw [hname, List.cons_append, List.cons_append] at hu
      obtain ⟨rfl, -⟩ := List.cons.inj hu
      rcases hm.cases_append note_openings hx with h | h | h | ⟨h, -⟩ | ⟨-, o', ho', w, k, k', hx', -, hw, hk, -⟩
      · exact absurd h (by decide)
      · cases h
      · cases h
      · exact absurd h (by decide)
      · exact .inr ⟨o', ho', w, k, hx', hw, hk⟩
  · exact .inl ⟨m, u, hu, hm⟩

/-- A note is taken out whatever stands in it. A note that starts before it ends before it, or is open there and ends with it. -/
theorem exists_withoutNotes {o : String} (ho : o ∈ noteMacros) {w : List Char} (hw : ∀ c ∈ w, isBlank c) (r a : List Char) :
    ∃ s, ∀ k, (∀ c ∈ k, c != '}') → withoutNotes (a ++ (o.toList ++ (w ++ '{' :: (k ++ '}' :: r)))) = s := by
  induction hn : a.length using Nat.strong_induction_on generalizing a with
  | _ n ih =>
    subst hn
    by_cases hwhole : ∃ m b, a = m ++ b ∧ IsBraced noteMacros (· != '}') true m
    · obtain ⟨m, b, rfl, hm⟩ := hwhole
      have hlen : b.length < (m ++ b).length := by
        obtain ⟨o, -, w, k, rfl, -⟩ := hm
        simp only [List.length_append, List.length_cons]
        omega
      obtain ⟨s, hs⟩ := ih _ hlen b rfl
      exact ⟨s, fun k hk => by rw [List.append_assoc, withoutNotes_append hm, hs k hk]⟩
    · by_cases hopen : ∃ o' ∈ noteMacros, ∃ w' k', a = o'.toList ++ (w' ++ '{' :: k') ∧ (∀ c ∈ w', isBlank c) ∧ ∀ c ∈ k', c != '}'
      · obtain ⟨o', ho', w', k', rfl, hw', hk'⟩ := hopen
        have hmacros : ∀ o ∈ noteMacros, ∀ c ∈ o.toList, c != '}' := by decide
        refine ⟨withoutNotes r, fun k hk => ?_⟩
        have hcontent : ∀ c ∈ k' ++ (o.toList ++ (w ++ '{' :: k)), c != '}' := by
          refine List.forall_mem_append.mpr ⟨hk', List.forall_mem_append.mpr ⟨hmacros o ho, List.forall_mem_append.mpr ⟨?_, ?_⟩⟩⟩
          · exact fun c hc => by simpa using ne_of_holds (hw c hc) (show isBlank '}' = false by decide)
          · exact List.forall_mem_cons.mpr ⟨by decide, hk⟩
        have hnote := withoutNotes_append ⟨o', ho', w', _, rfl, hw', hcontent, fun _ => rfl⟩ r
        simpa using hnote
      · cases a with
        | nil =>
          refine ⟨withoutNotes r, fun k hk => ?_⟩
          have hnote := withoutNotes_append ⟨o, ho, w, k, rfl, hw, hk, fun _ => rfl⟩ r
          simpa using hnote
        | cons c a =>
          obtain ⟨s, hs⟩ := ih _ (Nat.lt_succ_self _) a rfl
          refine ⟨c :: s, fun k hk => ?_⟩
          have hnone : note (c :: a ++ (o.toList ++ (w ++ '{' :: (k ++ '}' :: r)))) = none := by
            by_contra hsome
            obtain ⟨n, hn⟩ := Option.ne_none_iff_exists'.mp hsome
            exact (exists_note_before ho (by simp) hn).elim hwhole hopen
          rw [← hs k hk]
          exact replaceFrom_of_none hnone

/-- A derivation is the same without its notes whatever character stands in a note. -/
theorem withoutNotes_of_inNote {u v : List Char} (h : InNote u v) {c d : Char} (hc : c ≠ '}') (hd : d ≠ '}') :
    withoutNotes (u ++ c :: v) = withoutNotes (u ++ d :: v) := by
  obtain ⟨a, o, ho, w, k, rfl, hw, hk, hv⟩ := h
  obtain ⟨r, hr⟩ := List.head?_eq_some_iff.mp hv
  obtain ⟨s, hs⟩ := exists_withoutNotes ho hw r a
  have hinside : ∀ {c : Char}, c ≠ '}' → withoutNotes (a ++ (o.toList ++ (w ++ '{' :: k)) ++ c :: v) = s := by
    intro c hc
    have htake : ∀ x ∈ v.takeWhile (fun x => x != '}'), x != '}' := fun x hx =>
      List.mem_takeWhile_imp (p := fun x => x != '}') hx
    have hcontent : ∀ x ∈ k ++ c :: v.takeWhile (fun x => x != '}'), x != '}' :=
      List.forall_mem_append.mpr ⟨hk, List.forall_mem_cons.mpr ⟨by simpa using hc, htake⟩⟩
    rw [← hs _ hcontent]
    conv => lhs; rw [← List.takeWhile_append_dropWhile (p := fun x => x != '}') (l := v), hr]
    simp
  rw [hinside hc, hinside hd]

/-! ## The passes at a place -/

/-- What stands at a place that is in no note stays there, but for a mark. -/
theorem bare_append_cons {u v : List Char} (hnote : ¬InNote u v) (hparts : ¬Parts u v) {c : Char} (hc : c ∈ [' ', '&', '$']) :
    bare (u ++ c :: v) = bare u ++ ([c].filter isLasting ++ bare v) := by
  obtain ⟨hdetaches, hdetaches'⟩ := not_or.mp hparts
  have hletters : ∀ c ∈ [' ', '&', '$'], (c.isAlpha || c = '*') = false := by decide
  have hnotes : withoutNotes (u ++ c :: v) = withoutNotes u ++ c :: withoutNotes v :=
    replaceMatches_bracedMatcher note_openings rfl hc (fun _ => hdetaches) (fun _ => hnote) []
  have henv : ∀ {u v}, ¬Detaches environmentMacros (fun c => c.isAlpha || c = '*') false u v →
      replaceMatches environment [] (u ++ c :: v) = replaceMatches environment [] u ++ c :: replaceMatches environment [] v :=
    fun h => replaceMatches_bracedMatcher environment_openings rfl hc (fun _ => h)
      (fun hin => by rw [hletters c hc] at hin; cases hin) []
  unfold bare
  simp only [hnotes, henv hdetaches', isWordwise_lineBreak.replaceMatches hc, (isWordwise_macroMatcher _).replaceMatches hc,
    sizing,
    isWordwise_spacing.replaceMatches hc, List.filter_append, List.filter_cons, List.filter_nil]
  split <;> simp

/-! ## The formulas of the parts -/

/-- The formula of a part of a derivation, if the part is no blank. -/
def formulaOf? (strict : Bool) (p : List Char) : Option (Except UnresolvedScope String) :=
  if trim p = [] then none else some ((normalize strict (String.ofList p)).map Normalized.formula)

/-- The formulas of a derivation are those of its parts, one after the other. -/
theorem map_formula_stepsFrom (strict : Bool) (ps : List (List Char)) (index : Nat) :
    (stepsFrom strict index ((ps.map trim).filter (!·.isEmpty))).map (·.map Step.formula) =
      (ps.filterMap (formulaOf? strict)).mapM id := by
  induction ps generalizing index with
  | nil => rfl
  | cons p ps ih =>
    rw [List.map_cons, List.filter_cons, List.filterMap_cons, formulaOf?]
    by_cases hp : trim p = []
    · simpa [hp] using ih index
    · have htrim : normalize strict (String.ofList (trim p)) = normalize strict (String.ofList p) :=
        normalize_reflowed (by rw [trim_trim]; exact .refl _) strict
      rw [if_pos (by simpa using hp), if_neg hp, stepsFrom, htrim]
      simp only [List.mapM_cons, id, ← ih (index + 1)]
      cases normalize strict (String.ofList p) with
      | error e => rfl
      | ok n => cases stepsFrom strict (index + 1) ((ps.map trim).filter (!·.isEmpty)) <;> rfl

/-- Parts that are the same up to their layout have the same formula. -/
theorem formulaOf?_reflowed (strict : Bool) {p q : List Char} (h : Reflowed (trim p) (trim q)) :
    formulaOf? strict p = formulaOf? strict q := by
  have hnil : ∀ {p q : List Char}, Reflowed (trim p) (trim q) → trim p = [] → trim q = [] := fun h hp =>
    (h.eq_of_not_blank (by simp [hp])).trans hp
  rw [formulaOf?, formulaOf?, normalize_reflowed h strict, if_congr ⟨hnil h, hnil h.symm⟩ rfl rfl]

/-- A blank where nothing goes on does not show in the formula of a part. -/
theorem formulaOf?_of_not_joins (strict : Bool) {p q : List Char} (h : ¬Joins p q) :
    formulaOf? strict (p ++ q) = formulaOf? strict (p ++ ' ' :: q) := by
  have hnil : ∀ s : List Char, trim s = [] ↔ ∀ c ∈ s, isBlank c := fun s =>
    ⟨isBlank_of_trim_eq_nil, fun hs => by rw [trim, List.dropWhile_eq_nil_iff.mpr hs]; rfl⟩
  have hempty : trim (p ++ q) = [] ↔ trim (p ++ ' ' :: q) = [] := by
    rw [hnil, hnil, List.forall_mem_append, List.forall_mem_append, List.forall_mem_cons, and_iff_right isBlank_space]
  rw [formulaOf?, formulaOf?, normalize_of_not_joins h, if_congr hempty rfl rfl]

/-- The formulas of a derivation. -/
def formulas (strict : Bool) (s : String) : Except UnresolvedScope (List String) :=
  (steps strict s).map fun steps => steps.map Step.formula

/-- The formulas of a derivation are those of its parts between top-level `=`, without the blank ones. -/
theorem formulas_eq (strict : Bool) (s : List Char) :
    formulas strict (String.ofList s) = ((splitTopLevel ['='] (bare s)).filterMap (formulaOf? strict)).mapM id := by
  have hparts : ∀ {ps qs : List (List Char)},
      List.Forall₂ (fun p q => ∃ w p', p = w ++ p' ∧ (∀ c ∈ w, isBlank c) ∧ Respaced p' q) ps qs →
        ps.filterMap (formulaOf? strict) = qs.filterMap (formulaOf? strict) := by
    intro ps qs h
    induction h with
    | nil => rfl
    | @cons p q ps qs hpq _ ih =>
      obtain ⟨w, p, rfl, hw, hp⟩ := hpq
      have htrim : trim (w ++ p) = trim p := by rw [trim, List.dropWhile_append_of_pos hw, trim]
      have hreflowed : Reflowed (trim (w ++ p)) (trim q) := by
        rw [htrim]
        exact .of_respaced hp
      rw [List.filterMap_cons, List.filterMap_cons, formulaOf?_reflowed strict hreflowed, ih]
  rw [formulas, steps, String.toList_ofList, segments, map_formula_stepsFrom, clean_eq,
    hparts (splitTopLevel_trimLines (fun _ => rfl) (by decide) (bare s))]

/-- A blank between two texts shows in the formulas only where the part of the first goes on in the second. -/
theorem filterMap_formulaOf?_of_not_joins (strict : Bool) {p q : List Char}
    (h : ¬Joins (((splitTopLevel ['='] p).getLast?).getD [])
      (((splitTopLevelFrom ['='] (p.foldl depthAfter 0) q).head?).getD [])) :
    (splitTopLevel ['='] (p ++ q)).filterMap (formulaOf? strict) =
      (splitTopLevel ['='] (p ++ ' ' :: q)).filterMap (formulaOf? strict) := by
  obtain ⟨before, last, hp, happend⟩ := exists_splitTopLevelFrom_append ['='] p 0
  obtain ⟨first, after, hq⟩ := exists_splitTopLevelFrom_eq_cons ['='] (p.foldl depthAfter 0) q
  have hblank : splitTopLevelFrom ['='] (p.foldl depthAfter 0) (' ' :: q) = (' ' :: first) :: after := by
    rw [splitTopLevelFrom, if_neg (by simp), depthAfter_of_isFlat (isFlat_of_isBlank isBlank_space), hq]
    rfl
  rw [splitTopLevel, hp, hq, List.getLast?_concat, List.head?_cons, Option.getD_some, Option.getD_some] at h
  rw [splitTopLevel, splitTopLevel, happend q _ _ hq, happend _ _ _ hblank, List.filterMap_append, List.filterMap_append,
    List.filterMap_cons, List.filterMap_cons, formulaOf?_of_not_joins strict h]

/-- Where a mark joins nothing when it is taken out, the formulas of a derivation are the same as with a blank in its place. -/
theorem formulas_of_apart {mark : Char} (hm : mark = '&' ∨ mark = '$') {u v : List Char} (h : Apart u v) (strict : Bool) :
    formulas strict (String.ofList (u ++ mark :: v)) = formulas strict (String.ofList (u ++ ' ' :: v)) := by
  have htable : mark ≠ '}' ∧ mark ∈ [' ', '&', '$'] ∧ isLasting mark = false := by
    rcases hm with rfl | rfl <;> decide
  obtain ⟨hbrace, hmem, hlasting⟩ := htable
  rw [formulas_eq, formulas_eq]
  by_cases hnote : InNote u v
  · rw [bare, bare, withoutNotes_of_inNote hnote hbrace (show ' ' ≠ '}' by decide)]
  · obtain ⟨hparts, hjoins⟩ := h.resolve_left hnote
    have hmark : bare (u ++ mark :: v) = bare u ++ bare v := by
      rw [bare_append_cons hnote hparts hmem, List.filter_cons_of_neg (by simp [hlasting]), List.filter_nil, List.nil_append]
    have hspace : bare (u ++ ' ' :: v) = bare u ++ ' ' :: bare v := bare_append_cons hnote hparts (by decide)
    rw [hmark, hspace, filterMap_formulaOf?_of_not_joins strict hjoins]

/-- A mark of alignment before the `=` of a step. -/
theorem formulas_of_apart_step : Apart "A \\lor B ".toList "= B \\lor A".toList ∧
    formulas true (String.ofList ("A \\lor B ".toList ++ '&' :: "= B \\lor A".toList)) =
      formulas true (String.ofList ("A \\lor B ".toList ++ ' ' :: "= B \\lor A".toList)) := by
  have hparts : ¬Parts "A \\lor B ".toList "= B \\lor A".toList := by
    rintro (⟨-, h⟩ | ⟨-, h⟩) <;> exact absurd h (by decide)
  have h : Apart "A \\lor B ".toList "= B \\lor A".toList := .inr ⟨hparts, by decide⟩
  exact ⟨h, formulas_of_apart (.inl rfl) h true⟩

/-- A mark that ends the name of a macro: without it, the name goes on with the letter behind. -/
theorem formulas_joined : formulas false "A \\lor&B" = .ok ["A \\lorB"] ∧ formulas false "A \\lor B" = .ok ["A | B"] ∧
    formulas false "A \\lor&B" ≠ formulas false "A \\lor B" := by
  decide

end Propositional.Derivation
