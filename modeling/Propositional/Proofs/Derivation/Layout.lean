import Propositional.Proofs.Derivation.Items

/-!
# Laying out a derivation

`LaidOut` says which texts lay out a list of formulas as a derivation: what may stand before and behind each formula, and which
macros may stand inside it. Every such text is made of items (`itemized_of_entries`), and what cleaning leaves are the formulas
with blanks around them (`LaidOut.clean`).
-/

namespace Propositional.Derivation

open Text Latex

/-! ## Layouts -/

/-- The second text is the first one with macros that size brackets directly before some of its parentheses. -/
inductive Sized : List Char → List Char → Prop where
  | nil : Sized [] []
  | char (c : Char) {s f : List Char} : Sized s f → Sized (c :: s) (c :: f)
  | bracket {name : String} {c : Char} {s f : List Char} : name ∈ sizeNames → c = '(' ∨ c = ')' → Sized s f →
      Sized (c :: s) ('\\' :: (name.toList ++ c :: f))

/-- Blanks, the delimiters of mathematics and the marks of alignment. -/
def isMark (c : Char) : Bool := isBlank c || !isLasting c

/-- What may stand behind a formula: marks, notes and line breaks. -/
inductive Margin : List Char → Prop where
  | nil : Margin []
  | mark {c : Char} {m : List Char} : isMark c → Margin m → Margin (c :: m)
  | note {content m : List Char} : '}' ∉ content → Margin m → Margin ((Item.note content).text ++ m)
  | lineBreak {m : List Char} : Margin m → Margin ('\\' :: '\\' :: m)

/-- A formula is laid out behind marks, with sized brackets, and before a margin. -/
def Entry (s p : List Char) : Prop := ∃ w f m, p = w ++ (f ++ m) ∧ (∀ c ∈ w, isMark c) ∧ Sized s f ∧ Margin m

/-- Formulas are laid out one behind the other, with `=` between neighbours. -/
def LaidOut (ss : List (List Char)) (t : List Char) : Prop :=
  ss ≠ [] ∧ ∃ ps, t = joinWith ['='] ps ∧ List.Forall₂ Entry ss ps

/-- A formula stays sized with any text before it. -/
theorem Sized.append_left (p : List Char) {s f : List Char} (h : Sized s f) : Sized (p ++ s) (p ++ f) := by
  induction p with
  | nil => exact h
  | cons c p ih => exact .char c ih

/-! ## What stands before a text -/

/-- A mark is no letter. -/
theorem isAlpha_of_isMark {c : Char} (h : isMark c) : c.isAlpha = false := by
  rw [Bool.eq_false_iff]
  intro ha
  have hblank : isBlank c = false := isBlank_eq_false_of_isAlphanum (isAlphanum_of_isAlpha ha)
  have hlasting : isLasting c = true := by
    have hne : ∀ d : Char, d.isAlpha = false → c ≠ d := fun d hd => ne_of_holds ha hd
    simp [isLasting, hne '$' (by decide), hne '&' (by decide)]
  simp [isMark, hblank, hlasting] at h

/-- A parenthesis is no letter. -/
theorem isAlpha_of_bracket {c : Char} (h : c = '(' ∨ c = ')') : c.isAlpha = false := by
  rcases h with rfl | rfl <;> decide

/-- Before a text that does not start with a letter, a margin does not make one start with it. -/
theorem Margin.not_startsWithLetter {m : List Char} (h : Margin m) {rest : List Char} (hr : ¬StartsWithLetter rest) :
    ¬StartsWithLetter (m ++ rest) := by
  cases h with
  | nil => exact hr
  | mark hc _ => exact not_startsWithLetter_cons (isAlpha_of_isMark hc) _
  | note _ _ => exact not_startsWithLetter_cons (by decide) _
  | lineBreak _ => exact not_startsWithLetter_cons (by decide) _

/-- Sizing macros do not bring a letter to the start. -/
theorem Sized.startsWithLetter {s f rest : List Char} (h : Sized s f) (hl : StartsWithLetter (f ++ rest)) :
    StartsWithLetter (s ++ rest) := by
  cases h with
  | nil => exact hl
  | char c _ =>
    obtain ⟨d, hd, ha⟩ := hl
    exact ⟨d, hd, ha⟩
  | bracket _ _ _ => exact absurd hl (not_startsWithLetter_cons (by decide) _)

/-! ## Texts made of items -/

/-- Before the text `rest`, items make up the text `f`, and without the layout among them the text `s`. -/
def Itemized (rest s f : List Char) : Prop :=
  ∃ is, textOf is = f ∧ textOf (is.filter Item.isContent) = s ∧ (∀ i ∈ is, i.IsSound) ∧ Calm rest is

/-- Texts of items one after the other are a text of items. -/
theorem Itemized.append {rest s f s' f' : List Char} (h : Itemized (f' ++ rest) s f) (h' : Itemized rest s' f') :
    Itemized rest (s ++ s') (f ++ f') := by
  obtain ⟨is, hf, hs, hsound, hcalm⟩ := h
  obtain ⟨js, rfl, rfl, hsound', hcalm'⟩ := h'
  refine ⟨is ++ js, ?_, ?_, List.forall_mem_append.mpr ⟨hsound, hsound'⟩, hcalm.append hcalm'⟩
  · rw [textOf_append, hf]
  · rw [List.filter_append, textOf_append, hs]

/-- A single item of the layout, or of what is left. -/
theorem itemized_item {rest : List Char} {i : Item} (h : i.IsSound) (hr : i.isMarked → ¬StartsWithLetter rest) :
    Itemized rest (if i.isContent then i.text else []) i.text := by
  refine ⟨[i], List.append_nil _, ?_, by simpa using h, hr, trivial⟩
  rw [List.filter_cons]
  split
  · exact List.append_nil _
  · rfl

/-- Characters that are no backslash are no layout. -/
theorem itemized_chars (rest : List Char) {s : List Char} (h : '\\' ∉ s) : Itemized rest s s := by
  refine ⟨s.map .char, textOf_map_char s, ?_, ?_, calm_map_char rest s⟩
  · rw [List.filter_eq_self.mpr (by simp [Item.isContent]), textOf_map_char]
  · simp only [List.mem_map, forall_exists_index, and_imp, forall_apply_eq_imp_iff₂]
    rintro c hc rfl
    exact h hc

/-- No mark is a backslash. -/
theorem backslash_notMem_of_isMark {w : List Char} (h : ∀ c ∈ w, isMark c) : '\\' ∉ w :=
  fun hm => absurd (h _ hm) (by decide)

/-- A margin is made of items, and without the layout it is marks. -/
theorem Margin.itemized {m : List Char} (h : Margin m) {rest : List Char} (hr : ¬StartsWithLetter rest) :
    ∃ w, (∀ c ∈ w, isMark c) ∧ Itemized rest w m := by
  induction h with
  | nil => exact ⟨[], by simp, itemized_chars rest (by simp)⟩
  | @mark c m hc _ ih =>
    obtain ⟨w, hw, hi⟩ := ih
    have hfirst : Itemized (m ++ rest) [c] [c] := itemized_chars _ (backslash_notMem_of_isMark (by simpa using hc))
    exact ⟨c :: w, List.forall_mem_cons.mpr ⟨hc, hw⟩, hfirst.append hi⟩
  | @note content m hn hm ih =>
    obtain ⟨w, hw, hi⟩ := ih
    exact ⟨w, hw, (itemized_item (i := .note content) hn fun _ => hm.not_startsWithLetter hr).append hi⟩
  | @lineBreak m hm ih =>
    obtain ⟨w, hw, hi⟩ := ih
    exact ⟨w, hw, (itemized_item (i := .lineBreak) trivial fun _ => hm.not_startsWithLetter hr).append hi⟩

/-! ## Formulas with sized brackets -/

/-- The names that size brackets are names of macros, and found as such. -/
theorem isMacroName_of_mem_sizeNames : ∀ name ∈ sizeNames, isMacroName name.toList ∧ isNamed sizeNames name.toList := by
  decide

/-- The macros of a formula are not taken for layout. -/
theorem isMacroName_of_mem_spellings {x : Sign} {name : List Char} (h : '\\' :: name ∈ x.spellings) :
    isMacroName name ∧ isNamed sizeNames name = false := by
  have htable : ∀ x ∈ Sign.fixed, ∀ p ∈ x.spellings, IsMacro p → isMacroName p.tail ∧ isNamed sizeNames p.tail = false := by
    decide
  refine Sign.of_mem_spellings (fun x hm => ?_) htable h rfl
  exact absurd (Option.some.inj hm) (ne_of_holds x.2 (by decide))

/-- The first character, and the sizing macro before it if there is one. -/
theorem Sized.itemized_cons {c : Char} {s f : List Char} (h : Sized (c :: s) f) (hc : c ≠ '\\') (rest : List Char) :
    ∃ g f', f = g ++ f' ∧ Sized s f' ∧ Itemized (f' ++ rest) [c] g := by
  have hchar : ∀ f', Itemized (f' ++ rest) [c] [c] := fun f' => itemized_chars _ (by simpa using hc.symm)
  cases h with
  | @char _ _ f' h => exact ⟨[c], f', rfl, h, hchar f'⟩
  | @bracket name _ _ f' hn hc h =>
    have hsizing : Itemized ([c] ++ (f' ++ rest)) [] ('\\' :: name.toList) :=
      itemized_item (i := .sizing name.toList) (isMacroName_of_mem_sizeNames name hn) fun _ =>
        not_startsWithLetter_cons (isAlpha_of_bracket hc) _
    exact ⟨'\\' :: name.toList ++ [c], f', by simp, h, hsizing.append (hchar f')⟩

/-- A text without a backslash, and the sizing macros in it. -/
theorem Sized.itemized_append {p s f : List Char} (h : Sized (p ++ s) f) (hp : '\\' ∉ p) (rest : List Char) :
    ∃ g f', f = g ++ f' ∧ Sized s f' ∧ Itemized (f' ++ rest) p g := by
  induction p generalizing f with
  | nil => exact ⟨[], f, rfl, h, itemized_chars _ (by simp)⟩
  | cons c p ih =>
    obtain ⟨hc, hp⟩ : '\\' ≠ c ∧ '\\' ∉ p := by simpa [not_or] using hp
    obtain ⟨g, f', rfl, hs, hi⟩ := h.itemized_cons hc.symm rest
    obtain ⟨g', f'', rfl, hs', hi'⟩ := ih hs hp
    rw [List.append_assoc] at hi
    exact ⟨g ++ g', f'', by simp, hs', hi.append hi'⟩

/-- No sizing macro stands inside a text without parentheses. -/
theorem Sized.exists_of_append {p s f : List Char} (h : Sized (p ++ s) f) (hp : ∀ c ∈ p, c ≠ '(' ∧ c ≠ ')') :
    ∃ f', f = p ++ f' ∧ Sized s f' := by
  induction p generalizing f with
  | nil => exact ⟨f, rfl, h⟩
  | cons c p ih =>
    obtain ⟨hc, hp⟩ := List.forall_mem_cons.mp hp
    cases h with
    | @char _ _ f' h =>
      obtain ⟨f'', rfl, hs⟩ := ih h hp
      exact ⟨f'', rfl, hs⟩
    | bracket _ hb _ => exact absurd hb (by simp [hc])

/-- A formula with sized brackets is made of items, and without the layout it is the formula. No sizing macro stands inside the
name of another macro, and no letter comes behind either. -/
theorem Sized.itemized {s f : List Char} (h : Sized s f) {rest : List Char} (hr : ¬StartsWithLetter rest) {xs : List Sign}
    (hs : Written Sign.spellings [] xs s) : Itemized rest s f := by
  induction hs generalizing f with
  | nil =>
    cases h
    exact itemized_chars rest (by simp)
  | @blank xs s c hc _ ih =>
    obtain ⟨g, f', rfl, h', hi⟩ := h.itemized_cons (ne_of_holds hc (by decide)) rest
    exact hi.append (ih h')
  | @sign xs s x p hp hm _ ih =>
    have hform := Sign.isFormed_of_mem_spellings hp
    unfold isFormed at hform
    split at hform
    · rename_i name
      obtain ⟨hname, hsize⟩ := isMacroName_of_mem_spellings hp
      have hletters := (isMacroName_iff.mp hname).2.1
      have hparens : ∀ c ∈ '\\' :: name, c ≠ '(' ∧ c ≠ ')' :=
        List.forall_mem_cons.mpr ⟨by decide, fun c hc => ⟨ne_of_holds (hletters c hc) (by decide),
          ne_of_holds (hletters c hc) (by decide)⟩⟩
      obtain ⟨f', rfl, h'⟩ := h.exists_of_append hparens
      have hnext : ¬StartsWithLetter (f' ++ rest) := by
        intro hl
        have hl := h'.startsWithLetter hl
        cases s with
        | nil => exact hr hl
        | cons c s => exact hm rfl hl
      exact (itemized_item (i := .named name) ⟨hname, hsize⟩ fun _ => hnext).append (ih h')
    · have hplain : '\\' ∉ p := fun hb => by simpa using List.all_eq_true.mp hform _ hb
      obtain ⟨g, f', rfl, h', hi⟩ := h.itemized_append hplain rest
      exact hi.append (ih h')

/-! ## Derivations -/

/-- A text is another one with characters of a kind around it. -/
def Padded (kind : Char → Bool) (s p : List Char) : Prop :=
  ∃ u v, p = u ++ (s ++ v) ∧ (∀ c ∈ u, kind c) ∧ ∀ c ∈ v, kind c

/-- Without the layout, an entry is its formula with marks around it. -/
theorem Entry.itemized {s p : List Char} (h : Entry s p) {rest : List Char} (hr : ¬StartsWithLetter rest) {xs : List Sign}
    (hs : Written Sign.spellings [] xs s) : ∃ q, Itemized rest q p ∧ Padded isMark s q := by
  obtain ⟨w, f, m, rfl, hw, hf, hm⟩ := h
  obtain ⟨v, hv, hmargin⟩ := hm.itemized hr
  have hformula : Itemized (m ++ rest) s f := hf.itemized (hm.not_startsWithLetter hr) hs
  have hopening : Itemized (f ++ m ++ rest) w w := itemized_chars _ (backslash_notMem_of_isMark hw)
  rw [List.append_assoc] at hopening
  refine ⟨w ++ (s ++ v), Itemized.append ?_ (hformula.append hmargin), w, v, rfl, hw, hv⟩
  rwa [List.append_assoc]

/-- Without the layout, a derivation is its formulas with marks around each, and `=` between neighbours. What stands behind an
entry is an `=` or nothing, and so no letter. -/
theorem itemized_of_entries {ss ps : List (List Char)} (h : List.Forall₂ Entry ss ps)
    (hs : ∀ s ∈ ss, ∃ xs, Written Sign.spellings [] xs s) :
    ∃ qs, Itemized [] (joinWith ['='] qs) (joinWith ['='] ps) ∧ List.Forall₂ (Padded isMark) ss qs := by
  induction h with
  | nil => exact ⟨[], itemized_chars [] (by simp [joinWith]), .nil⟩
  | @cons s p ss ps hp hps ih =>
    obtain ⟨⟨xs, hx⟩, hss⟩ := List.forall_mem_cons.mp hs
    obtain ⟨qs, hi, hqs⟩ := ih hss
    by_cases hne : ps = []
    · subst hne
      cases hps
      cases hqs
      obtain ⟨q, hq, hpad⟩ := hp.itemized not_startsWithLetter_nil hx
      exact ⟨[q], hq, .cons hpad .nil⟩
    · have hne' : qs ≠ [] := by
        rintro rfl
        cases hqs
        cases hps
        exact hne rfl
      have hnext : ¬StartsWithLetter ('=' :: joinWith ['='] ps) := not_startsWithLetter_cons (by decide) _
      obtain ⟨q, hq, hpad⟩ := hp.itemized hnext hx
      refine ⟨q :: qs, ?_, .cons hpad hqs⟩
      rw [joinWith_cons hne, joinWith_cons hne', List.append_assoc, List.append_assoc]
      have hjoin : Itemized (joinWith ['='] ps ++ []) ['='] ['='] := itemized_chars _ (by decide)
      exact Itemized.append (by simpa using hq) (hjoin.append hi)

/-! ## Formulas in a derivation -/

/-- A text can be laid out as a step of a derivation. Its signs can stand one behind the other, a conjunction is not spelled with
the mark of alignment, and before an `=` more brackets open than close. -/
structure IsSource (s : List Char) : Prop where
  written : ∃ xs, Arranged .chain xs ∧ Written Sign.spellings [] xs s
  unmarked : '&' ∉ s
  enclosed : ∀ a b, s = a ++ '=' :: b → a.count ')' + a.count '}' < a.count '(' + a.count '{'

/-- A character of a spelling stays, unless it is the mark of alignment. -/
theorem isLasting_of_mem_spellings {x : Sign} {p : List Char} (hp : p ∈ x.spellings) {c : Char} (hc : c ∈ p) (ha : c ≠ '&') :
    isLasting c := by
  have hletter : ∀ x : Variable, isLasting x.1 := fun x => by
    simp [isLasting, ne_of_holds x.2 (show '$'.isUpper = false by decide), ne_of_holds x.2 (show '&'.isUpper = false by decide)]
  have htable : ∀ x ∈ Sign.fixed, ∀ p ∈ x.spellings, ∀ c ∈ p, c ≠ '&' → isLasting c := by decide
  exact Sign.of_mem_spellings (fun x c hc _ => by simpa [List.mem_singleton.mp hc] using hletter x) htable hp c hc ha

/-- A formula goes through the last pass unchanged. -/
theorem IsSource.filter_isLasting {s : List Char} (h : IsSource s) : s.filter isLasting = s := by
  obtain ⟨⟨xs, -, hw⟩, hand, -⟩ := h
  rw [List.filter_eq_self]
  induction hw with
  | nil => simp
  | @blank xs s c hc _ ih =>
    have hlasting : isLasting c := by
      simp [isLasting, ne_of_holds hc (show isBlank '$' = false by decide), ne_of_holds hc (show isBlank '&' = false by decide)]
    exact List.forall_mem_cons.mpr ⟨hlasting, ih fun hm => hand (List.mem_cons_of_mem c hm)⟩
  | @sign xs s x p hp _ _ ih =>
    refine List.forall_mem_append.mpr ⟨fun c hc => isLasting_of_mem_spellings hp hc ?_, ih fun hm => hand (by simp [hm])⟩
    rintro rfl
    exact hand (by simp [hc])

/-- Without the marks that do not stay, a text with marks around it has blanks around it. -/
theorem Padded.filter_isLasting {s q : List Char} (h : Padded isMark s q) (hs : s.filter isLasting = s) :
    Padded isBlank s (q.filter isLasting) := by
  obtain ⟨u, v, rfl, hu, hv⟩ := h
  have hblank : ∀ {w : List Char}, (∀ c ∈ w, isMark c) → ∀ c ∈ w.filter isLasting, isBlank c := by
    intro w hw c hc
    obtain ⟨hm, hl⟩ := List.mem_filter.mp hc
    simpa [isMark, hl] using hw c hm
  exact ⟨u.filter isLasting, v.filter isLasting, by rw [List.filter_append, List.filter_append, hs], hblank hu, hblank hv⟩

/-- Cleaning a derivation leaves the formulas with blanks around each, and `=` between neighbours. -/
theorem LaidOut.clean {ss : List (List Char)} {t : List Char} (h : LaidOut ss t) (hs : ∀ s ∈ ss, IsSource s) :
    ∃ qs, Derivation.clean t = trimLines (joinWith ['='] qs) ∧ List.Forall₂ (Padded isBlank) ss qs := by
  obtain ⟨-, ps, rfl, hps⟩ := h
  have hwritten : ∀ s ∈ ss, ∃ xs, Written Sign.spellings [] xs s := fun s hm =>
    (hs s hm).written.imp fun _ h => h.2
  obtain ⟨qs, ⟨is, ht, hq, hsound, hcalm⟩, hpad⟩ := itemized_of_entries hps hwritten
  refine ⟨qs.map (·.filter isLasting), ?_, ?_⟩
  · rw [← ht, clean_textOf hsound hcalm, hq, filter_joinWith (by decide)]
  · rw [List.forall₂_map_right_iff]
    exact ((List.forall₂_and_left ss qs).mpr ⟨hs, hpad⟩).imp fun s q h => h.2.filter_isLasting h.1.filter_isLasting

end Propositional.Derivation
