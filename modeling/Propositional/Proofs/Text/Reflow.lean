import Propositional.Proofs.Text.Lines

/-!
# Texts laid out anew

Two texts are the same up to their layout if their words are the same, whatever blanks stand between them (`Reflowed`). What is
read from left to right is compared on the rest of the two texts, where the blanks at the end do not count (`Respaced`), and what
was read before is the same up to its layout.
-/

namespace Propositional.Text

/-- The texts are the same but for runs of blanks: each run stands where one stands in the other text. -/
inductive Reflowed : List Char → List Char → Prop where
  | nil : Reflowed [] []
  | char {c : Char} {s t : List Char} : isBlank c = false → Reflowed s t → Reflowed (c :: s) (c :: t)
  | gap {w w' s t : List Char} : w ≠ [] → w' ≠ [] → (∀ c ∈ w, isBlank c) → (∀ c ∈ w', isBlank c) → Reflowed s t →
      Reflowed (w ++ s) (w' ++ t)

namespace Reflowed

variable {s t : List Char}

/-- One run of blanks for another. -/
theorem blanks {w w' : List Char} (hne : w ≠ []) (hne' : w' ≠ []) (hw : ∀ c ∈ w, isBlank c) (hw' : ∀ c ∈ w', isBlank c) :
    Reflowed w w' := by
  have h : Reflowed (w ++ []) (w' ++ []) := .gap hne hne' hw hw' .nil
  rwa [List.append_nil, List.append_nil] at h

theorem refl (s : List Char) : Reflowed s s := by
  induction s with
  | nil => exact .nil
  | cons c s ih =>
    cases hc : isBlank c with
    | false => exact .char hc ih
    | true =>
      have hblank : ∀ d ∈ [c], isBlank d := by simpa using hc
      have h : Reflowed ([c] ++ s) ([c] ++ s) := .gap (by simp) (by simp) hblank hblank ih
      exact h

theorem symm (h : Reflowed s t) : Reflowed t s := by
  induction h with
  | nil => exact .nil
  | char hc _ ih => exact .char hc ih
  | gap hne hne' hw hw' _ ih => exact .gap hne' hne hw' hw ih

theorem append (h : Reflowed s t) {s' t' : List Char} (h' : Reflowed s' t') : Reflowed (s ++ s') (t ++ t') := by
  induction h with
  | nil => exact h'
  | char hc _ ih => exact .char hc ih
  | gap hne hne' hw hw' _ ih =>
    rw [List.append_assoc, List.append_assoc]
    exact .gap hne hne' hw hw' ih

/-- What stands behind may differ in its blanks at the end as well. -/
theorem append_respaced (h : Reflowed s t) {s' t' : List Char} (h' : Respaced s' t') : Respaced (s ++ s') (t ++ t') := by
  induction h with
  | nil => exact h'
  | char hc _ ih => exact .char hc ih
  | gap hne hne' hw hw' _ ih =>
    rw [List.append_assoc, List.append_assoc]
    exact .gap hne hne' hw hw' ih

theorem reverse (h : Reflowed s t) : Reflowed s.reverse t.reverse := by
  induction h with
  | nil => exact .nil
  | char _ _ ih =>
    rw [List.reverse_cons, List.reverse_cons]
    exact ih.append (refl _)
  | gap hne hne' hw hw' _ ih =>
    rw [List.reverse_append, List.reverse_append]
    exact ih.append (blanks (by simpa using hne) (by simpa using hne') (fun c hc => hw c (List.mem_reverse.mp hc))
      fun c hc => hw' c (List.mem_reverse.mp hc))

/-- Without the blanks at the start texts stay the same up to their layout. -/
theorem dropWhile (h : Reflowed s t) : Reflowed (s.dropWhile isBlank) (t.dropWhile isBlank) := by
  induction h with
  | nil => exact .nil
  | @char c s t hc h _ =>
    have hne : ¬isBlank c = true := by simp [hc]
    rw [List.dropWhile_cons_of_neg hne, List.dropWhile_cons_of_neg hne]
    exact .char hc h
  | gap _ _ hw hw' _ ih => rwa [List.dropWhile_append_of_pos hw, List.dropWhile_append_of_pos hw']

/-- Trimmed texts stay the same up to their layout. -/
theorem trim (h : Reflowed s t) : Reflowed (Text.trim s) (Text.trim t) := h.dropWhile.reverse.dropWhile.reverse

/-- Texts without blanks are the same. -/
theorem eq_of_not_blank (h : Reflowed s t) (hs : ∀ c ∈ s, isBlank c = false) : t = s := by
  induction h with
  | nil => rfl
  | char _ _ ih => rw [ih fun c hc => hs c (List.mem_cons_of_mem _ hc)]
  | @gap w _ s _ hne _ hw _ _ _ =>
    obtain ⟨c, w, rfl⟩ := List.exists_cons_of_ne_nil hne
    have hc := hs c (by simp)
    rw [hw c List.mem_cons_self] at hc
    cases hc

/-- A run of blanks may get longer. -/
theorem cons_blank {c d : Char} (hc : isBlank c) (hd : isBlank d) (h : Reflowed s (d :: t)) : Reflowed (c :: s) (d :: t) := by
  generalize he : d :: t = u at h
  cases h with
  | nil => cases he
  | char hb _ =>
    obtain ⟨rfl, -⟩ := List.cons.inj he
    rw [hd] at hb
    cases hb
  | @gap w _ _ _ hne hne' hw hw' h => exact .gap (w := c :: w) (by simp) hne' (List.forall_mem_cons.mpr ⟨hc, hw⟩) hw' h

/-- A text is the same up to its layout when each run of blanks is one space. Where a run goes on, its space is there already. -/
theorem squeeze (s : List Char) : Reflowed s (Text.squeeze s) := by
  induction s with
  | nil => exact .nil
  | cons c s ih =>
    cases hc : isBlank c with
    | false =>
      rw [squeeze_cons_of_not_blank hc]
      exact .char hc ih
    | true =>
      rcases squeeze_cons_of_blank hc s with he | he
      · rw [he]
        exact (blanks (by simp) (by simp) (by simpa using hc) (by simp)).append (s := [c]) (t := [' ']) ih
      · have hhead := head?_squeeze_of_blank hc s
        rw [he] at hhead ⊢
        obtain ⟨r, hr⟩ := List.head?_eq_some_iff.mp hhead
        rw [hr] at ih ⊢
        exact ih.cons_blank hc isBlank_space

/-- A run of blanks is squeezed to one space, whatever its blanks are. -/
theorem squeeze_blanks {w : List Char} (hne : w ≠ []) (hw : ∀ c ∈ w, isBlank c) (s : List Char) :
    Text.squeeze (w ++ s) = Text.squeeze (' ' :: s) := by
  induction w with
  | nil => exact absurd rfl hne
  | cons c w ih =>
    obtain ⟨hc, hw⟩ := List.forall_mem_cons.mp hw
    by_cases hnil : w = []
    · subst hnil
      simp [Text.squeeze, hc]
    · obtain ⟨r, hr⟩ := List.head?_eq_some_iff.mp (head?_squeeze_of_blank isBlank_space s)
      rw [List.cons_append, Text.squeeze, if_pos hc, ih hnil hw, hr]
      rfl

/-- Texts that are the same up to their layout are squeezed to the same text. -/
theorem squeeze_eq (h : Reflowed s t) : Text.squeeze s = Text.squeeze t := by
  induction h with
  | nil => rfl
  | char hc _ ih => rw [squeeze_cons_of_not_blank hc, squeeze_cons_of_not_blank hc, ih]
  | gap hne hne' hw hw' _ ih => rw [squeeze_blanks hne hw, squeeze_blanks hne' hw', Text.squeeze, Text.squeeze, ih]

/-- On one line, with one space between its words, a text has the layout of another, but for the blanks at its ends. -/
theorem trim_collapse (s : List Char) : Reflowed (Text.trim s) (Text.trim (collapse s)) := by
  rw [collapse, trim_trim]
  exact (squeeze s).trim

/-- Texts that are the same up to their layout and the blanks at their ends are so without the blanks that they start with. -/
theorem respaced (h : Reflowed (Text.trim s) (Text.trim t)) : Respaced (s.dropWhile isBlank) (t.dropWhile isBlank) := by
  obtain ⟨w, hs, hw⟩ := exists_eq_trimEnd_append (s.dropWhile isBlank)
  obtain ⟨w', ht, hw'⟩ := exists_eq_trimEnd_append (t.dropWhile isBlank)
  rw [hs, ht]
  exact h.append_respaced (.blanks hw hw')

/-- Texts that differ in blanks only are the same up to their layout, but for the blanks at their ends. -/
theorem of_respaced (h : Respaced s t) : Reflowed (Text.trim s) (Text.trim t) := by
  obtain ⟨s', w, t', w', rfl, rfl, hw, hw', h'⟩ : ∃ s' w t' w', s = s' ++ w ∧ t = t' ++ w' ∧ (∀ c ∈ w, isBlank c) ∧
      (∀ c ∈ w', isBlank c) ∧ Reflowed s' t' := by
    induction h with
    | @blanks w w' hw hw' => exact ⟨[], w, [], w', rfl, rfl, hw, hw', .nil⟩
    | char hc _ ih =>
      obtain ⟨s', w, t', w', rfl, rfl, hw, hw', h'⟩ := ih
      exact ⟨_ :: s', w, _ :: t', w', rfl, rfl, hw, hw', .char hc h'⟩
    | @gap v v' _ _ hne hne' hv hv' _ ih =>
      obtain ⟨s', w, t', w', rfl, rfl, hw, hw', h'⟩ := ih
      exact ⟨v ++ s', w, v' ++ t', w', by simp, by simp, hw, hw', .gap hne hne' hv hv' h'⟩
  rw [trim_append_blanks hw, trim_append_blanks hw']
  exact h'.trim

end Reflowed

/-- No word goes on here: the text is at its end, or a blank stands there. -/
def AtBlank (s : List Char) : Prop := ∀ c ∈ s.head?, isBlank c

/-- What takes no blanks stops there. -/
theorem AtBlank.takeWhile_append {s : List Char} (h : AtBlank s) {p : Char → Bool} (hp : ∀ c, p c → isBlank c = false)
    (t : List Char) : (t ++ s).takeWhile p = t.takeWhile p := by
  refine takeWhile_append_of_stop fun _ c hc hk => ?_
  have hb := hp c hk
  rw [h c hc] at hb
  cases hb

/-- What holds no blanks goes no further. -/
theorem AtBlank.prefix_append_iff {s : List Char} (h : AtBlank s) {q : List Char} (hq : ∀ c ∈ q, isBlank c = false)
    (p : List Char) :
    q <+: p ++ s ↔ q <+: p := by
  induction p generalizing q with
  | nil =>
    cases q with
    | nil => simp
    | cons c q =>
      have hc := hq c List.mem_cons_self
      refine ⟨fun ⟨r, hr⟩ => ?_, fun hnil => absurd (List.prefix_nil.mp hnil) (by simp)⟩
      rw [h c (by rw [← List.nil_append s, ← hr]; rfl)] at hc
      cases hc
  | cons d p ih =>
    cases q with
    | nil => simp
    | cons c q =>
      rw [List.cons_append, List.cons_prefix_cons, List.cons_prefix_cons, ih fun e he => hq e (List.mem_cons_of_mem c he)]

namespace Respaced

variable {s t : List Char}

/-- Without the blanks at the start texts still differ in blanks only. -/
theorem dropWhile (h : Respaced s t) : Respaced (s.dropWhile Text.isBlank) (t.dropWhile Text.isBlank) := by
  induction h with
  | blanks hw hw' =>
    rw [List.dropWhile_eq_nil_iff.mpr hw, List.dropWhile_eq_nil_iff.mpr hw']
    exact .blanks (by simp) (by simp)
  | @char c s t hc h _ =>
    have hne : ¬Text.isBlank c = true := by simp [hc]
    rw [List.dropWhile_cons_of_neg hne, List.dropWhile_cons_of_neg hne]
    exact .char hc h
  | gap _ _ hw hw' _ ih => rwa [List.dropWhile_append_of_pos hw, List.dropWhile_append_of_pos hw']

/-- What holds of two texts that differ in their layout, if it holds of texts of blanks, holds with runs of blanks in front, and
holds with a character in front if it holds of all texts that are no longer: a step on the two texts takes a run of blanks at
once, and from any other character on it may go as far as it likes. -/
theorem scan {motive : ∀ s t, Respaced s t → Prop}
    (blanks : ∀ {w w' : List Char} (hw : ∀ c ∈ w, Text.isBlank c) (hw' : ∀ c ∈ w', Text.isBlank c), motive w w' (.blanks hw hw'))
    (gap : ∀ {w w' s t : List Char} (hne : w ≠ []) (hne' : w' ≠ []) (hw : ∀ c ∈ w, Text.isBlank c)
      (hw' : ∀ c ∈ w', Text.isBlank c) (h : Respaced s t), motive s t h → motive (w ++ s) (w' ++ t) (.gap hne hne' hw hw' h))
    (char : ∀ {c : Char} {s t : List Char} (hc : Text.isBlank c = false) (h : Respaced s t),
      (∀ {s' t' : List Char} (h' : Respaced s' t'), s'.length ≤ s.length → motive s' t' h') →
        motive (c :: s) (c :: t) (.char hc h))
    {s t : List Char} (h : Respaced s t) : motive s t h := by
  induction hn : s.length using Nat.strong_induction_on generalizing s t with
  | _ n ih =>
    subst hn
    cases h with
    | blanks hw hw' => exact blanks hw hw'
    | gap hne hne' hw hw' h =>
      refine gap hne hne' hw hw' h (ih _ ?_ h rfl)
      have := List.length_pos_iff.mpr hne
      rw [List.length_append]
      omega
    | char hc h => exact char hc h fun h' hle => ih _ (Nat.lt_succ_of_le hle) h' rfl

/-- The texts start with the same word. -/
theorem exists_word (h : Respaced s t) : ∃ p s' t', s = p ++ s' ∧ t = p ++ t' ∧ (∀ c ∈ p, Text.isBlank c = false) ∧
    AtBlank s' ∧ AtBlank t' ∧ Respaced s' t' := by
  induction h with
  | @blanks w w' hw hw' =>
    exact ⟨[], w, w', rfl, rfl, by simp, fun c hc => hw c (List.mem_of_mem_head? hc),
      fun c hc => hw' c (List.mem_of_mem_head? hc),
      .blanks hw hw'⟩
  | @char c s t hc _ ih =>
    obtain ⟨p, s', t', rfl, rfl, hp, hs, ht, h'⟩ := ih
    exact ⟨c :: p, s', t', rfl, rfl, List.forall_mem_cons.mpr ⟨hc, hp⟩, hs, ht, h'⟩
  | @gap w w' s t hne hne' hw hw' h _ =>
    obtain ⟨c, w, rfl⟩ := List.exists_cons_of_ne_nil hne
    obtain ⟨c', w', rfl⟩ := List.exists_cons_of_ne_nil hne'
    refine ⟨[], _, _, rfl, rfl, by simp, fun d hd => ?_, fun d hd => ?_, .gap hne hne' hw hw' h⟩
    · exact hw d (by rw [← Option.some.inj hd]; exact List.mem_cons_self)
    · exact hw' d (by rw [← Option.some.inj hd]; exact List.mem_cons_self)

end Respaced

end Propositional.Text
