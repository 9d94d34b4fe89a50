import Propositional.Proofs.Report.Tags

/-!
# Escaped tags

Escaping a text puts one backslash more than there were before each tag, and so an odd number in all: no tag is markup any more
(`markupTags_escapeMarkup`). It makes no new tag, since it adds nothing but backslashes, and these come before a bracket that
opens.
-/

namespace Propositional.Report

open Text

/-- What belongs to a tag is skipped. -/
theorem escapeTagsFrom_skip (p s : List Char) : escapeTagsFrom p.length (p ++ s) = p ++ escapeTagsFrom 0 s := by
  induction p with
  | nil => rfl
  | cons c p ih => rw [List.length_cons, List.cons_append, escapeTagsFrom, ih, List.cons_append]

/-- A tag behind backslashes is escaped by doubling them and one more. -/
theorem escapeTagsFrom_of_isTag {tag : List Char} (h : IsTag tag) (k : Nat) (s : List Char) :
    escapeTagsFrom 0 (List.replicate k '\\' ++ (tag ++ s)) = List.replicate (2 * k + 1) '\\' ++ (tag ++ escapeTagsFrom 0 s) := by
  have hfound := escapedTag?_of_isTag h k s
  obtain ⟨c, q, hq, hassoc, hlength⟩ := exists_cons_of_isTag h k s
  rw [hassoc] at hfound ⊢
  rw [escapeTagsFrom, hfound]
  dsimp only
  rw [hlength, Nat.add_sub_cancel, escapeTagsFrom_skip, ← List.cons_append, ← hq, List.append_assoc, ← List.append_assoc,
    ← List.replicate_add]
  congr 2
  omega

/-- Where no tag stands a character stays. -/
theorem escapeTagsFrom_of_none {c : Char} {s : List Char} (h : escapedTag? (c :: s) = none) :
    escapeTagsFrom 0 (c :: s) = c :: escapeTagsFrom 0 s := by
  rw [escapeTagsFrom, h]

/-- Escaping adds nothing but backslashes. -/
theorem filter_escapeTagsFrom (s : List Char) : (escapeTagsFrom 0 s).filter (· ≠ '\\') = s.filter (· ≠ '\\') := by
  have hnone : ∀ k, (List.replicate k '\\').filter (· ≠ '\\') = [] := by
    intro k
    rw [List.filter_eq_nil_iff]
    intro c hc
    simp [List.eq_of_mem_replicate hc]
  induction s using tag_induction with
  | nil => rfl
  | tag k tag rest htag ih =>
    rw [escapeTagsFrom_of_isTag htag, List.filter_append, List.filter_append, List.filter_append, List.filter_append, hnone,
      hnone, ih]
  | cons c s h ih => rw [escapeTagsFrom_of_none h, List.filter_cons, List.filter_cons, ih]

/-- A bracket that starts no tag starts none in the escaped text: what closes it first, or opens another one, stays the same. -/
theorem tagLength?_escapeTagsFrom {c : Char} {s : List Char} (h : tagLength? (c :: s) = none) :
    tagLength? (c :: escapeTagsFrom 0 s) = none := by
  rw [tagLength?_eq_none_iff] at h ⊢
  rintro ⟨_, rest, htext, d, content, rfl, hd, hopen, hclose⟩
  obtain ⟨rfl, hs⟩ : c = '[' ∧ escapeTagsFrom 0 s = d :: (content ++ ']' :: rest) := by simpa using htext
  cases s with
  | nil => cases hs
  | cons e s =>
    cases hfound : escapedTag? (e :: s) with
    | some p =>
      obtain ⟨tag, r, htext, htag⟩ := exists_of_escapedTag? (k := p.1) (n := p.2) hfound
      rw [htext, escapeTagsFrom_of_isTag htag, List.replicate_succ, List.cons_append] at hs
      exact (ne_of_startsTag hd).2 (List.cons.inj hs).1.symm
    | none =>
      rw [escapeTagsFrom_of_none hfound] at hs
      obtain ⟨rfl, hrest⟩ := List.cons.inj hs
      have hfilter := filter_escapeTagsFrom s
      rw [hrest, List.filter_append, List.filter_cons_of_pos (by decide)] at hfilter
      obtain ⟨content', r, rfl, hcontent, hr⟩ := List.filter_eq_append_iff.mp hfilter.symm
      obtain ⟨slashes, rest', rfl, hslashes, -, -⟩ := List.filter_eq_cons_iff.mp hr
      have hnotMem : ∀ b, b ≠ '\\' → b ∉ content → b ∉ content' ++ slashes := by
        intro b hb hno hmem
        rcases List.mem_append.mp hmem with hmem | hmem
        · have hkept : b ∈ content'.filter (· ≠ '\\') := List.mem_filter.mpr ⟨hmem, decide_eq_true hb⟩
          rw [hcontent] at hkept
          exact hno (List.mem_filter.mp hkept).1
        · exact hslashes b hmem (decide_eq_true hb)
      refine h ⟨'[' :: e :: (content' ++ slashes ++ [']']), rest', by simp, e, content' ++ slashes, rfl, hd, ?_, ?_⟩
      · exact hnotMem '[' (by decide) hopen
      · exact hnotMem ']' (by decide) hclose

/-- No tag of an escaped text is markup, wherever it stands. -/
theorem filter_tagsAt_escapeTagsFrom (s : List Char) : ∀ {place m : Nat}, m = 0 ∨ escapedTag? s = none →
    (tagsAt place m (escapeTagsFrom 0 s)).filter Tag.isMarkup = [] := by
  induction s using tag_induction with
  | nil => exact fun _ => rfl
  | tag k tag rest htag ih =>
    intro place m hm
    obtain rfl : m = 0 := hm.resolve_right (by rw [escapedTag?_of_isTag htag]; exact nofun)
    have hodd : Tag.isMarkup ⟨place + (2 * k + 1), 0 + (2 * k + 1), tag⟩ = false := by
      rw [Tag.isMarkup, beq_eq_false_iff_ne]
      dsimp only
      omega
    rw [escapeTagsFrom_of_isTag htag, tagsAt_backslashes, tagsAt_of_isTag htag, List.filter_cons_of_neg (by rw [hodd]; decide),
      ih (.inl rfl)]
  | cons c s h ih =>
    intro place m _
    obtain ⟨hnone, hnext⟩ := none_of_escapedTag? (m := m) h
    rw [escapeTagsFrom_of_none h, tagsAt, tagLength?_escapeTagsFrom hnone]
    exact ih hnext

/-- An escaped text is shown as text: no tag in it is markup. -/
theorem markupTags_escapeMarkup (s : List Char) : markupTags (escapeMarkup s) = [] := by
  have hnone : (tagsAt 0 0 (escapeTagsFrom 0 s)).filter Tag.isMarkup = [] := filter_tagsAt_escapeTagsFrom s (.inl rfl)
  rw [markupTags, tags_eq, escapeMarkup]
  split
  · rw [tagsAt_append (closesNothing_of_notMem (by decide)), List.filter_append, hnone]
    rfl
  · exact hnone

end Propositional.Report
