import Propositional.Proofs.Text.Bars
import Propositional.Report.Markup

/-!
# Tags in texts

The console looks for tags from the start of a text to its end. It takes the backslashes before a tag with it and goes on behind
the tag (`tags`). A tag behind an odd number of backslashes is text, and any other one is markup (`markupTags`). No tag holds
another bracket, so tags do not overlap, and each is found by itself, whatever stands before it (`tagsFrom_eq`). So the tags of
texts that are put together are those of the texts, unless a tag that is open in the first is closed in the second
(`tagsAt_append`).
-/

namespace Propositional.Report

open Text

/-- A tag in a text: the place of its bracket, how many backslashes stand before it, and its text. -/
structure Tag where
  place : Nat
  slashes : Nat
  text : List Char
  deriving DecidableEq

/-- The tag is taken as markup, and not as text. -/
def Tag.isMarkup (t : Tag) : Bool := t.slashes % 2 == 0

/-- The tags in the rest of a text from a place on, of which the first `skip` characters belong to a tag that was found. -/
def tagsFrom : (place skip : Nat) → List Char → List Tag
  | _, _, [] => []
  | place, k + 1, _ :: cs => tagsFrom (place + 1) k cs
  | place, 0, c :: cs =>
    match escapedTag? (c :: cs) with
    | some (slashes, length) =>
      ⟨place + slashes, slashes, ((c :: cs).drop slashes).take length⟩ :: tagsFrom (place + 1) (slashes + length - 1) cs
    | none => tagsFrom (place + 1) 0 cs

/-- The tags in a text. -/
def tags (s : List Char) : List Tag := tagsFrom 0 0 s

/-- The tags in a text that are taken as markup. -/
def markupTags (s : List Char) : List Tag := (tags s).filter Tag.isMarkup

/-- The tags in the rest of a text that stands at a place, behind some backslashes: each bracket that starts a tag. -/
def tagsAt : (place slashes : Nat) → List Char → List Tag
  | _, _, [] => []
  | place, slashes, c :: cs =>
    ((tagLength? (c :: cs)).map fun n => ⟨place, slashes, (c :: cs).take n⟩).toList ++
      tagsAt (place + 1) (backslashesAfter slashes c) cs

/-! ## One tag -/

/-- A bracket, a character that may start a tag, what holds no bracket, and the closing bracket. -/
def IsTag (tag : List Char) : Prop :=
  ∃ d content, tag = '[' :: d :: (content ++ [']']) ∧ startsTag d ∧ '[' ∉ content ∧ ']' ∉ content

/-- What starts a tag is neither bracket nor backslash. -/
theorem ne_of_startsTag {d : Char} (h : startsTag d) : d ≠ '[' ∧ d ≠ '\\' :=
  ⟨ne_of_holds h (by decide), ne_of_holds h (by decide)⟩

/-- A tag is not empty. -/
theorem IsTag.ne_nil {tag : List Char} (h : IsTag tag) : tag ≠ [] := by
  obtain ⟨d, content, rfl, -⟩ := h
  exact List.cons_ne_nil _ _

/-- A tag starts with a bracket. -/
theorem tagLength?_of_ne {c : Char} (hc : c ≠ '[') (s : List Char) : tagLength? (c :: s) = none := by
  unfold tagLength?
  split
  · rename_i heq
    exact absurd (List.cons.inj heq).1 hc
  · rfl

/-- A tag is found in its length. -/
theorem tagLength?_of_isTag {tag : List Char} (h : IsTag tag) (rest : List Char) :
    tagLength? (tag ++ rest) = some tag.length := by
  obtain ⟨d, content, rfl, hd, hopen, hclose⟩ := h
  have htake : (content ++ ']' :: rest).takeWhile (fun e => e != '[' && e != ']') = content := by
    rw [List.takeWhile_append_of_pos, List.takeWhile_cons_of_neg (by decide), List.append_nil]
    intro e he
    have hne : e ≠ '[' ∧ e ≠ ']' := ⟨fun h => hopen (h ▸ he), fun h => hclose (h ▸ he)⟩
    simpa using hne
  have hassoc : '[' :: d :: (content ++ [']']) ++ rest = '[' :: d :: (content ++ ']' :: rest) := by simp
  rw [hassoc, tagLength?, htake, List.drop_left]
  simp [hd]

/-- A tag stands at the start of a text if the text starts with one. -/
theorem tagLength?_eq_some_iff {s : List Char} {n : Nat} :
    tagLength? s = some n ↔ ∃ tag rest, s = tag ++ rest ∧ IsTag tag ∧ tag.length = n := by
  constructor
  · intro h
    unfold tagLength? at h
    split at h
    · rename_i d cs
      obtain ⟨content, rest, hcs, hcontent, hno⟩ : ∃ content rest, cs = content ++ rest ∧
          cs.takeWhile (fun e => e != '[' && e != ']') = content ∧ '[' ∉ content ∧ ']' ∉ content := by
        refine ⟨_, _, (List.takeWhile_append_dropWhile ..).symm, rfl, fun h => ?_, fun h => ?_⟩
        · exact absurd (List.mem_takeWhile_imp h) (by decide)
        · exact absurd (List.mem_takeWhile_imp h) (by decide)
      dsimp only at h
      rw [hcontent, hcs, List.drop_left] at h
      split at h
      · rename_i rest
        split at h
        · rename_i hd
          obtain rfl := Option.some.inj h
          exact ⟨_, rest, by simp [hcs], ⟨d, content, rfl, hd, hno⟩, by simp⟩
        · cases h
      · cases h
    · cases h
  · rintro ⟨tag, rest, rfl, htag, rfl⟩
    exact tagLength?_of_isTag htag rest

/-- No tag is found exactly where none stands. -/
theorem tagLength?_eq_none_iff {s : List Char} : tagLength? s = none ↔ ¬∃ tag rest, s = tag ++ rest ∧ IsTag tag := by
  rw [Option.eq_none_iff_forall_ne_some]
  simp only [ne_eq, tagLength?_eq_some_iff]
  exact ⟨fun h ⟨tag, rest, hs, htag⟩ => h _ ⟨tag, rest, hs, htag, rfl⟩,
    fun h n ⟨tag, rest, hs, htag, _⟩ => h ⟨tag, rest, hs, htag⟩⟩

/-! ## Backslashes before a tag -/

/-- One more backslash before a tag is counted. -/
theorem escapedTag?_backslash (s : List Char) : escapedTag? ('\\' :: s) = (escapedTag? s).map fun p => (p.1 + 1, p.2) := by
  unfold escapedTag?
  rw [List.takeWhile_cons_of_pos (by decide), List.length_cons]
  dsimp only
  rw [List.drop_succ_cons, Option.map_map]
  rfl

/-- Without a backslash at the start a tag stands there or none is found. -/
theorem escapedTag?_of_ne {c : Char} (hc : c ≠ '\\') (s : List Char) :
    escapedTag? (c :: s) = (tagLength? (c :: s)).map (0, ·) := by
  unfold escapedTag?
  rw [List.takeWhile_cons_of_neg (by simpa using hc)]
  rfl

/-- A tag behind backslashes is found with their number. -/
theorem escapedTag?_of_isTag {tag : List Char} (h : IsTag tag) (k : Nat) (rest : List Char) :
    escapedTag? (List.replicate k '\\' ++ (tag ++ rest)) = some (k, tag.length) := by
  induction k with
  | zero =>
    obtain ⟨c, s, hs⟩ := List.exists_cons_of_ne_nil h.ne_nil
    have hc : c ≠ '\\' := by
      obtain ⟨d, content, rfl, -⟩ := h
      rw [← (List.cons.inj hs).1]
      decide
    have htag := tagLength?_of_isTag h rest
    rw [hs, List.cons_append] at htag ⊢
    rw [List.replicate_zero, List.nil_append, escapedTag?_of_ne hc, htag]
    rfl
  | succ k ih =>
    rw [List.replicate_succ, List.cons_append, escapedTag?_backslash, ih]
    rfl

/-- What is found is a tag behind backslashes. -/
theorem exists_of_escapedTag? {s : List Char} {k n : Nat} (h : escapedTag? s = some (k, n)) :
    ∃ tag rest, s = List.replicate k '\\' ++ (tag ++ rest) ∧ IsTag tag := by
  induction s generalizing k with
  | nil => cases h
  | cons c s ih =>
    by_cases hc : c = '\\'
    · subst hc
      rw [escapedTag?_backslash] at h
      obtain ⟨⟨j, m⟩, hj, hk⟩ := Option.map_eq_some_iff.mp h
      obtain ⟨rfl, rfl⟩ := Prod.mk.inj hk
      obtain ⟨tag, rest, rfl, htag⟩ := ih hj
      exact ⟨tag, rest, rfl, htag⟩
    · rw [escapedTag?_of_ne hc] at h
      obtain ⟨m, hm, hk⟩ := Option.map_eq_some_iff.mp h
      obtain ⟨rfl, rfl⟩ := Prod.mk.inj hk
      obtain ⟨tag, rest, hs, htag, -⟩ := tagLength?_eq_some_iff.mp hm
      exact ⟨tag, rest, hs, htag⟩

/-- A text is empty, or starts with a tag behind backslashes, or starts with a character that belongs to no such tag. -/
theorem tag_induction {P : List Char → Prop} (nil : P [])
    (tag : ∀ k tag rest, IsTag tag → P rest → P (List.replicate k '\\' ++ (tag ++ rest)))
    (cons : ∀ c s, escapedTag? (c :: s) = none → P s → P (c :: s)) (s : List Char) : P s := by
  induction hn : s.length using Nat.strong_induction_on generalizing s with
  | _ n ih =>
    subst hn
    cases s with
    | nil => exact nil
    | cons c s =>
      cases h : escapedTag? (c :: s) with
      | none => exact cons c s h (ih s.length (by simp) s rfl)
      | some p =>
        obtain ⟨t, rest, hs, ht⟩ := exists_of_escapedTag? (k := p.1) (n := p.2) h
        have hpos := List.length_pos_iff.mpr ht.ne_nil
        rw [hs]
        refine tag p.1 t rest ht (ih rest.length ?_ rest rfl)
        rw [hs, List.length_append, List.length_append]
        omega

/-! ## Tags one after another -/

section Scan

variable {place m k : Nat} {tag : List Char}

/-- A text without brackets has no tags, but may end in backslashes. -/
theorem tagsAt_of_notMem {p : List Char} (h : '[' ∉ p) (s : List Char) :
    tagsAt place m (p ++ s) = tagsAt (place + p.length) (p.foldl backslashesAfter m) s := by
  induction p generalizing place m with
  | nil => rfl
  | cons c p ih =>
    obtain ⟨hc, hp⟩ := not_or.mp (List.mem_cons.not.mp h)
    rw [List.cons_append, tagsAt, tagLength?_of_ne (Ne.symm hc), ih hp, List.foldl_cons, List.length_cons, Nat.add_assoc,
      Nat.add_comm 1]
    rfl

/-- Backslashes are counted before what follows. -/
theorem tagsAt_backslashes (k : Nat) (s : List Char) :
    tagsAt place m (List.replicate k '\\' ++ s) = tagsAt (place + k) (m + k) s := by
  have hcount : ∀ m, (List.replicate k '\\').foldl backslashesAfter m = m + k := by
    induction k with
    | zero => exact fun _ => rfl
    | succ k ih =>
      intro m
      rw [List.replicate_succ, List.foldl_cons, ih, backslashesAfter, if_pos rfl]
      omega
  rw [tagsAt_of_notMem fun h => absurd (List.eq_of_mem_replicate h) (by decide), hcount, List.length_replicate]

/-- A tag that starts is found, and nothing else is found before its end. -/
theorem tagsAt_of_isTag (h : IsTag tag) (s : List Char) :
    tagsAt place m (tag ++ s) = ⟨place, m, tag⟩ :: tagsAt (place + tag.length) 0 s := by
  have hlength := tagLength?_of_isTag h s
  have htext : (tag ++ s).take tag.length = tag := List.take_left
  obtain ⟨d, content, rfl, hd, hopen, -⟩ := h
  have hrest : '[' ∉ d :: (content ++ [']']) := by
    simp only [List.mem_cons, List.mem_append, not_or]
    exact ⟨(ne_of_startsTag hd).1.symm, hopen, by decide, nofun⟩
  have hcount : ∀ m, (d :: (content ++ [']'])).foldl backslashesAfter m = 0 := by
    intro m
    rw [← List.cons_append, List.foldl_append]
    rfl
  rw [List.cons_append] at hlength htext ⊢
  rw [tagsAt, hlength, tagsAt_of_notMem hrest, hcount, Option.map_some, htext, Nat.add_assoc, Nat.add_comm 1]
  rfl

theorem tagsFrom_skip (p s : List Char) : tagsFrom place p.length (p ++ s) = tagsFrom (place + p.length) 0 s := by
  induction p generalizing place with
  | nil => rfl
  | cons c p ih =>
    rw [List.length_cons, List.cons_append, tagsFrom, ih, Nat.add_assoc, Nat.add_comm 1]

/-- The first character of a tag with the backslashes before it, and the others. -/
theorem exists_cons_of_isTag (h : IsTag tag) (k : Nat) (s : List Char) :
    ∃ c q, List.replicate k '\\' ++ tag = c :: q ∧ List.replicate k '\\' ++ (tag ++ s) = c :: (q ++ s) ∧
      k + tag.length = q.length + 1 := by
  obtain ⟨c, q, hq⟩ := List.exists_cons_of_ne_nil (l := List.replicate k '\\' ++ tag) (by simp [h.ne_nil])
  refine ⟨c, q, hq, ?_, ?_⟩
  · rw [← List.append_assoc, hq, List.cons_append]
  · rw [← List.length_cons, ← hq, List.length_append, List.length_replicate]

/-- A tag behind backslashes is the first of the tags. -/
theorem tagsFrom_of_isTag (h : IsTag tag) (s : List Char) :
    tagsFrom place 0 (List.replicate k '\\' ++ (tag ++ s)) = ⟨place + k, k, tag⟩ :: tagsFrom (place + k + tag.length) 0 s := by
  have hfound := escapedTag?_of_isTag h k s
  obtain ⟨c, q, -, hassoc, hlength⟩ := exists_cons_of_isTag h k s
  have htext : ((c :: (q ++ s)).drop k).take tag.length = tag := by
    rw [← hassoc, List.drop_left' (List.length_replicate ..), List.take_left]
  rw [hassoc] at hfound ⊢
  rw [tagsFrom, hfound]
  dsimp only
  rw [htext, hlength, Nat.add_sub_cancel, tagsFrom_skip, Nat.add_assoc, Nat.add_assoc, hlength, Nat.add_comm 1]

/-- Where no tag stands the tags are those of the rest. -/
theorem tagsFrom_of_none {c : Char} {s : List Char} (h : escapedTag? (c :: s) = none) :
    tagsFrom place 0 (c :: s) = tagsFrom (place + 1) 0 s := by
  rw [tagsFrom, h]

/-- What starts no tag, with the backslashes before it, starts none by itself. -/
theorem none_of_escapedTag? {c : Char} {s : List Char} (h : escapedTag? (c :: s) = none) :
    tagLength? (c :: s) = none ∧ (backslashesAfter m c = 0 ∨ escapedTag? s = none) := by
  by_cases hc : c = '\\'
  · subst hc
    rw [escapedTag?_backslash, Option.map_eq_none_iff] at h
    exact ⟨tagLength?_of_ne (by decide) s, .inr h⟩
  · rw [escapedTag?_of_ne hc, Option.map_eq_none_iff] at h
    exact ⟨h, .inl (backslashesAfter_of_ne hc m)⟩

/-- The tags that are found one after another are all tags. Where the search does not start between backslashes and a tag, it
counts all backslashes before the tag. -/
theorem tagsFrom_eq (s : List Char) : ∀ {place m : Nat}, m = 0 ∨ escapedTag? s = none →
    tagsFrom place 0 s = tagsAt place m s := by
  induction s using tag_induction with
  | nil => exact fun _ => rfl
  | tag k tag rest htag ih =>
    intro place m hm
    obtain rfl : m = 0 := hm.resolve_right (by rw [escapedTag?_of_isTag htag]; exact nofun)
    rw [tagsFrom_of_isTag htag, tagsAt_backslashes, Nat.zero_add, tagsAt_of_isTag htag, ih (.inl rfl)]
  | cons c s h ih =>
    intro place m _
    obtain ⟨hnone, hnext⟩ := none_of_escapedTag? (m := m) h
    rw [tagsFrom_of_none h, tagsAt, hnone, ih hnext]
    rfl

/-- The tags of a text are those of its brackets. -/
theorem tags_eq (s : List Char) : tags s = tagsAt 0 0 s := tagsFrom_eq s (.inl rfl)

end Scan

/-! ## Texts put together -/

/-- No tag that was opened before a text is closed in it: another bracket opens before one closes. -/
def ClosesNothing (s : List Char) : Prop := ∀ q r, s = q ++ ']' :: r → '[' ∈ q

/-- A text without closing brackets closes nothing. -/
theorem closesNothing_of_notMem {s : List Char} (h : ']' ∉ s) : ClosesNothing s := by
  rintro q r rfl
  exact absurd (by simp) h

/-- What starts with a bracket closes no tag opened before. -/
theorem closesNothing_bracket (s : List Char) : ClosesNothing ('[' :: s) := by
  rintro (_ | ⟨c, q⟩) r h
  · cases h
  · rw [(List.cons.inj h).1]
    exact List.mem_cons_self

section Append

variable {w : List Char} (hw : ClosesNothing w)

include hw

/-- Before a text that closes nothing, a tag that starts in another is found as it is there. It would be closed in the second text
otherwise, unless nothing of it is left. -/
theorem tagLength?_append {s : List Char} (hs : s ≠ []) : tagLength? (s ++ w) = tagLength? s := by
  refine Option.ext fun n => ?_
  rw [tagLength?_eq_some_iff, tagLength?_eq_some_iff]
  constructor
  · rintro ⟨tag, rest, happend, htag, hlength⟩
    rcases List.append_eq_append_iff.mp happend with ⟨a, htext, hrest⟩ | ⟨a, htext, hrest⟩
    · rcases List.eq_nil_or_concat' a with rfl | ⟨b, c, rfl⟩
      · exact ⟨tag, [], by rw [htext, List.append_nil, List.append_nil], htag, hlength⟩
      · obtain ⟨e, s, rfl⟩ := List.exists_cons_of_ne_nil hs
        obtain ⟨d, content, rfl, hd, hopen, -⟩ := htag
        have htail : (d :: content) ++ [']'] = (s ++ b) ++ [c] := by
          rw [List.append_assoc]
          exact (List.cons.inj htext).2
        obtain ⟨hcontent, hc⟩ := List.append_inj' htail rfl
        obtain rfl : ']' = c := (List.cons.inj hc).1
        have hb : '[' ∈ s ++ b := List.mem_append_right s (hw b rest (by rw [hrest, List.append_assoc, List.singleton_append]))
        rw [← hcontent, List.mem_cons] at hb
        exact absurd hb (not_or.mpr ⟨(ne_of_startsTag hd).1.symm, hopen⟩)
    · exact ⟨tag, a, htext, htag, hlength⟩
  · rintro ⟨tag, rest, rfl, htag, hlength⟩
    exact ⟨tag, rest ++ w, List.append_assoc .., htag, hlength⟩

/-- The tags of two texts, one behind the other. -/
theorem tagsAt_append (s : List Char) (place m : Nat) :
    tagsAt place m (s ++ w) = tagsAt place m s ++ tagsAt (place + s.length) (s.foldl backslashesAfter m) w := by
  induction s generalizing place m with
  | nil => rfl
  | cons c s ih =>
    have htake : ∀ n, tagLength? (c :: s) = some n → (c :: (s ++ w)).take n = (c :: s).take n := by
      intro n hn
      obtain ⟨tag, rest, hs, -, rfl⟩ := tagLength?_eq_some_iff.mp hn
      rw [← List.cons_append, hs, List.append_assoc, List.take_left, List.take_left]
    rw [List.cons_append, tagsAt, tagsAt, ih, ← List.cons_append, tagLength?_append hw (List.cons_ne_nil c s), List.append_assoc,
      List.length_cons, Nat.add_assoc, Nat.add_comm 1, List.foldl_cons]
    cases hn : tagLength? (c :: s) with
    | none => rfl
    | some n => rw [Option.map_some, Option.map_some, List.cons_append, htake n hn]

end Append

/-- A tag stands in the text it is found in. -/
theorem place_lt_of_mem_tagsAt {t : Tag} {s : List Char} {place m : Nat} (h : t ∈ tagsAt place m s) :
    place ≤ t.place ∧ t.place < place + s.length := by
  induction s generalizing place m with
  | nil => cases h
  | cons c s ih =>
    rw [tagsAt, List.mem_append, Option.mem_toList, Option.map_eq_some_iff] at h
    rw [List.length_cons]
    rcases h with ⟨n, -, rfl⟩ | h
    · exact ⟨Nat.le_refl _, by dsimp only; omega⟩
    · obtain ⟨hle, hlt⟩ := ih h
      omega

/-- Whether a tag is markup does not depend on where the text stands. -/
theorem filter_tagsAt_eq_nil_iff (s : List Char) (place place' m : Nat) :
    (tagsAt place m s).filter Tag.isMarkup = [] ↔ (tagsAt place' m s).filter Tag.isMarkup = [] := by
  induction s generalizing place place' m with
  | nil => exact Iff.rfl
  | cons c s ih =>
    rw [tagsAt, tagsAt, List.filter_append, List.filter_append, List.append_eq_nil_iff, List.append_eq_nil_iff,
      ih (place + 1) (place' + 1)]
    refine and_congr_left' ?_
    cases tagLength? (c :: s) with
    | none => exact Iff.rfl
    | some n =>
      rw [Option.map_some, Option.map_some, Option.toList_some, Option.toList_some, List.filter_singleton, List.filter_singleton]
      cases hm : m % 2 == 0 <;> simp [Tag.isMarkup, hm]

end Propositional.Report
