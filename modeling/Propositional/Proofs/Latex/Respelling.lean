import Propositional.Latex.Spelling
import Propositional.Proofs.Latex.Grammar
import Propositional.Proofs.Text.Replace

/-!
# Native spellings

Each group of spellings is replaced by a spelling of the same sign that belongs to no group, in any text that writes signs, and
the other spellings stay as they are (`Group.replace_written`). So one group after the other disappears from the text, and what
is left are the spellings that no group has (`respell_written`).
-/

namespace Propositional.Latex

open Text

/-! ## The groups of spellings as data -/

/-- A group of spellings: macros by name and single characters, the spelling that replaces them, whether it is written between
spaces, and whether the blanks behind a spelling of the group go with it. -/
structure Group where
  names : List String
  chars : List Char
  core : List Char
  spaced : Bool
  takesBlanks : Bool

namespace Group

/-- The matcher of a group without the blanks. -/
def base (g : Group) : Matcher := either (macroMatcher g.names) (charMatcher g.chars)

/-- The matcher of a group. -/
def matcher (g : Group) : Matcher := if g.takesBlanks then andBlanks g.base else g.base

/-- The text that replaces the spellings of a group. -/
def native (g : Group) : List Char := if g.spaced then ' ' :: (g.core ++ [' ']) else g.core

/-- A spelling belongs to a group. -/
def holds (g : Group) : List Char → Bool
  | '\\' :: name => isNamed g.names name
  | [c] => g.chars.contains c
  | _ => false

end Group

/-- The groups in the order in which they are replaced. -/
def groups : List Group := [
  ⟨["bot"], ['⊥'], ['0'], false, false⟩,
  ⟨["top"], ['⊤'], ['1'], false, false⟩,
  ⟨["lor", "vee"], ['∨'], ['|'], true, false⟩,
  ⟨["land", "wedge"], ['∧'], ['&'], true, false⟩,
  ⟨["lnot", "neg", "sim"], ['¬', '~'], ['!'], false, true⟩,
  ⟨["leftrightarrow", "Leftrightarrow", "iff", "equiv"], ['↔', '⇔'], ['=', '='], true, false⟩]

/-- The spellings that are replaced are those of the groups, in their order. -/
theorem spellings_eq_groups : spellings = groups.map fun g => ⟨g.matcher, g.native⟩ := rfl

/-- A relation of two texts that the replacement of each group keeps is kept when all groups are replaced. -/
theorem respell_rel {R : List Char → List Char → Prop}
    (hR : ∀ g ∈ groups, ∀ s t, R s t → R (replaceMatches g.matcher g.native s) (replaceMatches g.matcher g.native t))
    {s t : List Char} (h : R s t) : R (respell s) (respell t) := by
  rw [respell, respell, spellings_eq_groups, List.foldl_map, List.foldl_map]
  exact List.foldl_rel h hR

/-- The spellings of a sign that belong to none of the given groups. -/
def Sign.spellingsWithout (gs : List Group) (x : Sign) : List (List Char) :=
  x.spellings.filter fun p => gs.all fun g => !g.holds p

/-- The spellings of a sign without groups are those of its spellings that belong to none of them. -/
theorem Sign.mem_spellingsWithout {gs : List Group} {x : Sign} {p : List Char} :
    p ∈ x.spellingsWithout gs ↔ p ∈ x.spellings ∧ ∀ g ∈ gs, g.holds p = false := by
  simp [spellingsWithout]

/-! ## What the tables say -/

/-- A spelling is a backslash with a name, or has no backslash. -/
def isFormed : List Char → Bool
  | '\\' :: name => !name.isEmpty && name.all Char.isAlpha
  | p => p.all (· ≠ '\\')

/-- A spelling is a backslash with a name, or has no backslash. -/
theorem Sign.isFormed_of_mem_spellings {x : Sign} {p : List Char} (hp : p ∈ x.spellings) : isFormed p := by
  refine Sign.of_mem_spellings (P := fun p => isFormed p) (fun x => ?_) (by decide) hp
  have hx := ne_of_holds x.2 (show '\\'.isUpper = false by decide)
  unfold isFormed
  split
  · rename_i name he
    exact absurd (List.cons.inj he).1 hx
  · simp [hx]

/-- A character of a group is neither a letter nor a blank nor a backslash. -/
theorem Group.of_mem_chars {g : Group} (hg : g ∈ groups) {c : Char} (hc : c ∈ g.chars) :
    c ≠ '\\' ∧ isBlank c = false ∧ c.isAlpha = false := by
  revert c
  revert g
  decide

/-- No letter belongs to a group. -/
theorem Group.holds_letter {g : Group} (hg : g ∈ groups) (x : Variable) : g.holds [x.1] = false := by
  have hx := ne_of_holds x.2 (show '\\'.isUpper = false by decide)
  unfold holds
  split
  · rename_i name he
    exact absurd (List.cons.inj he).1 hx
  · rename_i c _ he
    obtain rfl : x.1 = c := by simpa using he
    rw [Bool.eq_false_iff]
    intro hc
    have ha := (of_mem_chars hg (by simpa using hc)).2.2
    simp [isAlpha_of_isUpper x.2] at ha
  · rfl

/-- What replaces the spellings of a group is a spelling of the same sign, no macro and of no group. -/
theorem Group.core_of_holds (x : Sign) : ∀ g ∈ groups, ∀ p ∈ x.spellings, g.holds p →
    g.core ∈ x.spellings ∧ ¬IsMacro g.core ∧ ∀ g' ∈ groups, g'.holds g.core = false := by
  cases x with
  | letter x =>
    intro g hg p hp h
    obtain rfl : p = [x.1] := by simpa [Sign.spellings] using hp
    rw [holds_letter hg] at h
    cases h
  | constant b => cases b <;> decide
  | _ => decide

/-- A spelling that does not belong to a group has no character of the group. -/
theorem Group.not_mem_chars (x : Sign) : ∀ g ∈ groups, ∀ p ∈ x.spellings, g.holds p = false → ∀ c ∈ p, c ∉ g.chars := by
  cases x with
  | letter x =>
    intro g hg p hp _ c hc hm
    obtain rfl : p = [x.1] := by simpa [Sign.spellings] using hp
    obtain rfl : c = x.1 := by simpa using hc
    have ha := (of_mem_chars hg hm).2.2
    simp [isAlpha_of_isUpper x.2] at ha
  | constant b => cases b <;> decide
  | _ => decide

/-! ## Where a group matches -/

/-- A name ends where no letter follows. -/
theorem takeWhile_isAlpha {name s : List Char} (hn : ∀ c ∈ name, c.isAlpha) (hs : ¬StartsWithLetter s) :
    (name ++ s).takeWhile Char.isAlpha = name := by
  rw [takeWhile_append_of_stop fun _ c hc ha => hs ⟨c, hc, ha⟩, List.takeWhile_eq_self_iff.mpr hn]

/-- A macro starts with a backslash. -/
theorem macroMatcher_of_ne {names : List String} {c : Char} (h : c ≠ '\\') (s : List Char) :
    macroMatcher names (c :: s) = none := by
  have hnone : macroName? (c :: s) = none := by
    unfold macroName?
    split
    · rename_i cs he
      exact absurd (List.cons.inj he).1 h
    · rfl
  simp [macroMatcher, hnone]

/-- A macro is found whole, where no letter follows, if it has one of the names. -/
theorem macroMatcher_of_name {names : List String} {name s : List Char} (hne : name ≠ []) (hn : ∀ c ∈ name, c.isAlpha)
    (hs : ¬StartsWithLetter s) :
    macroMatcher names ('\\' :: (name ++ s)) = if isNamed names name then some (name.length + 1) else none := by
  have hname : macroName? ('\\' :: (name ++ s)) = some name := by
    simp [macroName?, takeWhile_isAlpha hn hs, hne]
  simp [macroMatcher, hname]

namespace Group

variable {g : Group}

/-- A group matches none of the characters that it has not, unless a macro starts there. -/
theorem base_of_ne {c : Char} (h : c ≠ '\\') (s : List Char) : g.base (c :: s) = if g.chars.contains c then some 1 else none := by
  simp [base, either, macroMatcher_of_ne h, charMatcher]

/-- A group matches a spelling exactly if the spelling belongs to it, and then all of it. Only a spelling of the group has a
character of it. -/
theorem base_append (hg : g ∈ groups) {x : Sign} {p s : List Char} (hp : p ∈ x.spellings)
    (hs : IsMacro p → ¬StartsWithLetter s) : g.base (p ++ s) = if g.holds p then some p.length else none := by
  have hform := Sign.isFormed_of_mem_spellings hp
  obtain ⟨w, d, hwd⟩ := Sign.exists_eq_append_of_mem_spellings hp
  cases p with
  | nil => simp at hwd
  | cons c p =>
    by_cases hc : c = '\\'
    · subst hc
      obtain ⟨hne, hn⟩ : p ≠ [] ∧ ∀ c ∈ p, c.isAlpha := by simpa [isFormed] using hform
      have hchars : g.chars.contains '\\' = false := by
        rw [Bool.eq_false_iff]
        intro hm
        exact (of_mem_chars hg (by simpa using hm)).1 rfl
      simp only [base, either, List.cons_append, macroMatcher_of_name hne hn (hs rfl), charMatcher, hchars, holds,
        List.length_cons]
      cases isNamed g.names p <;> rfl
    · rw [List.cons_append, base_of_ne hc]
      by_cases hm : c ∈ g.chars
      · have hh : g.holds (c :: p) := by
          by_contra hh
          exact not_mem_chars x g hg _ hp (by simpa using hh) c List.mem_cons_self hm
        have hp' : p = [] := by
          unfold holds at hh
          split at hh
          · rename_i name he
            exact absurd (List.cons.inj he).1 hc
          · rename_i e _ he
            exact (List.cons.inj he).2
          · cases hh
        rw [if_pos (by simpa using hm), if_pos hh, hp']
        rfl
      · have hh : g.holds (c :: p) = false := by
          unfold holds
          split
          · rename_i name he
            exact absurd (List.cons.inj he).1 hc
          · rename_i e _ he
            obtain rfl : c = e := (List.cons.inj he).1
            simpa using hm
          · rfl
        rw [if_neg (by simpa using hm), hh]
        rfl

/-- A group matches nothing inside a spelling that does not belong to it. -/
theorem base_inside (hg : g ∈ groups) {x : Sign} {p s : List Char} (hp : p ∈ x.spellings) (hs : IsMacro p → ¬StartsWithLetter s)
    (hh : g.holds p = false) {a b : List Char} {c : Char} (he : p = a ++ c :: b) : g.base (c :: (b ++ s)) = none := by
  cases a with
  | nil =>
    have hbase := base_append hg hp hs
    rw [hh, he] at hbase
    exact hbase
  | cons d a =>
    have hform := Sign.isFormed_of_mem_spellings hp
    have hc : c ≠ '\\' := by
      rintro rfl
      rw [he] at hform
      unfold isFormed at hform
      split at hform
      · rename_i name hcons
        have hmem : '\\' ∈ name := by
          rw [← (List.cons.inj hcons).2]
          simp
        have := (by simpa using hform : name ≠ [] ∧ ∀ c ∈ name, c.isAlpha).2 _ hmem
        exact absurd this (by decide)
      · simp at hform
    have hm : c ∉ g.chars := not_mem_chars x g hg p hp hh c (by simp [he])
    rw [base_of_ne hc, if_neg (by simpa using hm)]

/-- The blanks behind a match that go with it. -/
def taken (g : Group) (s : List Char) : List Char := if g.takesBlanks then s.takeWhile isBlank else []

/-- What is left of the text behind a match. -/
def left (g : Group) (s : List Char) : List Char := if g.takesBlanks then s.dropWhile isBlank else s

/-- What goes with a match and what is left are what stands behind it. -/
theorem taken_append_left (g : Group) (s : List Char) : g.taken s ++ g.left s = s := by
  unfold taken left
  split
  · exact List.takeWhile_append_dropWhile
  · rfl

/-- Only blanks go with a match. -/
theorem isBlank_of_mem_taken {s : List Char} {c : Char} (h : c ∈ g.taken s) : isBlank c := by
  unfold taken at h
  split at h
  · exact List.mem_takeWhile_imp h
  · cases h

/-- A match of a group takes blanks, if any, along with what it matches. -/
theorem matcher_of_base {p s : List Char} (h : g.base (p ++ s) = some p.length) :
    g.matcher (p ++ s) = some (p ++ g.taken s).length := by
  unfold matcher taken
  split
  · simp [andBlanks, h]
  · rw [h, List.append_nil]

/-- What a group matches is replaced, and the search goes on with what is left. -/
theorem replaceFrom_of_base {p s : List Char} (hp : p ≠ []) (h : g.base (p ++ s) = some p.length) :
    replaceFrom g.matcher g.native 0 (p ++ s) = g.native ++ replaceFrom g.matcher g.native 0 (g.left s) := by
  have hassoc : p ++ s = (p ++ g.taken s) ++ g.left s := by rw [List.append_assoc, taken_append_left]
  have hmatch := matcher_of_base h
  rw [hassoc] at hmatch ⊢
  exact replaceFrom_of_match (by simp [hp]) hmatch

/-- Where no spelling of a group stands, the group matches nothing. -/
theorem matcher_of_base_none {s : List Char} (h : g.base s = none) : g.matcher s = none := by
  unfold matcher
  split <;> simp [andBlanks, h]

/-- The native spelling is none that starts with a letter. -/
theorem native_head (hg : g ∈ groups) : ∃ c s, g.native = c :: s ∧ c.isAlpha = false := by
  have h : ∀ g ∈ groups, g.native.head?.map Char.isAlpha = some false := by decide
  obtain ⟨c, hc, ha⟩ := Option.map_eq_some_iff.mp (h g hg)
  obtain ⟨s, hs⟩ := List.head?_eq_some_iff.mp hc
  exact ⟨c, s, hs, ha⟩

/-! ## One pass -/

/-- Blanks stay where they are. -/
theorem replaceFrom_blanks (hg : g ∈ groups) {w : List Char} (hw : ∀ c ∈ w, isBlank c) (s : List Char) :
    replaceFrom g.matcher g.native 0 (w ++ s) = w ++ replaceFrom g.matcher g.native 0 s := by
  apply replaceFrom_append_of_none
  rintro a c b rfl
  have hc := hw c (by simp)
  apply matcher_of_base_none
  have hb : c ≠ '\\' := ne_of_holds hc (by decide)
  have hm : c ∉ g.chars := by
    intro hm
    rw [(of_mem_chars hg hm).2.1] at hc
    cases hc
  rw [base_of_ne hb, if_neg (by simpa using hm)]

/-- A text does not come to start with a letter. -/
theorem startsWithLetter_of_replaceFrom (hg : g ∈ groups) {s : List Char}
    (h : StartsWithLetter (replaceFrom g.matcher g.native 0 s)) : StartsWithLetter s := by
  cases s with
  | nil => exact h
  | cons c s =>
    obtain ⟨d, hd, ha⟩ := h
    rw [replaceFrom] at hd
    split at hd
    · obtain ⟨e, r, hn, he⟩ := native_head hg
      obtain rfl : e = d := by simpa [hn] using hd
      rw [he] at ha
      cases ha
    · exact ⟨d, hd, ha⟩

/-- The spellings of a group are replaced by another spelling, and the rest of the text stays. The blanks that went along are
missed by nobody. -/
theorem replace_written (hg : g ∈ groups) {gs : List Group} (hgs : gs ⊆ groups) {xs : List Sign} {s : List Char}
    (h : Written (Sign.spellingsWithout gs) [] xs s) :
    Written (Sign.spellingsWithout (g :: gs)) [] xs (replaceMatches g.matcher g.native s) := by
  unfold replaceMatches
  induction h with
  | nil => exact .nil
  | @blank xs s c hc _ ih =>
    have hrun := replaceFrom_blanks hg (w := [c]) (by simpa using hc) s
    rw [List.singleton_append] at hrun
    rw [hrun]
    exact .blank hc ih
  | @sign xs s x p hp hm _ ih =>
    rw [List.append_nil] at hm
    obtain ⟨hpx, hpgs⟩ := Sign.mem_spellingsWithout.mp hp
    cases hh : g.holds p with
    | true =>
      obtain ⟨hcore, hmac, hnone⟩ := core_of_holds x g hg p hpx hh
      have hcore' : g.core ∈ x.spellingsWithout (g :: gs) :=
        Sign.mem_spellingsWithout.mpr ⟨hcore, fun g' hg' => hnone g' (List.cons_subset.mpr ⟨hg, hgs⟩ hg')⟩
      have hbase := base_append hg hpx hm
      rw [if_pos hh] at hbase
      have hne : p ≠ [] := by
        obtain ⟨v, d, rfl⟩ := Sign.exists_eq_append_of_mem_spellings hpx
        simp
      have hw : ∀ c ∈ g.taken s, isBlank c := fun c hc => isBlank_of_mem_taken hc
      rw [replaceFrom_of_base hne hbase]
      rw [← g.taken_append_left s, replaceFrom_blanks hg hw] at ih
      have hrest := ih.of_blanks (fun x p hp => (Sign.mem_spellingsWithout.mp hp).1) hw
      have hnative : g.native = ' ' :: (g.core ++ [' ']) ∨ g.native = g.core := by
        unfold native
        split
        · exact Or.inl rfl
        · exact Or.inr rfl
      generalize replaceFrom g.matcher g.native 0 (g.left s) = r at hrest
      rcases hnative with hn | hn <;> rw [hn]
      · rw [List.cons_append, List.append_assoc, List.singleton_append]
        exact .blank isBlank_space (.sign hcore' (fun hmac' => absurd hmac' hmac) (.blank isBlank_space hrest))
      · exact .sign hcore' (fun hmac' => absurd hmac' hmac) hrest
    | false =>
      rw [replaceFrom_append_of_none fun a c b he => matcher_of_base_none (base_inside hg hpx hm hh he)]
      refine .sign (Sign.mem_spellingsWithout.mpr ⟨hpx, List.forall_mem_cons.mpr ⟨hh, hpgs⟩⟩) (fun hmac hl => ?_) ih
      rw [List.append_nil] at hl
      exact hm hmac (startsWithLetter_of_replaceFrom hg hl)

end Group

/-- The spellings of a sign that are native: those that no group has. -/
def Sign.natives (x : Sign) : List (List Char) := x.spellingsWithout groups

theorem Sign.natives_eq (x : Sign) : x.natives =
    match x with
    | letter x => [[x.1]]
    | constant b => [[if b then '1' else '0']]
    | not => [['!']]
    | and => [['&']]
    | or => [['|']]
    | arrow => [['-', '>'], ['=', '>'], ['→'], ['⇒']] ++ Lexeme.arrowMacros.map fun name => '\\' :: name.toList
    | iff => [['=', '='], ['<', '-', '>'], ['<', '=', '>']]
    | lparen => [['(']]
    | rparen => [[')']]
    | overline => ["\\overline".toList]
    | lbrace => [['{']]
    | rbrace => [['}']] := by
  cases x with
  | letter x =>
    have hx : (groups.all fun g => !g.holds [x.1]) = true := by
      rw [List.all_eq_true]
      intro g hg
      simp [Group.holds_letter hg]
    simp [natives, spellingsWithout, spellings, hx]
  | constant b => cases b <;> decide
  | _ => decide

/-- Once all groups are replaced, a text writes its signs with their native spellings. -/
theorem respell_written {xs : List Sign} {s : List Char} (h : Written Sign.spellings [] xs s) :
    Written Sign.natives [] xs (respell s) := by
  have hfold : ∀ (hs gs : List Group) (s : List Char), hs ⊆ groups → gs ⊆ groups → Written (Sign.spellingsWithout gs) [] xs s →
      Written (Sign.spellingsWithout (hs.reverse ++ gs)) [] xs
        (hs.foldl (fun s g => replaceMatches g.matcher g.native s) s) := by
    intro hs
    induction hs with
    | nil => intro gs s _ _ h; exact h
    | cons g hs ih =>
      intro gs s hsub hgs h
      obtain ⟨hg, hsub⟩ := List.cons_subset.mp hsub
      have := ih (g :: gs) _ hsub (List.cons_subset.mpr ⟨hg, hgs⟩) (Group.replace_written hg hgs h)
      simpa using this
  have h0 : Written (Sign.spellingsWithout []) [] xs s := h.mono fun x p hp => Sign.mem_spellingsWithout.mpr ⟨hp, by simp⟩
  have hall := hfold groups [] s (List.Subset.refl _) (List.nil_subset _) h0
  rw [respell, spellings_eq_groups, List.foldl_map]
  refine hall.mono fun x p hp => Sign.mem_spellingsWithout.mpr ?_
  have := Sign.mem_spellingsWithout.mp hp
  simpa using this

end Propositional.Latex
