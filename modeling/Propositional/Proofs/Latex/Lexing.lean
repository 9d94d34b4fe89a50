import Propositional.Evaluation
import Propositional.Latex.Normal
import Propositional.Proofs.Text.Blank

/-!
# Cutting a text into lexemes

The lexemes of a text are read one after the other, and each of them is what stands at the start of the rest. What is not a
connective, an arrow, a parenthesis or an atom is kept as some other text, which holds a character that no formula may hold.
-/

namespace Propositional.Latex

open Text

/-! ## One lexeme after the other -/

/-- The empty text has no lexemes. -/
theorem Lexeme.lexFrom_nil (k : Nat) : lexFrom k [] = [] := by
  cases k <;> rfl

/-- What is read first, if it is a lexeme, and the lexemes of the rest of the text. -/
def Lexeme.lexBehind (s : List Char) : Option Lexeme × Nat → List Lexeme
  | (some t, n) => t :: lexFrom n s
  | (none, n) => lexFrom n s

/-- A text is cut into what is read first and the lexemes of the rest. -/
theorem Lexeme.lexFrom_zero_cons (c : Char) (s : List Char) :
    lexFrom 0 (c :: s) = (next c s).1.toList ++ lexFrom (next c s).2 s := by
  show lexBehind s (next c s) = _
  rcases next c s with ⟨_ | t, n⟩ <;> rfl

/-- The characters of a lexeme that was read are passed over. -/
theorem Lexeme.lexFrom_eq_drop (n : Nat) (s : List Char) : lexFrom n s = lexFrom 0 (s.drop n) := by
  induction s generalizing n with
  | nil => rw [List.drop_nil, lexFrom_nil, lexFrom_nil]
  | cons c s ih =>
    cases n with
    | zero => rfl
    | succ n => exact ih n

/-- A blank is no lexeme. -/
theorem Lexeme.lexFrom_blank {c : Char} (hc : isBlank c) (s : List Char) : lexFrom 0 (c :: s) = lexFrom 0 s := by
  have hnext : next c s = (none, 0) := by
    unfold next
    rw [if_pos hc]
  rw [lexFrom_zero_cons, hnext]
  rfl

/-- Blanks are no lexemes. -/
theorem Lexeme.lexFrom_blanks {w : List Char} (hw : ∀ c ∈ w, isBlank c) (s : List Char) : lexFrom 0 (w ++ s) = lexFrom 0 s := by
  induction w with
  | nil => rfl
  | cons c w ih =>
    obtain ⟨hc, hw⟩ := List.forall_mem_cons.mp hw
    rw [List.cons_append, lexFrom_blank hc, ih hw]

/-! ## The lexeme at the start of a text -/

namespace Lexeme

/-- A backslash is read with the letters behind it as an arrow or as a lexeme of no kind, or without letters with the next
character. -/
theorem next_of_backslash (s : List Char) : next '\\' s =
    if s.takeWhile Char.isAlpha = [] then (some (other ('\\' :: s.take 1)), 1)
    else (some (if isNamed arrowMacros (s.takeWhile Char.isAlpha) then arrow else other ('\\' :: s.takeWhile Char.isAlpha)),
      (s.takeWhile Char.isAlpha).length) := by
  unfold next
  rw [if_neg (show ¬isBlank '\\' = true by decide), if_pos rfl]
  split
  · rename_i hname
    rw [if_pos hname]
  · rename_i hname
    rw [if_neg hname]

/-- What starts with neither a blank nor a backslash, by its first character and by what stands behind it. -/
theorem next_eq {c : Char} (hb : isBlank c = false) (hs : c ≠ '\\') (s : List Char) : next c s =
    if c = '<' ∧ (['-', '>'] <+: s ∨ ['=', '>'] <+: s) then (some equiv, 2)
    else if (c = '-' ∨ c = '=') ∧ ['>'] <+: s then (some arrow, 1)
    else if c = '→' ∨ c = '⇒' then (some arrow, 0)
    else if c = '!' ∧ ['='] <+: s then (some xor, (s.takeWhile (· = '=')).length)
    else if c = '=' then (some equiv, (s.takeWhile (· = '=')).length)
    else if c.isLower then (some (other (c :: s.takeWhile Char.isLower)), (s.takeWhile Char.isLower).length)
    else (some (ofText [c]), 0) := by
  unfold next
  rw [if_neg (show ¬isBlank c = true by simp [hb]), if_neg hs]
  split
  all_goals try simp
  · rename_i hnot
    have harrow : ¬['>'] <+: s := fun ⟨r, hr⟩ => hnot r hr.symm
    simp [harrow]
  · rename_i hright hdouble hequals hless hless' hminus _ hbang
    have hequiv : ¬(c = '<' ∧ (['-', '>'] <+: s ∨ ['=', '>'] <+: s)) := by
      rintro ⟨hc, ⟨r, hr⟩ | ⟨r, hr⟩⟩
      · exact hless r hc hr.symm
      · exact hless' r hc hr.symm
    have harrow : ¬((c = '-' ∨ c = '=') ∧ ['>'] <+: s) := by
      rintro ⟨hc | hc, r, hr⟩
      · exact hminus r hc hr.symm
      · exact hequals hc
    have hxor : ¬(c = '!' ∧ ['='] <+: s) := fun ⟨hc, r, hr⟩ => hbang r hc hr.symm
    rw [if_neg hequiv, if_neg harrow, if_neg (not_or.mpr ⟨hright, hdouble⟩), if_neg hxor, if_neg hequals]

/-- A lexeme goes no further than its text, unless it is a backslash at the end. -/
theorem next_le {c : Char} {s : List Char} (h : c ≠ '\\' ∨ s ≠ []) : (next c s).2 ≤ s.length := by
  by_cases hb : isBlank c
  · unfold next
    rw [if_pos hb]
    exact Nat.zero_le _
  · by_cases hs : c = '\\'
    · subst hs
      rw [next_of_backslash]
      split
      · exact List.length_pos_iff.mpr (h.resolve_left fun hne => hne rfl)
      · exact (List.takeWhile_sublist _).length_le
    · rw [next_eq (by simpa using hb) hs]
      split_ifs with h1 h2 h3 h4 h5 h6
      · rcases h1.2 with h1 | h1 <;> exact h1.length_le
      · exact h2.2.length_le
      · exact Nat.zero_le _
      · exact (List.takeWhile_sublist _).length_le
      · exact (List.takeWhile_sublist _).length_le
      · exact (List.takeWhile_sublist _).length_le
      · exact Nat.zero_le _

end Lexeme

/-! ## What a lexeme of a text is -/

/-- An atom is a letter or a digit. -/
theorem isAlphanum_of_isAtom {c : Char} (h : isAtom c) : c.isAlphanum := by
  simp only [isAtom, Bool.or_eq_true, decide_eq_true_eq] at h
  rcases h with (h | rfl) | rfl
  · exact isAlphanum_of_isUpper h
  · decide
  · decide

/-- A lexeme of the kind that texts are cut into: an atom is one, and what is none of the others holds a character that is
neither a letter nor allowed in a formula. -/
def Lexeme.FromText : Lexeme → Prop
  | atom c => isAtom c
  | other s => ∃ c ∈ s, isAllowed c = false ∧ c.isUpper = false
  | not | and | or | equiv | xor | arrow | lparen | rparen => True

/-- A letter is no character of a formula without variables. -/
theorem isAllowed_eq_false_of_isAlpha {c : Char} (h : c.isAlpha) : isAllowed c = false := by
  have hne : ∀ d : Char, d.isAlpha = false → c ≠ d := fun d hd => ne_of_holds h hd
  simp only [isAllowed, isBlank_eq_false_of_isAlphanum (isAlphanum_of_isAlpha h), Bool.or_false]
  simp [hne '0' (by decide), hne '1' (by decide), hne '&' (by decide), hne '|' (by decide), hne '!' (by decide),
    hne '=' (by decide), hne '(' (by decide), hne ')' (by decide)]

/-- A character that is no symbol is an atom or a lexeme of no kind. -/
theorem Lexeme.ofText_singleton {c : Char} (h : c ∉ ['!', '&', '|', '(', ')']) :
    ofText [c] = if isAtom c then atom c else other [c] := by
  simp only [List.mem_cons, List.not_mem_nil, or_false, not_or] at h
  obtain ⟨h1, h2, h3, h4, h5⟩ := h
  show (if c = '!' then not else if c = '&' then and else if c = '|' then or else if c = '(' then lparen else
    if c = ')' then rparen else if isAtom c then atom c else other [c]) = _
  rw [if_neg h1, if_neg h2, if_neg h3, if_neg h4, if_neg h5]

-- The comparisons with the characters of a sign stand inside the match itself. They are reached by opening it, since to split it
-- Lean would have to go through all characters for the case of a single one.
set_option linter.auxLemma false in
/-- A text that is neither a single character nor a longer sign is a lexeme by itself. -/
theorem Lexeme.ofText_eq_other {s : List Char} (hlength : s.length ≠ 1) (hs : s ∉ [['=', '='], ['!', '='], ['-', '>']]) :
    ofText s = other s := by
  simp only [List.mem_cons, List.not_mem_nil, or_false, not_or] at hs
  obtain ⟨hequiv, hxor, harrow⟩ := hs
  match s with
  | [] => rfl
  | [_] => exact absurd rfl hlength
  | c :: d :: s =>
    by_cases hd : d = '='
    · subst hd
      cases s with
      | cons => rfl
      | nil =>
        have hequal : c ≠ '=' := by rintro rfl; exact hequiv rfl
        have hnot : c ≠ '!' := by rintro rfl; exact hxor rfl
        unfold ofText
        delta ofText.match_1
        exact Eq.trans (dif_neg hequal) (dif_neg hnot)
    · by_cases hd' : d = '>'
      · subst hd'
        cases s with
        | cons => rfl
        | nil =>
          have hminus : c ≠ '-' := by rintro rfl; exact harrow rfl
          unfold ofText
          delta ofText.match_1
          exact dif_neg hminus
      · unfold ofText
        delta ofText.match_1
        exact Eq.trans (dif_neg hd) (dif_neg hd')

/-- A lexeme has the text that it was made of. -/
theorem Lexeme.text_ofText (s : List Char) : (ofText s).text = s := by
  have hmarks : ∀ c ∈ ['!', '&', '|', '(', ')'], (ofText [c]).text = [c] := by decide
  have hsigns : ∀ s ∈ [['=', '='], ['!', '='], ['-', '>']], (ofText s).text = s := by decide
  by_cases hlength : s.length = 1
  · obtain ⟨c, rfl⟩ := List.length_eq_one_iff.mp hlength
    by_cases hc : c ∈ ['!', '&', '|', '(', ')']
    · exact hmarks c hc
    · rw [ofText_singleton hc]
      split_ifs <;> rfl
  · by_cases hs : s ∈ [['=', '='], ['!', '='], ['-', '>']]
    · exact hsigns s hs
    · rw [ofText_eq_other hlength hs, text]

/-- A text is an atom exactly if it is one character that is one. -/
theorem Lexeme.ofText_eq_atom_iff {s : List Char} {c : Char} : ofText s = atom c ↔ s = [c] ∧ isAtom c = true := by
  constructor
  · intro h
    have hs : s = [c] := by rw [← text_ofText s, h, text]
    refine ⟨hs, ?_⟩
    have hmarks : ∀ d ∈ ['!', '&', '|', '(', ')'], ofText [d] ≠ atom d := by decide
    rw [hs] at h
    rw [ofText_singleton fun hmem => hmarks c hmem h] at h
    by_contra hc
    rw [if_neg hc] at h
    cases h
  · rintro ⟨rfl, hc⟩
    have hmarks : ∀ d ∈ ['!', '&', '|', '(', ')'], ¬isAtom d := by decide
    rw [ofText_singleton fun hmem => hmarks c hmem hc, if_pos hc]

/-- One character that is neither blank nor `=` is a lexeme that comes from texts. -/
theorem Lexeme.fromText_ofText {c : Char} (hb : isBlank c = false) (he : c ≠ '=') : (ofText [c]).FromText := by
  by_cases hs : c ∈ ['!', '&', '|', '(', ')']
  · simp only [List.mem_cons, List.not_mem_nil, or_false] at hs
    rcases hs with rfl | rfl | rfl | rfl | rfl <;> exact trivial
  · rw [ofText_singleton hs]
    by_cases ha : isAtom c
    · rw [if_pos ha]
      exact ha
    · rw [if_neg ha]
      simp only [isAtom, Bool.or_eq_true, decide_eq_true_eq, not_or, Bool.not_eq_true] at ha
      refine ⟨c, by simp, ?_, ha.1.1⟩
      simp only [List.mem_cons, List.not_mem_nil, or_false, not_or] at hs
      obtain ⟨h1, h2, h3, h4, h5⟩ := hs
      simp [isAllowed, hb, he, ha.1.2, ha.2, h1, h2, h3, h4, h5]

/-- What is read first comes from a text. A lexeme of a backslash holds a character that is allowed in no formula. -/
theorem Lexeme.fromText_next {c : Char} {cs : List Char} {t : Lexeme} (h : (next c cs).1 = some t) : t.FromText := by
  unfold next at h
  by_cases hb : isBlank c
  · rw [if_pos hb] at h
    cases h
  · by_cases hs : c = '\\'
    · rw [if_neg hb, if_pos hs] at h
      split at h
      · obtain rfl := Option.some.inj h
        exact ⟨'\\', by simp, by decide, by decide⟩
      · split at h
        · obtain rfl := Option.some.inj h
          exact trivial
        · obtain rfl := Option.some.inj h
          exact ⟨'\\', by simp, by decide, by decide⟩
    · rw [if_neg hb, if_neg hs] at h
      split at h
      all_goals try (obtain rfl := Option.some.inj h; exact trivial)
      split at h
      · rename_i hl
        obtain rfl := Option.some.inj h
        exact ⟨_, List.mem_cons_self, isAllowed_eq_false_of_isAlpha (isAlpha_iff.mpr (.inr hl)), isUpper_eq_false_of_isLower hl⟩
      · obtain rfl := Option.some.inj h
        exact fromText_ofText (by simpa using hb) (by assumption)

/-- The lexemes of a text come from a text. -/
theorem Lexeme.fromText_of_mem_lexFrom {s : List Char} : ∀ {k : Nat} {t : Lexeme}, t ∈ lexFrom k s → t.FromText := by
  induction s with
  | nil =>
    intro k t h
    rw [lexFrom_nil] at h
    cases h
  | cons c s ih =>
    intro k t h
    cases k with
    | succ k => exact ih h
    | zero =>
      rw [lexFrom_zero_cons, List.mem_append, Option.mem_toList] at h
      rcases h with h | h
      · exact fromText_next h
      · exact ih h

/-- The lexemes of a formula are of the kind that texts are cut into. -/
theorem fromText_of_mem_lexemes {s : String} {t : Lexeme} (h : t ∈ lexemes s) : t.FromText :=
  Lexeme.fromText_of_mem_lexFrom h

end Propositional.Latex
