import Propositional.Proofs.Latex.Lexing
import Propositional.Proofs.Latex.Respelling

/-!
# Lexemes of native texts

A text that writes signs with their native spellings is cut into one lexeme for each sign (`lexFrom_written`). The only spellings
that could join what follows are `!` and `==`, and in no arrangement a sign follows them that is spelled with a `=` in the first
place (`Arranged.apart`).
-/

namespace Propositional.Latex

open Text Lexeme

/-- The lexeme that a sign is cut into. -/
def Sign.lexeme : Sign → Lexeme
  | letter x => .atom x.1
  | constant b => .atom (bit b)
  | not => .not
  | and => .and
  | or => .or
  | arrow => .arrow
  | iff => .equiv
  | lparen => .lparen
  | rparen => .rparen
  | overline => .other "\\overline".toList
  | lbrace => .other ['{']
  | rbrace => .other ['}']

/-! ## Signs that stay apart -/

/-- The signs do not start with one that may be spelled with a `=` in the first place. -/
def Opens (xs : List Sign) : Prop := ∀ x ∈ xs.head?, x ≠ .iff ∧ x ≠ .arrow

/-- No negation and no equivalence is followed by a sign that may be spelled with a `=` in the first place. -/
def Apart : List Sign → Prop
  | [] => True
  | x :: xs => (x = .not ∨ x = .iff → Opens xs) ∧ Apart xs

/-- An arrangement does not start with such a sign, and its signs stay apart from one another and from what follows. -/
theorem Arranged.apart {p : Part} {xs : List Sign} (h : Arranged p xs) :
    (∀ ys, Opens (xs ++ ys)) ∧ ∀ ys, Apart ys → Apart (xs ++ ys) := by
  induction h with
  | letter x => exact ⟨by simp [Opens], fun ys hys => ⟨by simp, hys⟩⟩
  | constant b => exact ⟨by simp [Opens], fun ys hys => ⟨by simp, hys⟩⟩
  | not _ ih => exact ⟨by simp [Opens], fun ys hys => ⟨fun _ => ih.1 ys, ih.2 ys hys⟩⟩
  | @group xs _ ih =>
    refine ⟨by simp [Opens], fun ys hys => ⟨by simp, ?_⟩⟩
    show Apart ((xs ++ [.rparen]) ++ ys)
    rw [List.append_assoc]
    exact ih.2 _ ⟨by simp, hys⟩
  | @overline xs _ ih =>
    refine ⟨by simp [Opens], fun ys hys => ⟨by simp, by simp, ?_⟩⟩
    show Apart ((xs ++ [.rbrace]) ++ ys)
    rw [List.append_assoc]
    exact ih.2 _ ⟨by simp, hys⟩
  | ofOperand _ ih => exact ih
  | link _ _ _ ih₁ ih₂ =>
    refine ⟨fun ys => ?_, fun ys hys => ?_⟩
    · rw [List.append_assoc]
      exact ih₁.1 _
    · rw [List.append_assoc]
      exact ih₁.2 _ ⟨fun _ => ih₂.1 ys, ih₂.2 ys hys⟩

/-- Only an equivalence and an arrow are natively spelled with a `=` in the first place. -/
theorem head?_of_mem_natives {x : Sign} (hi : x ≠ .iff) (ha : x ≠ .arrow) : ∀ p ∈ x.natives, p ≠ [] ∧ p.head? ≠ some '=' := by
  rw [Sign.natives_eq]
  cases x with
  | letter x => simpa using ne_of_holds x.2 (by decide)
  | iff => exact absurd rfl hi
  | arrow => exact absurd rfl ha
  | constant b => cases b <;> decide
  | _ => decide

/-- A text of signs does not start with a `=` unless its first sign may be spelled so. -/
theorem head?_of_written {rest : List Char} {xs : List Sign} {s : List Char} (h : Written Sign.natives rest xs s)
    (hx : Opens xs) : s.head? ≠ some '=' := by
  cases h with
  | nil => simp
  | @blank xs s c hc hs => simpa using ne_of_holds hc (by decide)
  | @sign xs s x p hp _ _ =>
    obtain ⟨hi, ha⟩ := hx x (by simp)
    obtain ⟨hne, hhead⟩ := head?_of_mem_natives hi ha p hp
    cases p with
    | nil => exact absurd rfl hne
    | cons c p => exact hhead

/-! ## One lexeme -/

/-- An atom is read by itself. -/
theorem next_of_isAtom {c : Char} (h : isAtom c) (s : List Char) : next c s = (some (.atom c), 0) := by
  have hn := isAlphanum_of_isAtom h
  have hne : ∀ d : Char, d.isAlphanum = false → c ≠ d := fun d hd => ne_of_holds hn hd
  have hlower : c.isLower = false := by
    simp only [isAtom, Bool.or_eq_true, decide_eq_true_eq] at h
    rcases h with (h | rfl) | rfl
    · rw [Bool.eq_false_iff]
      intro hl
      rw [isUpper_eq_false_of_isLower hl] at h
      cases h
    · decide
    · decide
  unfold next
  rw [if_neg (by simp [isBlank_eq_false_of_isAlphanum hn]), if_neg (hne _ (by decide))]
  split
  all_goals try exact absurd rfl (hne _ (by decide))
  rw [if_neg (by simp [hlower]), ofText_eq_atom_iff.mpr ⟨rfl, h⟩]

/-- A macro is read whole, where no letter follows. -/
theorem next_backslash {name s : List Char} (hne : name ≠ []) (hn : ∀ c ∈ name, c.isAlpha) (hs : ¬StartsWithLetter s) :
    next '\\' (name ++ s) = (some (if isNamed arrowMacros name then .arrow else .other ('\\' :: name)), name.length) := by
  rw [next_of_backslash, takeWhile_isAlpha hn hs, if_neg hne]

/-- A `!` before no `=` is a negation. -/
theorem next_bang {s : List Char} (hs : s.head? ≠ some '=') : next '!' s = (some .not, 0) := by
  have hnot : ¬['='] <+: s := by
    rintro ⟨r, rfl⟩
    exact hs rfl
  rw [next_eq (by decide) (by decide)]
  simp [hnot]
  rfl

/-- Two `=` before no further one are an equivalence. -/
theorem next_equals {s : List Char} (hs : s.head? ≠ some '=') : next '=' ('=' :: s) = (some .equiv, 1) := by
  have hw : (('=' :: s).takeWhile (· = '=')).length = 1 := by
    cases s with
    | nil => rfl
    | cons c s =>
      have hc : c ≠ '=' := by simpa using hs
      simp [hc]
  have h : next '=' ('=' :: s) = (some .equiv, (('=' :: s).takeWhile (· = '=')).length) := rfl
  rw [h, hw]

/-- The spelling `p` of the sign `x` is one lexeme where it stands before `s`. -/
def IsCut (x : Sign) (p s : List Char) : Prop := ∃ c q, p = c :: q ∧ next c (q ++ s) = (some x.lexeme, q.length)

/-- A sign that is natively spelled is one lexeme, unless it joins what follows. -/
theorem isCut_of_mem_natives {x : Sign} {p s : List Char} (hp : p ∈ x.natives) (hm : IsMacro p → ¬StartsWithLetter s)
    (hs : x = .not ∨ x = .iff → s.head? ≠ some '=') : IsCut x p s := by
  have hmacro : ∀ {name : List Char}, p = '\\' :: name → name ≠ [] → (∀ c ∈ name, c.isAlpha) →
      (if isNamed arrowMacros name then Lexeme.arrow else .other ('\\' :: name)) = x.lexeme → IsCut x p s := by
    rintro name rfl hne hn hx
    exact ⟨_, _, rfl, by rw [next_backslash hne hn (hm rfl), hx]⟩
  rw [Sign.natives_eq] at hp
  cases x with
  | letter x =>
    obtain rfl := List.mem_singleton.mp hp
    exact ⟨_, [], rfl, next_of_isAtom (by simp [isAtom, x.2]) s⟩
  | constant b =>
    obtain rfl := List.mem_singleton.mp hp
    exact ⟨_, [], rfl, next_of_isAtom (by cases b <;> decide) s⟩
  | not =>
    obtain rfl := List.mem_singleton.mp hp
    exact ⟨_, [], rfl, next_bang (hs (Or.inl rfl))⟩
  | iff =>
    simp only [List.mem_cons, List.not_mem_nil, or_false] at hp
    rcases hp with rfl | rfl | rfl
    · exact ⟨_, ['='], rfl, next_equals (hs (Or.inr rfl))⟩
    · exact ⟨_, ['-', '>'], rfl, rfl⟩
    · exact ⟨_, ['=', '>'], rfl, rfl⟩
  | arrow =>
    rcases List.mem_append.mp hp with hp | hp
    · simp only [List.mem_cons, List.not_mem_nil, or_false] at hp
      rcases hp with rfl | rfl | rfl | rfl
      · exact ⟨_, ['>'], rfl, rfl⟩
      · exact ⟨_, ['>'], rfl, rfl⟩
      · exact ⟨_, [], rfl, rfl⟩
      · exact ⟨_, [], rfl, rfl⟩
    · obtain ⟨name, hname, rfl⟩ := List.mem_map.mp hp
      have htable : ∀ name ∈ arrowMacros,
          name.toList ≠ [] ∧ (∀ c ∈ name.toList, c.isAlpha) ∧ isNamed arrowMacros name.toList := by
        decide
      obtain ⟨hne, hn, hnamed⟩ := htable name hname
      exact hmacro rfl hne hn (by rw [if_pos hnamed]; rfl)
  | overline =>
    obtain rfl := List.mem_singleton.mp hp
    exact hmacro (show "\\overline".toList = '\\' :: "overline".toList by decide) (by decide) (by decide) (by decide)
  | _ =>
    obtain rfl := List.mem_singleton.mp hp
    exact ⟨_, [], rfl, rfl⟩

/-! ## All lexemes -/

/-- What belongs to a lexeme that was read is skipped. -/
theorem lexFrom_skip (p s : List Char) : lexFrom p.length (p ++ s) = lexFrom 0 s := by
  rw [lexFrom_eq_drop, List.drop_left]

/-- A text with native spellings is cut into the lexemes of its signs. -/
theorem lexFrom_written {xs : List Sign} {s : List Char} (h : Written Sign.natives [] xs s) (hx : Apart xs) :
    lexFrom 0 s = xs.map Sign.lexeme := by
  induction h with
  | nil => rfl
  | @blank xs s c hc _ ih =>
    rw [lexFrom_blank hc]
    exact ih hx
  | @sign xs s x p hp hm hs ih =>
    rw [List.append_nil] at hm
    obtain ⟨c, q, rfl, hnext⟩ := isCut_of_mem_natives hp hm fun hj => head?_of_written hs (hx.1 hj)
    rw [List.cons_append, lexFrom_zero_cons, hnext]
    show x.lexeme :: lexFrom q.length (q ++ s) = _
    rw [lexFrom_skip, ih hx.2, List.map_cons]

/-- A text that is an arrangement once its overlines are replaced is cut into the lexemes of that arrangement. -/
theorem Arranged.lexemes_eq {p : Part} {ys : List Sign} (h : Arranged p ys) {s : String}
    (hs : Written Sign.spellings [] ys (replaceOverlines s.toList)) : lexemes s = ys.map Sign.lexeme := by
  have hapart : Apart ys := by
    have := h.apart.2 [] trivial
    rwa [List.append_nil] at this
  exact lexFrom_written (respell_written hs) hapart

end Propositional.Latex
