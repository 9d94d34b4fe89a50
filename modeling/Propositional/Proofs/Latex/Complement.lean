import Propositional.Latex.Overline
import Propositional.Proofs.Latex.Grammar

/-!
# Formulas without overlines

Replacing the overlines of a formula gives a formula without overlines that says the same (`replaceOverlines_written`). The text
is read from left to right, so the statement about a part of it is one about what the part adds to what was written before it:
`Cleared s rest ys s'` says that the part `s` before `rest` comes out as `s'`, which writes the signs `ys`. Parts are put together
one behind the other (`Cleared.append`), and a derivation of the signs says which parts there are.
-/

namespace Propositional.Latex

open Text

/-! ## Texts that stay -/

/-- The name of the macro of overlines, with its backslash. -/
def overlineMacro : List Char := "\\overline".toList

/-- A character that neither opens nor closes anything. -/
def isInert (c : Char) : Bool := c ≠ '\\' && c ≠ '{' && c ≠ '}'

/-- A spelling that stays as it is: no brace, and no macro that the macro of overlines could be taken for. -/
def isKept : List Char → Bool
  | [] => true
  | c :: cs =>
    (isInert c || c = '\\' && !overlineMacro.isPrefixOf (c :: cs) && !(c :: cs).isPrefixOf overlineMacro) && cs.all isInert

/-- A sign that has nothing to do with overlines. -/
def Sign.IsPlain : Sign → Prop
  | overline | lbrace | rbrace => False
  | _ => True

/-- The spellings of plain signs are kept. -/
theorem Sign.isKept_of_mem_spellings {x : Sign} (hx : x.IsPlain) {p : List Char} (hp : p ∈ x.spellings) : isKept p := by
  cases x with
  | letter x =>
    obtain rfl : p = [x.1] := by simpa [spellings] using hp
    simp [isKept, isInert, ne_of_holds x.2 (show '\\'.isUpper = false by decide),
      ne_of_holds x.2 (show '{'.isUpper = false by decide), ne_of_holds x.2 (show '}'.isUpper = false by decide)]
  | constant b => cases b <;> revert p <;> decide
  | overline | lbrace | rbrace => exact hx.elim
  | _ => revert p; decide

/-- Where the macro of overlines does not stand, no overline opens. -/
theorem overlineOpening?_eq_none_of_prefix {s : List Char} (h : overlineMacro.isPrefixOf s = false) :
    overlineOpening? s = none := by
  have hl : literal "\\overline".toList s = none := by
    rw [literal, if_neg]
    exact fun hp => absurd (hp.symm.trans h) (by decide)
  unfold overlineOpening?
  rw [hl]

/-- Where no backslash stands, no overline opens. -/
theorem overlineOpening?_eq_none_of_ne {c : Char} (h : c ≠ '\\') (s : List Char) : overlineOpening? (c :: s) = none := by
  apply overlineOpening?_eq_none_of_prefix
  have hne : ('\\' == c) = false := by simpa using h.symm
  rw [show overlineMacro = '\\' :: overlineMacro.tail from rfl, List.isPrefixOf, hne, Bool.false_and]

/-- A character that neither opens nor closes anything stays. -/
theorem replaceOverlinesFrom_of_inert {c : Char} (h : isInert c) (frames : List OverlineFrame) (out s : List Char) :
    replaceOverlinesFrom 0 frames out (c :: s) = replaceOverlinesFrom 0 frames (c :: out) s := by
  simp only [isInert, Bool.and_eq_true, decide_eq_true_eq] at h
  obtain ⟨⟨hb, hl⟩, hr⟩ := h
  cases frames <;> simp [replaceOverlinesFrom, overlineOpening?_eq_none_of_ne hb, hl, hr]

/-- Inert characters stay. -/
theorem replaceOverlinesFrom_append_of_inert {p : List Char} (h : ∀ c ∈ p, isInert c) (frames : List OverlineFrame)
    (out s : List Char) : replaceOverlinesFrom 0 frames out (p ++ s) = replaceOverlinesFrom 0 frames (p.reverse ++ out) s := by
  induction p generalizing out with
  | nil => rfl
  | cons c p ih =>
    rw [List.cons_append, replaceOverlinesFrom_of_inert (h c List.mem_cons_self), ih fun d hd => h d (List.mem_cons_of_mem c hd)]
    simp

/-- Spellings that have nothing to do with overlines stay. Where neither the spelling nor the macro of overlines is the start of
the other, the macro does not stand there either. -/
theorem replaceOverlinesFrom_append_of_isKept {p : List Char} (h : isKept p) (frames : List OverlineFrame) (out s : List Char) :
    replaceOverlinesFrom 0 frames out (p ++ s) = replaceOverlinesFrom 0 frames (p.reverse ++ out) s := by
  cases p with
  | nil => rfl
  | cons c p =>
    simp only [isKept, Bool.and_eq_true, Bool.or_eq_true, Bool.not_eq_true', decide_eq_true_eq, List.all_eq_true] at h
    obtain ⟨hc, hp⟩ := h
    have hrest := replaceOverlinesFrom_append_of_inert hp frames (c :: out) s
    have hhead : replaceOverlinesFrom 0 frames out (c :: (p ++ s)) = replaceOverlinesFrom 0 frames (c :: out) (p ++ s) := by
      rcases hc with hc | ⟨⟨rfl, hov⟩, hpre⟩
      · exact replaceOverlinesFrom_of_inert hc frames out (p ++ s)
      · have hnone : overlineMacro.isPrefixOf ('\\' :: (p ++ s)) = false := by
          rw [Bool.eq_false_iff]
          intro htrue
          rw [List.isPrefixOf_iff_prefix, ← List.cons_append] at htrue
          rcases List.prefix_or_prefix_of_prefix htrue (List.prefix_append _ _) with h | h
          · rw [← List.isPrefixOf_iff_prefix, hov] at h
            cases h
          · rw [← List.isPrefixOf_iff_prefix, hpre] at h
            cases h
        cases frames <;> simp [replaceOverlinesFrom, overlineOpening?_eq_none_of_prefix hnone]
    rw [List.cons_append, hhead, hrest]
    simp

/-- A blank neither opens nor closes anything. -/
theorem isInert_of_isBlank {c : Char} (h : isBlank c) : isInert c := by
  have hne : ∀ d, isBlank d = false → c ≠ d := fun d hd => ne_of_holds h hd
  simp [isInert, hne '\\' (by decide), hne '{' (by decide), hne '}' (by decide)]

/-- A text of signs that have nothing to do with overlines stays. -/
theorem replaceOverlinesFrom_append_of_written {xs : List Sign} {s rest : List Char} (h : Written Sign.spellings rest xs s)
    (hx : ∀ x ∈ xs, x.IsPlain) (frames : List OverlineFrame) (out r : List Char) :
    replaceOverlinesFrom 0 frames out (s ++ r) = replaceOverlinesFrom 0 frames (s.reverse ++ out) r := by
  induction h generalizing out with
  | nil => rfl
  | @blank xs s c hc _ ih =>
    rw [List.cons_append, replaceOverlinesFrom_of_inert (isInert_of_isBlank hc), ih hx]
    simp
  | @sign xs s x p hp _ _ ih =>
    rw [List.append_assoc, replaceOverlinesFrom_append_of_isKept (Sign.isKept_of_mem_spellings (hx x List.mem_cons_self) hp),
      ih fun y hy => hx y (List.mem_cons_of_mem x hy)]
    simp

/-! ## One overline -/

/-- What belongs to an opening is skipped. -/
theorem replaceOverlinesFrom_skip (p : List Char) (frames : List OverlineFrame) (out s : List Char) :
    replaceOverlinesFrom p.length frames out (p ++ s) = replaceOverlinesFrom 0 frames out s := by
  induction p with
  | nil => rfl
  | cons c p ih => exact ih

/-- An overline opens at its macro, behind which are blanks and a brace. -/
theorem overlineOpening?_of_brace {w : List Char} (hw : ∀ c ∈ w, isBlank c) (s : List Char) :
    overlineOpening? (overlineMacro ++ (w ++ '{' :: s)) = some (overlineMacro.length + w.length + 1) := by
  have hl : literal "\\overline".toList (overlineMacro ++ (w ++ '{' :: s)) = some overlineMacro.length := by
    rw [literal, if_pos]
    · rfl
    · rw [List.isPrefixOf_iff_prefix]
      exact List.prefix_append _ _
  have hblanks : (w ++ '{' :: s).takeWhile isBlank = w := by
    rw [List.takeWhile_append_of_pos hw]
    simp [show isBlank '{' = false by decide]
  unfold overlineOpening?
  rw [hl]
  simp only [List.drop_left, hblanks]
  rw [← List.length_append, ← List.append_assoc, List.drop_left]
  rfl

/-- Where an overline opens, its content is read in a frame of its own. -/
theorem replaceOverlinesFrom_of_opening {c : Char} {s : List Char} {n : Nat} (h : overlineOpening? (c :: s) = some n)
    (frames : List OverlineFrame) (out : List Char) :
    replaceOverlinesFrom 0 frames out (c :: s) = replaceOverlinesFrom (n - 1) (⟨out, 0, c :: s⟩ :: frames) [] s := by
  cases frames <;> simp [replaceOverlinesFrom, h]

/-- The opening of an overline puts what was written before it aside. -/
theorem replaceOverlinesFrom_open {w : List Char} (hw : ∀ c ∈ w, isBlank c) (frames : List OverlineFrame) (out s : List Char) :
    replaceOverlinesFrom 0 frames out (overlineMacro ++ (w ++ '{' :: s)) =
      replaceOverlinesFrom 0 (⟨out, 0, overlineMacro ++ (w ++ '{' :: s)⟩ :: frames) [] s := by
  have hopen := overlineOpening?_of_brace hw s
  have hskip := replaceOverlinesFrom_skip (overlineMacro.tail ++ (w ++ ['{']))
    (⟨out, 0, overlineMacro ++ (w ++ '{' :: s)⟩ :: frames) [] s
  have hlen : (overlineMacro.tail ++ (w ++ ['{'])).length = overlineMacro.length + w.length + 1 - 1 := by
    have hm : overlineMacro.length = overlineMacro.tail.length + 1 := rfl
    simp only [List.length_append, List.length_singleton]
    omega
  rw [hlen] at hskip
  have hcons : overlineMacro ++ (w ++ '{' :: s) = '\\' :: (overlineMacro.tail ++ (w ++ ['{']) ++ s) := by
    show '\\' :: (overlineMacro.tail ++ (w ++ '{' :: s)) = _
    simp only [List.append_assoc, List.singleton_append]
  rw [hcons] at hopen hskip ⊢
  rw [replaceOverlinesFrom_of_opening hopen]
  exact hskip

/-- The brace that closes an overline writes the complement of its content behind what was put aside. -/
theorem replaceOverlinesFrom_close (source before : List Char) (frames : List OverlineFrame) (out s : List Char) :
    replaceOverlinesFrom 0 (⟨before, 0, source⟩ :: frames) out ('}' :: s) =
      replaceOverlinesFrom 0 frames ((complement out.reverse).reverse ++ before) s := by
  simp [replaceOverlinesFrom, overlineOpening?_eq_none_of_ne]

/-! ## The complement of a formula -/

/-- The signs `ys`, at a level, say the same as signs with the given meaning, without overlines and with no other variables
than those of `xs`. -/
structure PlainForm (l : Level) (xs : List Sign) (t : Sentence) (ys : List Sign) : Prop where
  derives : ∃ u, Derives l ys u ∧ ∀ val, u.eval val = t.eval val
  plain : ∀ y ∈ ys, y.IsPlain
  letters : ∀ x, .letter x ∈ ys → .letter x ∈ xs

/-- The complement is `!` and a letter alone, or `!` and the content in parentheses. -/
theorem complement_eq (content : List Char) :
    (∃ x : Variable, trim content = [x.1] ∧ complement content = ['!', x.1]) ∨
      complement content = '!' :: '(' :: (trim content ++ [')']) := by
  unfold complement
  split
  · rename_i x hx
    by_cases hu : x.isUpper
    · exact Or.inl ⟨⟨x, hu⟩, hx, by rw [if_pos hu]⟩
    · exact Or.inr (by rw [if_neg hu, hx]; rfl)
  · exact Or.inr rfl

/-- The signs of the complement of signs: a letter needs no parentheses. -/
def complementSigns : List Sign → List Sign
  | [.letter x] => [.not, .letter x]
  | xs => .not :: .lparen :: (xs ++ [.rparen])

/-- The signs of a complement are `!` and a letter alone, or `!` and the signs in parentheses. -/
theorem complementSigns_eq (xs : List Sign) : (∃ x, xs = [.letter x] ∧ complementSigns xs = [.not, .letter x]) ∨
    (∀ x, xs ≠ [.letter x]) ∧ complementSigns xs = .not :: .lparen :: (xs ++ [.rparen]) := by
  unfold complementSigns
  split
  · exact Or.inl ⟨_, rfl, rfl⟩
  · rename_i hne
    exact Or.inr ⟨hne, rfl⟩

/-- The text of a letter is the letter and blanks. -/
theorem trim_of_written_letter {x : Variable} {s rest : List Char} (h : Written Sign.spellings rest [.letter x] s) :
    trim s = [x.1] := by
  obtain ⟨w, p, w', rfl, hw, hp, -, h'⟩ := written_cons.mp h
  obtain rfl : p = [x.1] := by simpa [Sign.spellings] using hp
  have hx : isBlank x.1 = false := isBlank_eq_false_of_isAlphanum (isAlphanum_of_isUpper x.2)
  have hdrop : (w ++ ([x.1] ++ w')).dropWhile isBlank = x.1 :: w' := by
    rw [List.dropWhile_append_of_pos hw]
    simp [hx]
  rw [trim, hdrop, trimEnd_cons_of_not_blank hx, trimEnd_of_blank h'.isBlank_of_nil]

/-- The complement of the text of some signs is the text of their complement. What is written by a letter is the letter. -/
theorem complement_written {ys : List Sign} {content : List Char}
    (hw : ∀ {rest}, ¬StartsWithLetter rest → Written Sign.spellings rest ys content) (rest : List Char) :
    Written Sign.spellings rest (complementSigns ys) (complement content) := by
  rcases complementSigns_eq ys with ⟨x, rfl, hc⟩ | ⟨hne, hc⟩ <;> rw [hc]
  · have htrim : trim content = [x.1] := trim_of_written_letter (hw not_startsWithLetter_nil)
    rw [complement, htrim]
    simp only [x.2, if_true]
    have hletter : ¬IsMacro [x.1] := by simpa [IsMacro] using ne_of_holds x.2 (by decide)
    exact .plain (s := [x.1]) (p := ['!']) (by decide) (by decide)
      (.plain (s := []) (p := [x.1]) (by simp [Sign.spellings]) hletter .nil)
  · rcases complement_eq content with ⟨x, htrim, -⟩ | hc
    · have hletter := (hw not_startsWithLetter_nil).trim (fun _ => List.Subset.refl _) not_startsWithLetter_nil
      rw [htrim] at hletter
      exact absurd (eq_letter_of_written hletter) (hne x)
    · rw [hc]
      have hparen : ¬StartsWithLetter (')' :: rest) := not_startsWithLetter_cons (by decide) rest
      have hcontent : Written Sign.spellings rest (ys ++ [.rparen]) (trim content ++ [')']) :=
        written_append.mpr ⟨_, _, rfl, (hw hparen).trim (fun _ => List.Subset.refl _) hparen,
          .plain (s := []) (p := [')']) (by decide) (by decide) .nil⟩
      exact .plain (p := ['!']) (by decide) (by decide) (.plain (p := ['(']) (by decide) (by decide) hcontent)

/-- Signs come out as others without overlines: plain signs stay, and an overline becomes the complement of what its content
comes out as. -/
inductive Uncovers : List Sign → List Sign → Prop where
  | nil : Uncovers [] []
  | plain {x : Sign} {xs ys : List Sign} : x.IsPlain → Uncovers xs ys → Uncovers (x :: xs) (x :: ys)
  | overline {xs ys zs us : List Sign} : Uncovers xs ys → Uncovers zs us →
      Uncovers (.overline :: .lbrace :: (xs ++ .rbrace :: zs)) (complementSigns ys ++ us)

/-- The complement has the signs, a negation and parentheses. -/
theorem mem_complementSigns {y : Sign} {xs : List Sign} (h : y ∈ complementSigns xs) :
    y ∈ xs ∨ y = .not ∨ y = .lparen ∨ y = .rparen := by
  rcases complementSigns_eq xs with ⟨x, rfl, hc⟩ | ⟨-, hc⟩
  · rw [hc] at h
    rcases List.mem_cons.mp h with rfl | h
    · exact Or.inr (Or.inl rfl)
    · exact Or.inl h
  · rw [hc] at h
    simp only [List.mem_cons, List.mem_append, List.not_mem_nil, or_false] at h
    rcases h with h | h | h | h
    · exact Or.inr (Or.inl h)
    · exact Or.inr (Or.inr (Or.inl h))
    · exact Or.inl h
    · exact Or.inr (Or.inr (Or.inr h))

namespace Uncovers

variable {xs ys : List Sign}

/-- Signs come out one after the other. -/
theorem append (h : Uncovers xs ys) {zs us : List Sign} (h' : Uncovers zs us) : Uncovers (xs ++ zs) (ys ++ us) := by
  induction h with
  | nil => exact h'
  | plain hx _ ih => exact .plain hx ih
  | @overline xs ys _ _ hc _ _ ih =>
    rw [List.append_assoc]
    show Uncovers (.overline :: .lbrace :: ((xs ++ .rbrace :: _) ++ zs)) _
    rw [List.append_assoc]
    exact .overline hc ih

/-- What comes out has no overlines. -/
theorem isPlain (h : Uncovers xs ys) : ∀ y ∈ ys, y.IsPlain := by
  induction h with
  | nil => simp
  | plain hx _ ih => exact List.forall_mem_cons.mpr ⟨hx, ih⟩
  | overline _ _ ihc ih =>
    refine List.forall_mem_append.mpr ⟨fun y hy => ?_, ih⟩
    rcases mem_complementSigns hy with hy | rfl | rfl | rfl
    · exact ihc y hy
    all_goals exact trivial

/-- No other variables come out. -/
theorem letter_mem (h : Uncovers xs ys) {x : Variable} (hx : .letter x ∈ ys) : .letter x ∈ xs := by
  induction h with
  | nil => exact hx
  | @plain y xs ys _ _ ih =>
    rcases List.mem_cons.mp hx with he | hx
    · rw [he]
      exact List.mem_cons_self
    · exact List.mem_cons_of_mem y (ih hx)
  | overline _ _ ihc ih =>
    simp only [List.mem_cons, List.mem_append]
    rcases List.mem_append.mp hx with hx | hx
    · rcases mem_complementSigns hx with hx | hx | hx | hx
      · exact .inr (.inr (.inl (ihc hx)))
      all_goals cases hx
    · exact .inr (.inr (.inr (.inr (ih hx))))

end Uncovers

/-- The complement of a formula is one that says the opposite. -/
theorem Derives.complementSigns {ys : List Sign} {u : Sentence} (h : Derives .formula ys u) :
    ∃ w, Derives .operand (complementSigns ys) w ∧ ∀ val, w.eval val = !u.eval val := by
  rcases complementSigns_eq ys with ⟨x, hx, hc⟩ | ⟨-, hc⟩ <;> rw [hc]
  · exact ⟨_, .not (.letter x), fun val => by rw [Sentence.eval, Sentence.eval, h.eval_of_letter hx]⟩
  · exact ⟨_, .not (.group h), fun val => by rw [Sentence.eval]⟩

/-- What the grammar derives comes out as something that it derives as well, and that says the same. -/
theorem Derives.uncovers {l : Level} {xs : List Sign} {t : Sentence} (h : Derives l xs t) :
    ∃ ys, Uncovers xs ys ∧ ∃ u, Derives l ys u ∧ ∀ val, u.eval val = t.eval val := by
  induction h with
  | letter x => exact ⟨_, .plain trivial .nil, _, .letter x, fun _ => rfl⟩
  | constant b => exact ⟨_, .plain trivial .nil, _, .constant b, fun _ => rfl⟩
  | not _ ih =>
    obtain ⟨ys, hys, u, hu, he⟩ := ih
    exact ⟨_, .plain trivial hys, _, .not hu, fun val => by rw [Sentence.eval, Sentence.eval, he]⟩
  | group _ ih =>
    obtain ⟨ys, hys, u, hu, he⟩ := ih
    exact ⟨_, .plain trivial (hys.append (.plain trivial .nil)), _, .group hu, he⟩
  | overline _ ih =>
    obtain ⟨ys, hys, u, hu, he⟩ := ih
    obtain ⟨w, hw, hopposite⟩ := hu.complementSigns
    refine ⟨_, .overline hys .nil, w, by rwa [List.append_nil], fun val => ?_⟩
    rw [hopposite, Sentence.eval, he]
  | ofOperand _ ih =>
    obtain ⟨ys, hys, u, hu, he⟩ := ih
    exact ⟨ys, hys, u, .ofOperand hu, he⟩
  | ofConjunction _ ih =>
    obtain ⟨ys, hys, u, hu, he⟩ := ih
    exact ⟨ys, hys, u, .ofConjunction hu, he⟩
  | ofDisjunction _ ih =>
    obtain ⟨ys, hys, u, hu, he⟩ := ih
    exact ⟨ys, hys, u, .ofDisjunction hu, he⟩
  | ofImplication _ ih =>
    obtain ⟨ys, hys, u, hu, he⟩ := ih
    exact ⟨ys, hys, u, .ofImplication hu, he⟩
  | and _ _ ih₁ ih₂ =>
    obtain ⟨ys, hys, u, hu, he⟩ := ih₁
    obtain ⟨zs, hzs, w, hw, he'⟩ := ih₂
    exact ⟨_, hys.append (.plain trivial hzs), _, .and hu hw, fun val => by rw [Sentence.eval, Sentence.eval, he, he']⟩
  | or _ _ ih₁ ih₂ =>
    obtain ⟨ys, hys, u, hu, he⟩ := ih₁
    obtain ⟨zs, hzs, w, hw, he'⟩ := ih₂
    exact ⟨_, hys.append (.plain trivial hzs), _, .or hu hw, fun val => by rw [Sentence.eval, Sentence.eval, he, he']⟩
  | arrow _ _ ih₁ ih₂ =>
    obtain ⟨ys, hys, u, hu, he⟩ := ih₁
    obtain ⟨zs, hzs, w, hw, he'⟩ := ih₂
    exact ⟨_, hys.append (.plain trivial hzs), _, .arrow hu hw, fun val => by rw [Sentence.eval, Sentence.eval, he, he']⟩
  | iff _ _ ih₁ ih₂ =>
    obtain ⟨ys, hys, u, hu, he⟩ := ih₁
    obtain ⟨zs, hzs, w, hw, he'⟩ := ih₂
    exact ⟨_, hys.append (.plain trivial hzs), _, .iff hu hw, fun val => by rw [Sentence.eval, Sentence.eval, he, he']⟩

/-! ## Parts of a text -/

/-- The part `s` of a text, before `rest`, comes out as the text `s'` of the signs `ys`, wherever it is written. What is written
behind it may change, if it does not come to start with a letter, and neither does the part itself. -/
structure Cleared (s rest : List Char) (ys : List Sign) (s' : List Char) : Prop where
  written : ∀ {rest'}, (StartsWithLetter rest' → StartsWithLetter rest) → Written Sign.spellings rest' ys s'
  start : ∀ {rest'}, (StartsWithLetter rest' → StartsWithLetter rest) →
    StartsWithLetter (s' ++ rest') → StartsWithLetter (s ++ rest)
  run : ∀ frames out, replaceOverlinesFrom 0 frames out (s ++ rest) = replaceOverlinesFrom 0 frames (s'.reverse ++ out) rest

/-- Parts of a text come out one after the other. -/
theorem Cleared.append {s₁ s₂ rest s₁' s₂' : List Char} {ys zs : List Sign} (h₁ : Cleared s₁ (s₂ ++ rest) ys s₁')
    (h₂ : Cleared s₂ rest zs s₂') : Cleared (s₁ ++ s₂) rest (ys ++ zs) (s₁' ++ s₂') where
  written hr := written_append.mpr ⟨s₁', s₂', rfl, h₁.written (h₂.start hr), h₂.written hr⟩
  start hr hl := by
    rw [List.append_assoc] at hl ⊢
    exact h₁.start (h₂.start hr) hl
  run frames out := by
    rw [List.append_assoc, h₁.run, h₂.run, List.reverse_append, List.append_assoc]

/-- Signs that have nothing to do with overlines stay as they are written. -/
theorem Cleared.of_plain {s rest : List Char} {xs : List Sign} (h : Written Sign.spellings rest xs s)
    (hx : ∀ x ∈ xs, x.IsPlain) : Cleared s rest xs s where
  written hr := h.weaken hr
  start hr hl := by
    cases s with
    | nil => exact hr hl
    | cons c s => exact hl
  run frames out := replaceOverlinesFrom_append_of_written h hx frames out rest

/-- Blanks before a text do not make it start with a letter. -/
theorem not_startsWithLetter_blanks {w : List Char} (hw : ∀ c ∈ w, isBlank c) {s : List Char} (h : ¬StartsWithLetter s) :
    ¬StartsWithLetter (w ++ s) := by
  cases w with
  | nil => exact h
  | cons c w =>
    apply not_startsWithLetter_cons
    rw [Bool.eq_false_iff]
    intro ha
    have := hw c List.mem_cons_self
    rw [isBlank_eq_false_of_isAlphanum (isAlphanum_of_isAlpha ha)] at this
    cases this

/-- An overline comes out as the complement of what its content comes out as. Its text is the macro, the braces and the content,
each behind some blanks, and blanks may follow the content inside the braces. -/
theorem Cleared.overline {xs ys : List Sign} {s rest : List Char}
    (h : Written Sign.spellings rest (.overline :: .lbrace :: (xs ++ [.rbrace])) s)
    (hcontent : ∀ {s rest}, Written Sign.spellings rest xs s → ∃ s', Cleared s rest ys s') :
    ∃ s', Cleared s rest (complementSigns ys) s' := by
  obtain ⟨w, p, s₁, rfl, hw, hp, -, h₁⟩ := written_cons.mp h
  obtain rfl : p = overlineMacro := List.mem_singleton.mp hp
  obtain ⟨w₁, p, s₂, rfl, hw₁, hp, -, h₂⟩ := written_cons.mp h₁
  obtain rfl : p = ['{'] := List.mem_singleton.mp hp
  obtain ⟨s₃, s₄, rfl, hxs, h₃⟩ := written_append.mp h₂
  obtain ⟨w₂, p, w₃, rfl, hw₂, hp, -, h₄⟩ := written_cons.mp h₃
  obtain rfl : p = ['}'] := List.mem_singleton.mp hp
  have hw₃ := h₄.isBlank_of_nil
  obtain ⟨content, hc⟩ := hcontent hxs
  have hwritten : ∀ {rest'}, ¬StartsWithLetter rest' → Written Sign.spellings rest' ys (content ++ w₂) := fun hr =>
    (hc.written fun hl => absurd hl (not_startsWithLetter_blanks hw₂ hr)).append_blanks hw₂
  have hcomp := complement_written hwritten
  have hbang : ∀ r, ¬StartsWithLetter (complement (content ++ w₂) ++ r) := by
    intro r
    rcases complement_eq (content ++ w₂) with ⟨x, -, he⟩ | he <;> rw [he] <;> exact not_startsWithLetter_cons (by decide) _
  refine ⟨w ++ (complement (content ++ w₂) ++ w₃), fun {rest'} hr => ?_, fun {rest'} hr hl => ?_, fun frames out => ?_⟩
  · exact .blanks hw ((hcomp _).append_blanks hw₃)
  · rw [List.append_assoc, List.append_assoc] at hl
    exact absurd hl (not_startsWithLetter_blanks hw (hbang _))
  · have hinert : ∀ {w : List Char}, (∀ c ∈ w, isBlank c) → ∀ c ∈ w, isInert c := fun hw c hc => isInert_of_isBlank (hw c hc)
    have hopen := replaceOverlinesFrom_open hw₁ frames (w.reverse ++ out) (s₃ ++ (w₂ ++ '}' :: (w₃ ++ rest)))
    have hrun := fun source => hc.run (⟨w.reverse ++ out, 0, source⟩ :: frames) []
    simp only [List.append_assoc, List.cons_append, List.nil_append, List.append_nil] at hrun ⊢
    rw [replaceOverlinesFrom_append_of_inert (hinert hw), hopen, hrun, replaceOverlinesFrom_append_of_inert (hinert hw₂),
      replaceOverlinesFrom_close, replaceOverlinesFrom_append_of_inert (hinert hw₃)]
    simp

/-- Whatever text writes the signs, it comes out as a text of the signs that they come out as. -/
theorem Uncovers.cleared {xs ys : List Sign} (h : Uncovers xs ys) :
    ∀ {s rest : List Char}, Written Sign.spellings rest xs s → ∃ s', Cleared s rest ys s' := by
  induction h with
  | nil => exact fun hs => ⟨_, .of_plain hs (by simp)⟩
  | @plain x xs ys hx _ ih =>
    intro s rest hs
    obtain ⟨s₁, s₂, rfl, h₁, h₂⟩ := written_append.mp (show Written Sign.spellings rest ([x] ++ xs) s from hs)
    obtain ⟨s₂', hc⟩ := ih h₂
    exact ⟨_, (Cleared.of_plain h₁ (by simpa using hx)).append hc⟩
  | @overline xs ys zs us _ _ ihc ih =>
    intro s rest hs
    have hsplit : .overline :: .lbrace :: (xs ++ .rbrace :: zs) = (.overline :: .lbrace :: (xs ++ [.rbrace])) ++ zs := by simp
    rw [hsplit] at hs
    obtain ⟨s₁, s₂, rfl, h₁, h₂⟩ := written_append.mp hs
    obtain ⟨s₁', hc₁⟩ := Cleared.overline h₁ ihc
    obtain ⟨s₂', hc₂⟩ := ih h₂
    exact ⟨_, hc₁.append hc₂⟩

/-- Whatever text writes the signs, at a level, it comes out as the text of a form of them without overlines. -/
def Clears (l : Level) (xs : List Sign) (t : Sentence) : Prop :=
  ∀ {s rest}, Written Sign.spellings rest xs s → ∃ ys s', PlainForm l xs t ys ∧ Cleared s rest ys s'

/-- The overlines of a text that writes what the grammar derives are replaced by negations, and what comes out says the same. -/
theorem Derives.clears {l : Level} {xs : List Sign} {t : Sentence} (h : Derives l xs t) : Clears l xs t := by
  intro s rest hs
  obtain ⟨ys, hys, hu⟩ := h.uncovers
  obtain ⟨s', hc⟩ := hys.cleared hs
  exact ⟨ys, s', ⟨hu, hys.isPlain, fun _ => hys.letter_mem⟩, hc⟩

/-- A whole text is replaced by what it comes out as. -/
theorem Cleared.replaceOverlines {s s' : List Char} {ys : List Sign} (h : Cleared s [] ys s') :
    Written Sign.spellings [] ys (replaceOverlines s) := by
  have hrun := h.run [] []
  rw [List.append_nil, List.append_nil] at hrun
  have hs' : Latex.replaceOverlines s = s' := by
    rw [Latex.replaceOverlines, hrun, replaceOverlinesFrom]
    exact List.reverse_reverse s'
  exact hs' ▸ h.written id

/-- A formula comes out of the replacement of its overlines as a formula without overlines that says the same. -/
theorem replaceOverlines_written {xs : List Sign} {t : Sentence} (h : Derives .formula xs t) {s : List Char}
    (hs : Written Sign.spellings [] xs s) :
    ∃ ys, PlainForm .formula xs t ys ∧ Written Sign.spellings [] ys (replaceOverlines s) := by
  obtain ⟨ys, s', hys, hc⟩ := h.clears hs
  exact ⟨ys, hys, hc.replaceOverlines⟩

end Propositional.Latex
