import Propositional.Formula
import Propositional.Latex.Lexeme
import Propositional.Proofs.Text.Blank

/-!
# The LaTeX notation of formulas

A formula in LaTeX is made of signs, each of which has several spellings. `Derives` is the grammar of signs, with the meaning of
what it derives: an arrow is a material implication, and an overline a negation. `Written` says which texts write a list of
signs: any spelling of each sign, with any blanks before, between and behind them, but a macro is never followed by a letter,
which would belong to its name.

A text is taken apart together with its signs (`written_append`). What is written behind a text has no say in it but for the
letter that it may start with (`Written.weaken`).
-/

namespace Propositional.Latex

open Text

/-- A propositional variable: a capital letter. -/
abbrev Variable := { c : Char // c.isUpper }

/-- A sign of the LaTeX notation. The braces are those of overlines. -/
inductive Sign where
  | letter (x : Variable)
  | constant (b : Bool)
  | not
  | and
  | or
  | arrow
  | iff
  | lparen
  | rparen
  | overline
  | lbrace
  | rbrace
  deriving DecidableEq

/-- What a LaTeX formula says. -/
inductive Sentence where
  | letter (x : Variable)
  | constant (b : Bool)
  | not (operand : Sentence)
  | overline (operand : Sentence)
  | and (left right : Sentence)
  | or (left right : Sentence)
  | implies (left right : Sentence)
  | iff (left right : Sentence)

/-- The truth value of a sentence under values for the variables. -/
def Sentence.eval (val : Char → Bool) : Sentence → Bool
  | letter x => val x.1
  | constant b => b
  | not t => !t.eval val
  | overline t => !t.eval val
  | and t u => t.eval val && u.eval val
  | or t u => t.eval val || u.eval val
  | implies t u => !t.eval val || u.eval val
  | iff t u => t.eval val == u.eval val

/-! ## The grammar -/

/-- The nonterminals of the grammar, tightest last. -/
inductive Level where
  | formula | implication | disjunction | conjunction | operand
  deriving DecidableEq

/-- The signs that each nonterminal derives, and what they say. An arrow takes an operand to its left and the rest of the
implication to its right, and the other binary connectives group to the left. -/
inductive Derives : Level → List Sign → Sentence → Prop where
  | letter (x : Variable) : Derives .operand [.letter x] (.letter x)
  | constant (b : Bool) : Derives .operand [.constant b] (.constant b)
  | not {xs : List Sign} {t : Sentence} : Derives .operand xs t → Derives .operand (.not :: xs) (.not t)
  | group {xs : List Sign} {t : Sentence} : Derives .formula xs t → Derives .operand (.lparen :: (xs ++ [.rparen])) t
  | overline {xs : List Sign} {t : Sentence} :
      Derives .formula xs t → Derives .operand (.overline :: .lbrace :: (xs ++ [.rbrace])) (.overline t)
  | ofOperand {xs : List Sign} {t : Sentence} : Derives .operand xs t → Derives .conjunction xs t
  | and {xs ys : List Sign} {t u : Sentence} :
      Derives .conjunction xs t → Derives .operand ys u → Derives .conjunction (xs ++ .and :: ys) (.and t u)
  | ofConjunction {xs : List Sign} {t : Sentence} : Derives .conjunction xs t → Derives .disjunction xs t
  | or {xs ys : List Sign} {t u : Sentence} :
      Derives .disjunction xs t → Derives .conjunction ys u → Derives .disjunction (xs ++ .or :: ys) (.or t u)
  | ofDisjunction {xs : List Sign} {t : Sentence} : Derives .disjunction xs t → Derives .implication xs t
  | arrow {xs ys : List Sign} {t u : Sentence} :
      Derives .operand xs t → Derives .implication ys u → Derives .implication (xs ++ .arrow :: ys) (.implies t u)
  | ofImplication {xs : List Sign} {t : Sentence} : Derives .implication xs t → Derives .formula xs t
  | iff {xs ys : List Sign} {t u : Sentence} :
      Derives .formula xs t → Derives .implication ys u → Derives .formula (xs ++ .iff :: ys) (.iff t u)

/-- A variable alone says its own truth value. -/
theorem Derives.eval_of_letter {l : Level} {xs : List Sign} {t : Sentence} (h : Derives l xs t) {x : Variable}
    (hx : xs = [.letter x]) (val : Char → Bool) : t.eval val = val x.1 := by
  induction h with
  | letter y =>
    obtain rfl : y = x := by simpa using hx
    rfl
  | ofOperand _ ih | ofConjunction _ ih | ofDisjunction _ ih | ofImplication _ ih => exact ih hx
  | _ => simp [List.append_eq_cons_iff] at hx

/-! ## Arrangements

What the grammar says about the order of signs and not about how they bind. -/

/-- The signs of the binary connectives. -/
def Sign.connectives : List Sign := [.and, .or, .arrow, .iff]

/-- The parts of an arrangement: an operand, and a chain of operands with connectives between them. -/
inductive Part where
  | chain | operand
  deriving DecidableEq

/-- The signs can stand one behind the other: every connective, arrows among them, stands behind an operand and before one, and
parentheses and overlines hold chains. -/
inductive Arranged : Part → List Sign → Prop where
  | letter (x : Variable) : Arranged .operand [.letter x]
  | constant (b : Bool) : Arranged .operand [.constant b]
  | not {xs : List Sign} : Arranged .operand xs → Arranged .operand (.not :: xs)
  | group {xs : List Sign} : Arranged .chain xs → Arranged .operand (.lparen :: (xs ++ [.rparen]))
  | overline {xs : List Sign} : Arranged .chain xs → Arranged .operand (.overline :: .lbrace :: (xs ++ [.rbrace]))
  | ofOperand {xs : List Sign} : Arranged .operand xs → Arranged .chain xs
  | link {xs ys : List Sign} {op : Sign} :
      op ∈ Sign.connectives → Arranged .chain xs → Arranged .operand ys → Arranged .chain (xs ++ op :: ys)

/-- A connective between two chains. -/
theorem Arranged.join {p : Part} {ys : List Sign} (h : Arranged p ys) {xs : List Sign} {op : Sign} (hop : op ∈ Sign.connectives)
    (hx : Arranged .chain xs) : Arranged .chain (xs ++ op :: ys) := by
  induction h with
  | ofOperand _ ih => exact ih
  | @link ys zs op' hop' _ hz ih _ =>
    rw [← List.cons_append, ← List.append_assoc]
    exact .link hop' ih hz
  | letter x => exact .link hop hx (.letter x)
  | constant b => exact .link hop hx (.constant b)
  | not h _ => exact .link hop hx (.not h)
  | group h _ => exact .link hop hx (.group h)
  | overline h _ => exact .link hop hx (.overline h)

/-- Whatever is arranged is a chain. -/
theorem Arranged.chain {p : Part} {xs : List Sign} (h : Arranged p xs) : Arranged .chain xs := by
  cases p with
  | chain => exact h
  | operand => exact .ofOperand h

/-- An arrangement has a sign. -/
theorem Arranged.ne_nil {p : Part} {xs : List Sign} (h : Arranged p xs) : xs ≠ [] := by
  induction h with
  | ofOperand _ ih => exact ih
  | _ => simp

/-- The nonterminal of an arrangement that a nonterminal of the grammar is. -/
def Level.part : Level → Part
  | .operand => .operand
  | _ => .chain

/-- What the grammar derives is arranged. -/
theorem Derives.arranged {l : Level} {xs : List Sign} {t : Sentence} (h : Derives l xs t) : Arranged l.part xs := by
  induction h with
  | letter x => exact .letter x
  | constant b => exact .constant b
  | not _ ih => exact .not ih
  | group _ ih => exact .group ih
  | overline _ ih => exact .overline ih
  | ofOperand _ ih => exact .ofOperand ih
  | ofConjunction _ ih | ofDisjunction _ ih | ofImplication _ ih => exact ih
  | and _ _ ih₁ ih₂ => exact ih₂.join (by decide) ih₁
  | or _ _ ih₁ ih₂ => exact ih₂.join (by decide) ih₁
  | arrow _ _ ih₁ ih₂ => exact ih₂.join (by decide) ih₁.chain
  | iff _ _ ih₁ ih₂ => exact ih₂.join (by decide) ih₁

/-! ## Spellings -/

/-- The texts that spell a sign. -/
def Sign.spellings : Sign → List (List Char)
  | letter x => [[x.1]]
  | constant false => ["0", "\\bot", "⊥"].map String.toList
  | constant true => ["1", "\\top", "⊤"].map String.toList
  | not => ["!", "~", "¬", "\\neg", "\\lnot", "\\sim"].map String.toList
  | and => ["&", "\\land", "\\wedge", "∧"].map String.toList
  | or => ["|", "\\lor", "\\vee", "∨"].map String.toList
  | arrow => ["->", "=>", "→", "⇒"].map String.toList ++ Lexeme.arrowMacros.map fun name => '\\' :: name.toList
  | iff => ["==", "<->", "<=>", "↔", "⇔", "\\leftrightarrow", "\\Leftrightarrow", "\\iff", "\\equiv"].map String.toList
  | lparen => [['(']]
  | rparen => [[')']]
  | overline => ["\\overline".toList]
  | lbrace => [['{']]
  | rbrace => [['}']]

/-- The signs that are no letters. -/
def Sign.fixed : List Sign :=
  [.constant false, .constant true, .not, .and, .or, .arrow, .iff, .lparen, .rparen, .overline, .lbrace, .rbrace]

/-- What holds of a capital letter and of the spellings of the other signs, which are a table, holds of all spellings. -/
theorem Sign.of_mem_spellings {P : List Char → Prop} (hletter : ∀ x : Variable, P [x.1])
    (hfixed : ∀ x ∈ Sign.fixed, ∀ p ∈ x.spellings, P p) {x : Sign} {p : List Char} (hp : p ∈ x.spellings) : P p := by
  cases x with
  | letter x =>
    obtain rfl : p = [x.1] := by simpa [spellings] using hp
    exact hletter x
  | constant b => exact hfixed (.constant b) (by cases b <;> decide) p hp
  | _ => exact hfixed _ (by decide) p hp

/-- A spelling ends in a character that is no blank, and holds none. -/
theorem Sign.exists_eq_append_of_mem_spellings {x : Sign} {p : List Char} (hp : p ∈ x.spellings) : ∃ w c, p = w ++ [c] := by
  have hne : p ≠ [] := Sign.of_mem_spellings (P := (· ≠ [])) (fun x => by simp) (by decide) hp
  exact ⟨p.dropLast, p.getLast hne, (List.dropLast_concat_getLast hne).symm⟩

/-- No spelling has a blank in it. -/
theorem Sign.isBlank_of_mem_spellings {x : Sign} {p : List Char} (hp : p ∈ x.spellings) : ∀ c ∈ p, isBlank c = false := by
  refine Sign.of_mem_spellings (P := fun p => ∀ c ∈ p, isBlank c = false) (fun x => ?_) (by decide) hp
  simpa using isBlank_eq_false_of_isAlphanum (isAlphanum_of_isUpper x.2)

/-- A letter spells no other sign than itself. -/
theorem Sign.eq_letter_of_mem_spellings {x : Variable} {y : Sign} (h : [x.1] ∈ y.spellings) : y = .letter x := by
  have hnone : ∀ ps : List (List Char), ps.all (fun p => 1 < p.length || p.all fun c => !c.isUpper) → [x.1] ∉ ps := by
    intro ps hps hx
    have := List.all_eq_true.mp hps _ hx
    simp [x.2] at this
  cases y with
  | letter y =>
    obtain h : x.1 = y.1 := by simpa [spellings] using h
    rw [Subtype.ext h]
  | constant b => cases b <;> exact absurd h (hnone _ (by decide))
  | _ => exact absurd h (hnone _ (by decide))

/-- A text that starts with a letter, which would go on with the name of a macro before it. -/
def StartsWithLetter (s : List Char) : Prop := ∃ c, s.head? = some c ∧ c.isAlpha

/-- A text whose first character is no letter does not start with one. -/
theorem not_startsWithLetter_cons {c : Char} (h : c.isAlpha = false) (s : List Char) : ¬StartsWithLetter (c :: s) := by
  rintro ⟨d, hd, ha⟩
  obtain rfl : c = d := by simpa using hd
  rw [h] at ha
  cases ha

theorem not_startsWithLetter_nil : ¬StartsWithLetter [] := by
  rintro ⟨d, hd, -⟩
  cases hd

/-- The spelling is a macro. -/
def IsMacro (p : List Char) : Prop := p.head? = some '\\'

instance (p : List Char) : Decidable (IsMacro p) := inferInstanceAs (Decidable (p.head? = some '\\'))

/-- A text writes signs with the spellings allowed for each, before the text `rest`. -/
inductive Written (spell : Sign → List (List Char)) (rest : List Char) : List Sign → List Char → Prop where
  | nil : Written spell rest [] []
  | blank {xs : List Sign} {s : List Char} {c : Char} : isBlank c → Written spell rest xs s → Written spell rest xs (c :: s)
  | sign {xs : List Sign} {s : List Char} {x : Sign} {p : List Char} : p ∈ spell x →
      (IsMacro p → ¬StartsWithLetter (s ++ rest)) → Written spell rest xs s → Written spell rest (x :: xs) (p ++ s)

section Written

variable {spell : Sign → List (List Char)}

/-- A spelling that is no macro may stand before any text. -/
theorem Written.plain {rest : List Char} {xs : List Sign} {s : List Char} {x : Sign} {p : List Char} (hp : p ∈ spell x)
    (hm : ¬IsMacro p) (h : Written spell rest xs s) : Written spell rest (x :: xs) (p ++ s) :=
  .sign hp (fun hmac => absurd hmac hm) h

/-- More spellings may be allowed. -/
theorem Written.mono {spell' : Sign → List (List Char)} (hsub : ∀ x, spell x ⊆ spell' x) {rest : List Char} {xs : List Sign}
    {s : List Char} (h : Written spell rest xs s) : Written spell' rest xs s := by
  induction h with
  | nil => exact .nil
  | blank hc _ ih => exact .blank hc ih
  | sign hp hm _ ih => exact .sign (hsub _ hp) hm ih

/-- The text behind may change, if it does not come to start with a letter. -/
theorem Written.weaken {rest rest' : List Char} (hr : StartsWithLetter rest' → StartsWithLetter rest) {xs : List Sign}
    {s : List Char} (h : Written spell rest xs s) : Written spell rest' xs s := by
  induction h with
  | nil => exact .nil
  | blank hc _ ih => exact .blank hc ih
  | @sign xs s x p hp hm _ ih =>
    refine .sign hp (fun hmac hl => hm hmac ?_) ih
    cases s with
    | nil => exact hr hl
    | cons c s => exact hl

/-- A text is taken apart where its signs are. -/
theorem written_append {xs ys : List Sign} {s rest : List Char} :
    Written spell rest (xs ++ ys) s ↔
      ∃ s₁ s₂, s = s₁ ++ s₂ ∧ Written spell (s₂ ++ rest) xs s₁ ∧ Written spell rest ys s₂ := by
  constructor
  · intro h
    generalize hzs : xs ++ ys = zs at h
    induction h generalizing xs with
    | nil =>
      obtain ⟨rfl, rfl⟩ := List.append_eq_nil_iff.mp hzs
      exact ⟨[], [], rfl, .nil, .nil⟩
    | @blank zs s c hc _ ih =>
      obtain ⟨s₁, s₂, rfl, h₁, h₂⟩ := ih hzs
      exact ⟨c :: s₁, s₂, rfl, .blank hc h₁, h₂⟩
    | @sign zs s x p hp hm hs ih =>
      rcases List.append_eq_cons_iff.mp hzs with ⟨rfl, rfl⟩ | ⟨xs', rfl, rfl⟩
      · exact ⟨[], p ++ s, rfl, .nil, .sign hp hm hs⟩
      · obtain ⟨s₁, s₂, rfl, h₁, h₂⟩ := ih rfl
        refine ⟨p ++ s₁, s₂, (List.append_assoc _ _ _).symm, .sign hp (fun hmac => ?_) h₁, h₂⟩
        rw [← List.append_assoc]
        exact hm hmac
  · rintro ⟨s₁, s₂, rfl, h₁, h₂⟩
    induction h₁ with
    | nil => exact h₂
    | blank hc _ ih => exact .blank hc ih
    | @sign xs s x p hp hm _ ih =>
      rw [List.append_assoc]
      refine .sign hp (fun hmac => ?_) ih
      rw [List.append_assoc]
      exact hm hmac

/-- A text that writes no signs is blank. -/
theorem Written.isBlank_of_nil {s rest : List Char} (h : Written spell rest [] s) : ∀ c ∈ s, isBlank c := by
  generalize hxs : ([] : List Sign) = xs at h
  induction h with
  | nil => simp
  | blank hc _ ih => exact List.forall_mem_cons.mpr ⟨hc, ih hxs⟩
  | sign _ _ _ _ => cases hxs

/-- Blanks may be written before a text. -/
theorem Written.blanks {w : List Char} (hw : ∀ c ∈ w, isBlank c) {xs : List Sign} {s rest : List Char}
    (h : Written spell rest xs s) : Written spell rest xs (w ++ s) := by
  induction w with
  | nil => exact h
  | cons c w ih => exact .blank (hw c List.mem_cons_self) (ih fun d hd => hw d (List.mem_cons_of_mem c hd))

/-- Blanks may be written behind a text. -/
theorem Written.append_blanks {w : List Char} (hw : ∀ c ∈ w, isBlank c) {xs : List Sign} {s rest : List Char}
    (h : Written spell (w ++ rest) xs s) : Written spell rest xs (s ++ w) := by
  have hnil : Written spell rest [] w := by
    simpa using Written.blanks hw (.nil : Written spell rest [] [])
  have happend : Written spell rest (xs ++ []) (s ++ w) := written_append.mpr ⟨s, w, rfl, h, hnil⟩
  rwa [List.append_nil] at happend

/-- The first sign of a text stands behind blanks. -/
theorem written_cons {x : Sign} {xs : List Sign} {s rest : List Char} :
    Written spell rest (x :: xs) s ↔ ∃ w p s', s = w ++ (p ++ s') ∧ (∀ c ∈ w, isBlank c) ∧ p ∈ spell x ∧
      (IsMacro p → ¬StartsWithLetter (s' ++ rest)) ∧ Written spell rest xs s' := by
  constructor
  · intro h
    generalize hys : x :: xs = ys at h
    induction h with
    | nil => cases hys
    | @blank ys s c hc _ ih =>
      obtain ⟨w, p, s', rfl, hw, h⟩ := ih hys
      exact ⟨c :: w, p, s', rfl, List.forall_mem_cons.mpr ⟨hc, hw⟩, h⟩
    | @sign ys s y p hp hm hs _ =>
      obtain ⟨rfl, rfl⟩ := List.cons.inj hys
      exact ⟨[], p, s, rfl, by simp, hp, hm, hs⟩
  · rintro ⟨w, p, s', rfl, hw, hp, hm, h⟩
    exact .blanks hw (.sign hp hm h)

variable (hspell : ∀ x, spell x ⊆ x.spellings)

include hspell

/-- The blanks before a text may be left out. -/
theorem Written.dropWhile {xs : List Sign} {s rest : List Char} (h : Written spell rest xs s) :
    Written spell rest xs (s.dropWhile isBlank) := by
  induction h with
  | nil => exact .nil
  | @blank xs s c hc _ ih => simpa [hc] using ih
  | @sign xs s x p hp hm hs _ =>
    have hne : (p ++ s).dropWhile isBlank = p ++ s := by
      obtain ⟨w, c, hwc⟩ := Sign.exists_eq_append_of_mem_spellings (hspell x hp)
      cases hpc : p with
      | nil => simp [hpc] at hwc
      | cons d r => simp [Sign.isBlank_of_mem_spellings (hspell x hp) d (by simp [hpc])]
    rw [hne]
    exact .sign hp hm hs

/-- Blanks before a text write nothing. -/
theorem Written.of_blanks {w : List Char} (hw : ∀ c ∈ w, isBlank c) {xs : List Sign} {s rest : List Char}
    (h : Written spell rest xs (w ++ s)) : Written spell rest xs s := by
  have hdrop := h.dropWhile hspell
  rw [List.dropWhile_append_of_pos hw] at hdrop
  rw [← List.takeWhile_append_dropWhile (p := isBlank) (l := s)]
  exact hdrop.blanks fun c hc => List.mem_takeWhile_imp hc

/-- The blanks behind a text may be left out where no letter follows. -/
theorem Written.trimEnd {rest : List Char} (hr : ¬StartsWithLetter rest) {xs : List Sign} {s : List Char}
    (h : Written spell rest xs s) : Written spell rest xs (Text.trimEnd s) := by
  induction h with
  | nil => exact .nil
  | @blank xs s c hc _ ih =>
    rw [trimEnd_cons]
    split
    · rename_i he
      exact he.1 ▸ ih
    · exact .blank hc ih
  | @sign xs s x p hp hm _ ih =>
    obtain ⟨w, c, hwc⟩ := Sign.exists_eq_append_of_mem_spellings (hspell x hp)
    have hcut : Text.trimEnd (p ++ s) = p ++ Text.trimEnd s := by
      rw [hwc, List.append_assoc, List.singleton_append,
        trimEnd_append (Sign.isBlank_of_mem_spellings (hspell x hp) c (by simp [hwc]))]
      simp
    rw [hcut]
    refine .sign hp (fun hmac hl => ?_) ih
    cases ht : Text.trimEnd s with
    | nil =>
      rw [ht] at hl
      exact hr hl
    | cons d r =>
      obtain ⟨e, he, ha⟩ := hl
      obtain rfl : d = e := by simpa [ht] using he
      have hhead := head?_of_head?_trimEnd (c := d) (s := s) (by simp [ht])
      exact hm hmac ⟨d, by rw [List.head?_append, hhead]; rfl, ha⟩

/-- The blanks around a text may be left out where no letter follows. -/
theorem Written.trim {rest : List Char} (hr : ¬StartsWithLetter rest) {xs : List Sign} {s : List Char}
    (h : Written spell rest xs s) : Written spell rest xs (Text.trim s) :=
  (h.dropWhile hspell).trimEnd hspell hr

end Written

/-- The empty text writes no sign. -/
theorem eq_nil_of_written_nil {rest : List Char} {xs : List Sign} (h : Written Sign.spellings rest xs []) : xs = [] := by
  cases xs with
  | nil => rfl
  | cons x xs =>
    obtain ⟨w, p, s, hs, -, hp, -, -⟩ := written_cons.mp h
    obtain ⟨v, c, hvc⟩ := Sign.exists_eq_append_of_mem_spellings hp
    simp [hvc] at hs

/-- A letter alone is written by itself. The letter is no blank, so it is a spelling, and nothing stands behind it. -/
theorem eq_letter_of_written {rest : List Char} {xs : List Sign} {x : Variable}
    (h : Written Sign.spellings rest xs [x.1]) : xs = [.letter x] := by
  cases xs with
  | nil =>
    have := h.isBlank_of_nil x.1 (by simp)
    rw [isBlank_eq_false_of_isAlphanum (isAlphanum_of_isUpper x.2)] at this
    cases this
  | cons y ys =>
    obtain ⟨w, p, s, hs, hw, hp, -, hys⟩ := written_cons.mp h
    obtain ⟨v, c, hvc⟩ := Sign.exists_eq_append_of_mem_spellings hp
    obtain ⟨rfl, rfl, rfl⟩ : w = [] ∧ p = [x.1] ∧ s = [] := by
      cases w with
      | nil =>
        rcases List.cons_eq_append_iff.mp (hs.trans (List.nil_append _)) with ⟨hpn, -⟩ | ⟨q, hpq, hq⟩
        · simp [hvc] at hpn
        · obtain ⟨rfl, rfl⟩ := List.nil_eq_append_iff.mp hq
          exact ⟨rfl, hpq, rfl⟩
      | cons d w =>
        obtain rfl : x.1 = d := (List.cons.inj hs).1
        have := hw x.1 List.mem_cons_self
        rw [isBlank_eq_false_of_isAlphanum (isAlphanum_of_isUpper x.2)] at this
        cases this
    rw [Sign.eq_letter_of_mem_spellings hp, eq_nil_of_written_nil hys]

end Propositional.Latex
