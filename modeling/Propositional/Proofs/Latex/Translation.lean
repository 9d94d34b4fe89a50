import Propositional.Proofs.Latex.Acceptance
import Propositional.Proofs.Latex.Complement
import Propositional.Proofs.Latex.NativeText

/-!
# The translation of LaTeX formulas

A text of the LaTeX notation is translated without a diagnostic, and the native formula has the truth value of what the text says,
with an arrow as a material implication and an overline as a negation (`normalize_correct`).

The text goes through three passes: overlines, spellings and lexemes, and each gives a writing of the same formula
(`lexemes_of_derives`). The lexemes are then read nonterminal by nonterminal, arrows included. What a nonterminal leaves in the
state of the reader depends on how much of the group it fills: an operand leaves negations and an operand, a conjunction what
`conjoin` makes a conjunction, a disjunction and an implication what `disjoin` puts behind the disjunction before it, and a
formula what `close` makes the whole group (`ReadAs`).
-/

namespace Propositional.Latex

open Text

/-- The lexemes of a text of the LaTeX notation are those of signs without overlines that say the same. -/
theorem lexemes_of_derives {xs : List Sign} {t : Sentence} (h : Derives .formula xs t) {s : String}
    (hs : Written Sign.spellings [] xs s.toList) : ∃ ys, PlainForm .formula xs t ys ∧ lexemes s = ys.map Sign.lexeme := by
  obtain ⟨ys, hys, hover⟩ := replaceOverlines_written h hs
  obtain ⟨u, hu, -⟩ := hys.derives
  exact ⟨ys, hys, hu.arranged.lexemes_eq hover⟩

/-! ## Reading by nonterminals -/

/-- The values respect the constants. -/
def Respects (val : Char → Bool) : Prop := val '0' = false ∧ val '1' = true

/-- The formula has the truth value of the sentence, whatever the variables stand for. -/
def Means (f : Formula Char) (t : Sentence) : Prop := ∀ val, Respects val → f.eval val = t.eval val

/-- What the signs of a nonterminal are read as. -/
def ReadAs (xs : List Sign) (t : Sentence) : Level → Prop
  | .operand => ∀ gs g, ∃ k f,
      (⟨gs, g, none⟩ : Reading Char).through (xs.map Sign.lexeme) = some ⟨gs, { g with negations := g.negations + k }, some f⟩ ∧
        Means (f.negate k) t
  | .conjunction => ∀ gs g, g.conjunction = none → g.negations = 0 → ∃ g' f,
      (⟨gs, g, none⟩ : Reading Char).through (xs.map Sign.lexeme) = some ⟨gs, g', some f⟩ ∧
        g'.equivalence = g.equivalence ∧ g'.disjunction = g.disjunction ∧ Means (g'.conjoin f) t
  | .disjunction | .implication => ∀ gs g, g.conjunction = none → g.negations = 0 → ∃ g' f,
      (⟨gs, g, none⟩ : Reading Char).through (xs.map Sign.lexeme) = some ⟨gs, g', some f⟩ ∧
        g'.equivalence = g.equivalence ∧
        ∀ val, Respects val → (g'.disjoin f).eval val = (g.disjunction.any (·.eval val) || t.eval val)
  | .formula => ∀ gs, ∃ g' f,
      (⟨gs, {}, none⟩ : Reading Char).through (xs.map Sign.lexeme) = some ⟨gs, g', some f⟩ ∧ Means (g'.close f) t

/-- The reader goes through appended signs one part after the other. -/
theorem through_signs_append {r r' : Reading Char} {xs ys : List Sign} (h : r.through (xs.map Sign.lexeme) = some r') :
    r.through ((xs ++ ys).map Sign.lexeme) = r'.through (ys.map Sign.lexeme) := by
  rw [List.map_append, Reading.through_append, h, Option.bind_some]

/-- The first of some signs leads on to the rest. -/
theorem through_signs_cons {r r' : Reading Char} {x : Sign} {ys : List Sign} (h : r.take x.lexeme = some r') :
    r.through ((x :: ys).map Sign.lexeme) = r'.through (ys.map Sign.lexeme) := by
  rw [List.map_cons, Reading.through_cons, h, Option.bind_some]

namespace ReadAs

variable {xs ys : List Sign} {t u : Sentence}

/-- A negation and an operand are read as the negated operand. -/
theorem not (h : ReadAs xs t .operand) : ReadAs (.not :: xs) (.not t) .operand := by
  intro gs g
  obtain ⟨k, f, hrun, hmean⟩ := h gs { g with negations := g.negations + 1 }
  refine ⟨k + 1, f, ?_, fun val hval => ?_⟩
  · rw [through_signs_cons (Reading.take_not gs g), hrun]
    simp [Nat.add_assoc, Nat.add_comm 1]
  · rw [Formula.negate, Formula.eval, Sentence.eval, hmean val hval]

/-- A formula in parentheses is read as an operand. -/
theorem group (h : ReadAs xs t .formula) : ReadAs (.lparen :: (xs ++ [.rparen])) t .operand := by
  intro gs g
  obtain ⟨g', f, hrun, hmean⟩ := h (g :: gs)
  refine ⟨0, g'.close f, ?_, hmean⟩
  rw [through_signs_cons (Reading.take_lparen gs g), through_signs_append hrun,
    through_signs_cons (Reading.take_rparen gs g' f g)]
  rfl

/-- An operand is read as a conjunction. -/
theorem ofOperand (h : ReadAs xs t .operand) : ReadAs xs t .conjunction := by
  intro gs g hconj hneg
  obtain ⟨k, f, hrun, hmean⟩ := h gs g
  refine ⟨_, f, hrun, rfl, rfl, fun val hval => ?_⟩
  rw [← hmean val hval]
  simp [Pending.conjoin, Pending.unary, hconj, hneg]

/-- A conjunction and an operand are read as a conjunction. -/
theorem and (h₁ : ReadAs xs t .conjunction) (h₂ : ReadAs ys u .operand) :
    ReadAs (xs ++ .and :: ys) (.and t u) .conjunction := by
  intro gs g hconj hneg
  obtain ⟨g', f, hrun₁, heq, hdis, hmean₁⟩ := h₁ gs g hconj hneg
  have hand : (⟨gs, g', some f⟩ : Reading Char).take Sign.and.lexeme =
      some ⟨gs, { g' with conjunction := some (g'.conjoin f), negations := 0 }, none⟩ := rfl
  obtain ⟨k, f', hrun₂, hmean₂⟩ := h₂ gs { g' with conjunction := some (g'.conjoin f), negations := 0 }
  refine ⟨{ g' with conjunction := some (g'.conjoin f), negations := 0 + k }, f', ?_, heq, hdis, fun val hval => ?_⟩
  · rw [through_signs_append hrun₁, through_signs_cons hand, hrun₂]
  · simp [Pending.conjoin, Pending.unary, Formula.eval, Connective.apply, Sentence.eval, ← hmean₁ val hval, ← hmean₂ val hval]

/-- A conjunction is read as a disjunction. -/
theorem ofConjunction (h : ReadAs xs t .conjunction) : ReadAs xs t .disjunction := by
  intro gs g hconj hneg
  obtain ⟨g', f, hrun, heq, hdis, hmean⟩ := h gs g hconj hneg
  exact ⟨g', f, hrun, heq, fun val hval => by rw [Pending.eval_disjoin, hdis, hmean val hval]⟩

/-- A disjunction and a conjunction are read as a disjunction. -/
theorem or (h₁ : ReadAs xs t .disjunction) (h₂ : ReadAs ys u .conjunction) :
    ReadAs (xs ++ .or :: ys) (.or t u) .disjunction := by
  intro gs g hconj hneg
  obtain ⟨g', f, hrun₁, heq, hmean₁⟩ := h₁ gs g hconj hneg
  obtain ⟨g'', f', hrun₂, heq', hdis, hmean₂⟩ :=
    h₂ gs { equivalence := g'.equivalence, disjunction := some (g'.disjoin f) } rfl rfl
  refine ⟨g'', f', ?_, heq'.trans heq, fun val hval => ?_⟩
  · rw [through_signs_append hrun₁, through_signs_cons (Reading.take_or gs g' f), hrun₂]
  · rw [Pending.eval_disjoin, hdis, hmean₂ val hval, Sentence.eval, Option.any_some, hmean₁ val hval, Bool.or_assoc]

/-- An arrow puts the negation of its left operand into the disjunction that its right side goes on with. -/
theorem arrow (h₁ : ReadAs xs t .operand) (h₂ : ReadAs ys u .implication) :
    ReadAs (xs ++ .arrow :: ys) (.implies t u) .implication := by
  intro gs g hconj hneg
  obtain ⟨k, f, hrun₁, hmean₁⟩ := h₁ gs g
  obtain ⟨d, harrow, hd⟩ : ∃ d : Formula Char,
      (⟨gs, { g with negations := g.negations + k }, some f⟩ : Reading Char).take Sign.arrow.lexeme =
          some ⟨gs, { equivalence := g.equivalence, disjunction := some d }, none⟩ ∧
        ∀ val, Respects val → d.eval val = (g.disjunction.any (·.eval val) || !t.eval val) := by
    refine ⟨Pending.disjoin { g with negations := g.negations + k + 1 } f, rfl, fun val hval => ?_⟩
    rw [Pending.eval_disjoin, ← hmean₁ val hval]
    simp [Pending.conjoin, Pending.unary, hconj, hneg, Formula.negate, Formula.eval]
  obtain ⟨g', f', hrun₂, heq, hmean₂⟩ := h₂ gs { equivalence := g.equivalence, disjunction := some d } rfl rfl
  refine ⟨g', f', ?_, heq, fun val hval => ?_⟩
  · rw [through_signs_append hrun₁, through_signs_cons harrow, hrun₂]
  · rw [hmean₂ val hval, Option.any_some, hd val hval, Sentence.eval, Bool.or_assoc]

/-- An implication is read as a formula. -/
theorem ofImplication (h : ReadAs xs t .implication) : ReadAs xs t .formula := by
  intro gs
  obtain ⟨g', f, hrun, heq, hmean⟩ := h gs {} rfl rfl
  refine ⟨g', f, hrun, fun val hval => ?_⟩
  have hclose : g'.close f = g'.disjoin f := by
    unfold Pending.close
    rw [heq]
  rw [hclose, hmean val hval]
  rfl

/-- A formula and an implication are read as an equivalence. -/
theorem iff (h₁ : ReadAs xs t .formula) (h₂ : ReadAs ys u .implication) : ReadAs (xs ++ .iff :: ys) (.iff t u) .formula := by
  intro gs
  obtain ⟨g', f, hrun₁, hmean₁⟩ := h₁ gs
  have hiff : (⟨gs, g', some f⟩ : Reading Char).take Sign.iff.lexeme =
      some ⟨gs, { equivalence := some (.equiv, g'.close f) }, none⟩ := rfl
  obtain ⟨g'', f', hrun₂, heq, hmean₂⟩ := h₂ gs { equivalence := some (.equiv, g'.close f) } rfl rfl
  refine ⟨g'', f', ?_, fun val hval => ?_⟩
  · rw [through_signs_append hrun₁, through_signs_cons hiff, hrun₂]
  · have hclose : g''.close f' = .binary .equiv (g'.close f) (g''.disjoin f') := by
      rw [Pending.close, heq]
    rw [hclose, Formula.eval, hmean₁ val hval, hmean₂ val hval]
    rfl

end ReadAs

/-- Signs without overlines are read as what they say. -/
theorem Derives.readAs {l : Level} {xs : List Sign} {t : Sentence} (h : Derives l xs t) (hx : ∀ x ∈ xs, x.IsPlain) :
    ReadAs xs t l := by
  induction h with
  | letter x => exact fun gs g => ⟨0, .leaf x.1, rfl, fun val _ => rfl⟩
  | constant b =>
    refine fun gs g => ⟨0, .leaf (bit b), rfl, fun val hval => ?_⟩
    cases b
    · exact hval.1
    · exact hval.2
  | not _ ih => exact (ih fun x hm => hx x (by simp [hm])).not
  | group _ ih => exact (ih fun x hm => hx x (by simp [hm])).group
  | overline _ _ => exact absurd (hx .overline (by simp)) id
  | ofOperand _ ih => exact (ih hx).ofOperand
  | and _ _ ih₁ ih₂ => exact (ih₁ fun x hm => hx x (by simp [hm])).and (ih₂ fun x hm => hx x (by simp [hm]))
  | ofConjunction _ ih => exact (ih hx).ofConjunction
  | or _ _ ih₁ ih₂ => exact (ih₁ fun x hm => hx x (by simp [hm])).or (ih₂ fun x hm => hx x (by simp [hm]))
  | ofDisjunction _ ih => exact ih hx
  | arrow _ _ ih₁ ih₂ => exact (ih₁ fun x hm => hx x (by simp [hm])).arrow (ih₂ fun x hm => hx x (by simp [hm]))
  | ofImplication _ ih => exact (ih hx).ofImplication
  | iff _ _ ih₁ ih₂ => exact (ih₁ fun x hm => hx x (by simp [hm])).iff (ih₂ fun x hm => hx x (by simp [hm]))

/-! ## The translation -/

/-- A letter has the truth value that it is given. -/
theorem Valuation.truth_eq_value {v : Valuation Char} {c : Char} (hc : c.isUpper) : v.truth c = v.value c := by
  unfold Valuation.truth Valuation.value
  cases hl : v.lookup c with
  | some b =>
    rw [Valuation.write_eq_of_lookup hl]
    cases b <;> rfl
  | none =>
    rw [Valuation.write_eq_self hl]
    simpa using ne_of_holds hc (by decide)

/-- A sentence has the truth value that the values of its variables give it. -/
theorem Sentence.eval_congr {val val' : Char → Bool} (h : ∀ x : Variable, val x.1 = val' x.1) (t : Sentence) :
    t.eval val = t.eval val' := by
  induction t with
  | letter x => exact h x
  | constant b => rfl
  | not t ih | overline t ih => rw [eval, eval, ih]
  | and t u iht ihu | or t u iht ihu | implies t u iht ihu | iff t u iht ihu => rw [eval, eval, iht, ihu]

/-- Every text of the LaTeX notation is translated without a diagnostic, strict or not, and under any values for its variables the
native formula has the truth value of what the text says. By induction on the sentence, its signs are read as a formula that means
it. -/
theorem normalize_correct (strict : Bool) {xs : List Sign} {t : Sentence} (h : Derives .formula xs t) {s : String}
    (hs : Written Sign.spellings [] xs s.toList) : ∃ n, normalize strict s = .ok n ∧ n.diagnostics = [] ∧
      ∀ v : Valuation Char, v.OfLetters → (∀ x, .letter x ∈ xs → (v.lookup x.1).isSome) →
        evaluateLetters n.formula v = .ok (t.eval v.value) := by
  obtain ⟨ys, ⟨⟨u, hu, heval⟩, hplain, hletters⟩, hlex⟩ := lexemes_of_derives h hs
  obtain ⟨g, f, hrun, hmean⟩ := hu.readAs hplain []
  rw [← hlex] at hrun
  obtain ⟨e, he⟩ : ∃ e, eliminate strict (lexemes s) = .ok e := exists_eliminateFrom_of_through hrun
  have hn : normalize strict s = .ok ⟨String.ofList (Lexeme.render e.lexemes), e.degraded⟩ := normalize_eq_ok_iff.mpr ⟨e, he, rfl⟩
  refine ⟨_, hn, degraded_eq_nil_of_through he ((through_eliminate he).trans hrun), fun v hv hval => ?_⟩
  refine (evaluateLetters_normalize_eq_ok_iff hn hv).mpr ⟨_, _, hrun, rfl, fun c hc => ?_, ?_⟩
  · rw [hlex] at hc
    obtain ⟨y, hy, hyc⟩ := List.mem_map.mp hc
    cases y <;> cases hyc
    · exact fun _ => hval _ (hletters _ hy)
    · rename_i b
      cases b <;> exact fun hu => absurd hu (by decide)
  · have hrespects : Respects v.truth := by
      constructor <;> unfold Valuation.truth <;> rw [hv.write_eq_self (by decide)] <;> rfl
    rw [hmean v.truth hrespects, heval]
    exact Sentence.eval_congr (fun x => Valuation.truth_eq_value x.2) t

/-- `\overline{A} \to(\neg B => 0)` is false where neither `A` nor `B` is true. -/
theorem normalize_correct_overline : ∃ n, normalize true "\\overline\x7bA\x7d \\to(\\neg B => 0)" = .ok n ∧ n.diagnostics = [] ∧
    evaluateLetters n.formula [('A', false), ('B', false)] = .ok false := by
  have h : Derives .formula
      [.overline, .lbrace, .letter ⟨'A', rfl⟩, .rbrace, .arrow,
        .lparen, .not, .letter ⟨'B', rfl⟩, .arrow, .constant false, .rparen]
      (.implies (.overline (.letter ⟨'A', rfl⟩)) (.implies (.not (.letter ⟨'B', rfl⟩)) (.constant false))) := by
    have raise : ∀ {xs t}, Derives .operand xs t → Derives .implication xs t := fun h =>
      .ofDisjunction (.ofConjunction (.ofOperand h))
    have hleft := Derives.overline (.ofImplication (raise (.letter ⟨'A', rfl⟩)))
    have hright := Derives.arrow (.not (.letter ⟨'B', rfl⟩)) (raise (.constant false))
    exact .ofImplication (.arrow hleft (raise (.group (.ofImplication hright))))
  have hs : Written Sign.spellings []
      [.overline, .lbrace, .letter ⟨'A', rfl⟩, .rbrace, .arrow,
        .lparen, .not, .letter ⟨'B', rfl⟩, .arrow, .constant false, .rparen]
      "\\overline\x7bA\x7d \\to(\\neg B => 0)".toList := by
    have htext : "\\overline\x7bA\x7d \\to(\\neg B => 0)".toList =
        "\\overline".toList ++ (['{'] ++ (['A'] ++ (['}'] ++ (' ' :: ("\\to".toList ++ (['('] ++ ("\\neg".toList ++ (' ' ::
          (['B'] ++ (' ' :: (['=', '>'] ++ (' ' :: (['0'] ++ ([')'] ++ [])))))))))))))) := by decide
    have plain : ∀ {p s}, p.head? ≠ some '\\' → IsMacro p → ¬StartsWithLetter s := fun hp hm => absurd hm hp
    rw [htext]
    refine .sign (by decide) (fun _ => not_startsWithLetter_cons (by decide) _) ?_
    refine .sign (by decide) (plain (by decide)) (.sign (by decide) (plain (by decide)) ?_)
    refine .sign (by decide) (plain (by decide)) ?_
    refine .blank (by decide) (.sign (by decide) (fun _ => not_startsWithLetter_cons (by decide) _) ?_)
    refine .sign (by decide) (plain (by decide)) (.sign (by decide) (fun _ => not_startsWithLetter_cons (by decide) _) ?_)
    refine .blank (by decide) (.sign (by decide) (plain (by decide)) ?_)
    refine .blank (by decide) (.sign (by decide) (plain (by decide)) ?_)
    exact .blank (by decide) (.sign (by decide) (plain (by decide)) (.sign (by decide) (plain (by decide)) .nil))
  obtain ⟨n, hn, hd, hv⟩ := normalize_correct true h hs
  refine ⟨n, hn, hd, ?_⟩
  rw [hv [('A', false), ('B', false)] (by simp [Valuation.OfLetters]) (by simp)]
  rfl

end Propositional.Latex
