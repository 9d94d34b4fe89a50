import Propositional.Proofs.Latex.Elimination
import Propositional.Proofs.Latex.Rendering

/-!
# What a value says about the text

A formula that is normalized without the demand for strictness always has a native notation, which may stand for garbage. It has
a value only if nothing was lost on the way: no arrow became a plain `|`, and the text was cut into nothing but native lexemes and
arrows (`native_of_evaluateLetters_normalize`).
-/

namespace Propositional.Latex

/-- A lexeme of the native notation: a letter, `0`, `1`, a parenthesis or a connective. -/
def Lexeme.IsNative : Lexeme → Prop
  | atom c => c.isUpper ∨ c = '0' ∨ c = '1'
  | not | and | or | equiv | xor | lparen | rparen => True
  | arrow | other _ => False

/-- A lexeme of a text that writes a token is native. -/
theorem Lexeme.isNative_of_token? {t : Lexeme} (ht : t.FromText) (h : t.token? ≠ none) : t.IsNative := by
  cases t with
  | atom c => simpa [FromText, isAtom, or_assoc, IsNative] using ht
  | arrow | other s => exact absurd rfl h
  | _ => exact trivial

/-- A native lexeme or an arrow comes from some text. -/
theorem Lexeme.fromText_of_isNative {t : Lexeme} (h : t.IsNative ∨ t = .arrow) : t.FromText := by
  rcases h with h | rfl
  · cases t with
    | atom c => simpa [FromText, isAtom, or_assoc, IsNative] using h
    | other s => exact h.elim
    | _ => exact trivial
  · exact trivial

/-- The elimination writes no lexeme of another kind than those that texts are cut into. -/
theorem fromText_of_mem_eliminate {strict : Bool} {ts : List Lexeme} (hf : ∀ t ∈ ts, t.FromText) {e : Elimination}
    (h : eliminate strict ts = .ok e) {t : Lexeme} (ht : t ∈ e.lexemes) : t.FromText := by
  rcases (mem_eliminate h).2 ht with ht | ht
  · exact hf t ht
  · simp only [Lexeme.IsInserted, List.mem_cons, List.not_mem_nil, or_false] at ht
    rcases ht with rfl | rfl | rfl | rfl <;> exact trivial

/-- A text is normalized exactly if its lexemes are freed of arrows, to the text of what is left and the contexts on record. -/
theorem normalize_eq_ok_iff {strict : Bool} {s : String} {n : Normalized} :
    normalize strict s = .ok n ↔
      ∃ e, eliminate strict (lexemes s) = .ok e ∧ n = ⟨String.ofList (Lexeme.render e.lexemes), e.degraded⟩ := by
  unfold normalize
  cases eliminate strict (lexemes s) <;> simp [Except.map, eq_comm]

/-- What the elimination leaves has a value exactly when the lexemes are read, arrows included, as a formula whose letters have
values, and it is the value of the formula read. What is left has no arrow in it, so all that is read of it are tokens. -/
theorem evaluateLetters_eliminate_eq_ok_iff {strict : Bool} {ts : List Lexeme} (hts : ∀ t ∈ ts, t.FromText) {e : Elimination}
    (he : eliminate strict ts = .ok e) {v : Valuation Char} (hv : v.OfLetters) {b : Bool} :
    evaluateLetters (String.ofList (Lexeme.render e.lexemes)) v = .ok b ↔
      ∃ r f, ({} : Reading Char).through ts = some r ∧ r.formula? = some f ∧ (∀ c, .atom c ∈ ts → HasValue v c) ∧
        f.eval v.truth = b := by
  have hf : ∀ t ∈ e.lexemes, t.FromText := fun t ht => fromText_of_mem_eliminate hts he ht
  have hatoms : ∀ c, .atom c ∈ e.lexemes ↔ .atom c ∈ ts := fun c =>
    ⟨fun hc => ((mem_eliminate he).2 hc).resolve_right (by simp [Lexeme.IsInserted]), (mem_eliminate he).1 (by simp)⟩
  have hleaf : ∀ {us : List (Token Char)}, e.lexemes.map Lexeme.token? = us.map some →
      ∀ c, .leaf c ∈ us ↔ .atom c ∈ e.lexemes := by
    intro us hus c
    refine ⟨fun hc => (atom_mem_of_leaf_mem hf hus hc).1, fun hc => ?_⟩
    have hm : some (Token.leaf c) ∈ us.map some := hus ▸ List.mem_map_of_mem (f := Lexeme.token?) hc
    simpa using hm
  rw [evaluateLetters_render_eq_ok_iff hf hv, ← through_eliminate he]
  constructor
  · rintro ⟨us, f, hus, hval, hp, hb⟩
    obtain ⟨r, hr, hrf⟩ := Option.bind_eq_some_iff.mp (Formula.parse_eq_ok_iff.mp hp)
    rw [← Reading.through_eq_after hus] at hr
    exact ⟨r, f, hr, hrf, fun c hc => hval c ((hleaf hus c).mpr ((hatoms c).mpr hc)), hb⟩
  · rintro ⟨r, f, hr, hrf, hval, hb⟩
    have htok : ∀ t ∈ e.lexemes, t.token? ≠ none := by
      intro t ht hnone
      have hmark := Reading.mark?_ne_none_of_through ht hr
      have harrow : t ≠ .arrow := by
        rintro rfl
        exact arrow_not_mem_eliminate he ht
      cases t <;> first | exact harrow rfl | exact hmark rfl | cases hnone
    obtain ⟨us, hus⟩ := Reading.exists_map_some htok
    refine ⟨us, f, hus, fun c hc => hval c ((hatoms c).mp ((hleaf hus c).mp hc)), ?_, hb⟩
    rw [Formula.parse_eq_ok_iff, ← Reading.through_eq_after hus, hr]
    exact hrf

/-- The native notation has a value exactly when the lexemes of the formula are read as a formula whose letters have values. -/
theorem evaluateLetters_normalize_eq_ok_iff {strict : Bool} {s : String} {n : Normalized} (h : normalize strict s = .ok n)
    {v : Valuation Char} (hv : v.OfLetters) {b : Bool} :
    evaluateLetters n.formula v = .ok b ↔
      ∃ r f, ({} : Reading Char).through (lexemes s) = some r ∧ r.formula? = some f ∧
        (∀ c, .atom c ∈ lexemes s → HasValue v c) ∧ f.eval v.truth = b := by
  obtain ⟨e, he, rfl⟩ := normalize_eq_ok_iff.mp h
  exact evaluateLetters_eliminate_eq_ok_iff (fun t ht => fromText_of_mem_lexemes ht) he hv

/-- Every formula has a native notation, and where that has a value under values for letters, no arrow was degraded and the text
was cut into native lexemes and arrows. So a formula with a degraded arrow or with anything foreign in it is refused whatever
the values are. -/
theorem native_of_evaluateLetters_normalize (s : String) : ∃ n, normalize false s = .ok n ∧ ∀ v : Valuation Char, v.OfLetters →
    (∀ b, evaluateLetters n.formula v = .ok b → n.diagnostics = [] ∧ ∀ t ∈ lexemes s, t.IsNative ∨ t = .arrow) ∧
    ((n.diagnostics ≠ [] ∨ ∃ t ∈ lexemes s, ¬t.IsNative ∧ t ≠ .arrow) → ∃ e, evaluateLetters n.formula v = .error e) := by
  obtain ⟨e, he⟩ := exists_eliminateFrom (lexemes s) []
  have hn : normalize false s = .ok ⟨String.ofList (Lexeme.render e.lexemes), e.degraded⟩ := normalize_eq_ok_iff.mpr ⟨e, he, rfl⟩
  refine ⟨_, hn, fun v hv => ?_⟩
  have haccept : ∀ b, evaluateLetters (String.ofList (Lexeme.render e.lexemes)) v = .ok b →
      e.degraded = [] ∧ ∀ t ∈ lexemes s, t.IsNative ∨ t = .arrow := by
    intro b hb
    obtain ⟨r, f, hr, -, -, -⟩ := (evaluateLetters_normalize_eq_ok_iff hn hv).mp hb
    refine ⟨degraded_eq_nil_of_through he (by rw [through_eliminate he, hr]), fun t ht => ?_⟩
    have hmark := Reading.mark?_ne_none_of_through ht hr
    have hf := fromText_of_mem_lexemes ht
    by_cases ha : t = .arrow
    · exact Or.inr ha
    · refine Or.inl (Lexeme.isNative_of_token? hf fun hnone => ?_)
      cases t <;> first | exact ha rfl | exact hmark rfl | cases hnone
  refine ⟨haccept, fun hbad => ?_⟩
  cases hev : evaluateLetters (String.ofList (Lexeme.render e.lexemes)) v with
  | error c => exact ⟨c, rfl⟩
  | ok b =>
    obtain ⟨hd, ht⟩ := haccept b hev
    rcases hbad with hbad | ⟨t, hm, hnt, hna⟩
    · exact absurd hd hbad
    · exact absurd (ht t hm) (by simp [hnt, hna])

/-- `A -> \lnot B` has a value and a clean record, and `A & -> B`, whose arrow has no operand, has neither. -/
theorem native_of_evaluateLetters_arrows :
    (∃ n, normalize false "A -> \\lnot B" = .ok n ∧ evaluateLetters n.formula [('A', true), ('B', true)] = .ok false ∧
      n.diagnostics = [] ∧ ∀ t ∈ lexemes "A -> \\lnot B", t.IsNative ∨ t = .arrow) ∧
    (∃ n, normalize false "A & -> B" = .ok n ∧ n.diagnostics ≠ [] ∧
      ∃ e, evaluateLetters n.formula [('A', true), ('B', true)] = .error e) := by
  have hv : Valuation.OfLetters [('A', true), ('B', true)] := by simp [Valuation.OfLetters]
  constructor
  · obtain ⟨n, hn, h⟩ := native_of_evaluateLetters_normalize "A -> \\lnot B"
    have hform : normalize false "A -> \\lnot B" = .ok ⟨"!A | !B", []⟩ := by decide
    obtain rfl := Except.ok.inj (hn.symm.trans hform)
    have hval : evaluateLetters "!A | !B" [('A', true), ('B', true)] = .ok false := by decide
    exact ⟨_, hn, hval, (h _ hv).1 false hval⟩
  · obtain ⟨n, hn, h⟩ := native_of_evaluateLetters_normalize "A & -> B"
    have hform : normalize false "A & -> B" = .ok ⟨"A & | B", ["A & -> B"]⟩ := by decide
    obtain rfl := Except.ok.inj (hn.symm.trans hform)
    exact ⟨_, hn, by simp, (h _ hv).2 (Or.inl (by simp))⟩

end Propositional.Latex
