import Propositional.Proofs.Latex.NativeFormula

/-!
# Canonical texts

Native lexemes are written in such a way that cutting the text gives them back, whether they are a formula or not: no two of them
run together, as the binary connectives stand between spaces and nothing else is written with a `=` (`Lexeme.lex_render`). So a
native notation that holds native characters only is its own native notation (`normalize_normalized`).
-/

namespace Propositional.Latex

open Text

namespace Lexeme

/-- A native lexeme writes a token. -/
theorem token?_ne_none_of_isNative {t : Lexeme} (h : t.IsNative) : t.token? ≠ none := by
  cases t with
  | arrow | other s => exact h.elim
  | _ => simp [token?]

/-- A native lexeme is that of the token that it writes. -/
theorem map_ofToken_token? {t : Lexeme} (h : t.IsNative) : t.token?.map ofToken = some t := by
  cases t with
  | arrow | other s => exact h.elim
  | _ => rfl

/-- Native lexemes are what their canonical text is cut into. -/
theorem lex_render {ts : List Lexeme} (h : ∀ t ∈ ts, t.IsNative) : lex (render ts) = ts := by
  obtain ⟨us, hus⟩ := Reading.exists_map_some fun t ht => token?_ne_none_of_isNative (h t ht)
  have hfrom : ∀ t ∈ ts, t.FromText := fun t ht => fromText_of_isNative (.inl (h t ht))
  have hatom : ∀ c, .leaf c ∈ us → isAtom c := fun c hc => (atom_mem_of_leaf_mem hfrom hus hc).2
  have hback : us.map ofToken = ts := by
    have hsome : (us.map ofToken).map some = ts.map some := by
      calc (us.map ofToken).map some = (us.map some).map (Option.map ofToken) := by simp
        _ = ts.map fun t => t.token?.map ofToken := by rw [← hus, List.map_map]; rfl
        _ = ts.map some := List.map_congr_left fun t ht => map_ofToken_token? (h t ht)
    exact List.map_injective_iff.mpr (Option.some_injective _) hsome
  rw [lex, lexFrom_of_spells (spells_render hfrom hus) hatom, hback]

end Lexeme

/-- The lexemes of a text of native characters are native. A lexeme that writes no token would bring a character with it that is
not native. -/
theorem isNative_of_mem_render {ts : List Lexeme} (hf : ∀ t ∈ ts, t.FromText)
    (h : ∀ c ∈ Lexeme.render ts, c.isUpper ∨ isAllowed c) : ∀ t ∈ ts, t.IsNative := by
  intro t ht
  refine Lexeme.isNative_of_token? (hf t ht) fun hnone => ?_
  obtain ⟨c, hc, hallowed, hupper⟩ := Lexeme.exists_not_isAllowed_of_token?_eq_none (hf t ht) hnone
  have hblank : isBlank c = false := by
    simp only [isAllowed, Bool.or_eq_false_iff] at hallowed
    exact hallowed.2
  have hmem := h c (Lexeme.mem_render ht hc hblank)
  simp [hallowed, hupper] at hmem

/-- A native notation that consists of native characters, a formula or not, is its own native notation, with nothing on record,
whether strictness is demanded or not. And the lexemes that it was written for are those that it is cut into. -/
theorem normalize_normalized {strict : Bool} {s : String} {n : Normalized} (h : normalize strict s = .ok n)
    (hn : ∀ c ∈ n.formula.toList, c.isUpper ∨ isAllowed c) :
    (∀ strict', normalize strict' n.formula = .ok ⟨n.formula, []⟩) ∧
      ∃ e, eliminate strict (lexemes s) = .ok e ∧ n.formula = String.ofList (Lexeme.render e.lexemes) ∧
        Lexeme.lex n.formula.toList = e.lexemes := by
  obtain ⟨e, he, rfl⟩ := normalize_eq_ok_iff.mp h
  dsimp only at hn ⊢
  rw [String.toList_ofList] at hn
  have hfrom : ∀ t ∈ e.lexemes, t.FromText := fun t ht => fromText_of_mem_eliminate (fun t ht => fromText_of_mem_lexemes ht) he ht
  have hlex := Lexeme.lex_render (isNative_of_mem_render hfrom hn)
  have hlexemes : lexemes (String.ofList (Lexeme.render e.lexemes)) = e.lexemes := by
    rw [lexemes, String.toList_ofList, replaceOverlines_of_native hn, respell_of_native hn, hlex]
  refine ⟨fun strict' => ?_, e, he, rfl, by rw [String.toList_ofList, hlex]⟩
  refine normalize_eq_ok_iff.mpr ⟨⟨e.lexemes, []⟩, ?_, rfl⟩
  rw [hlexemes]
  exact eliminateFrom_of_notMem (arrow_not_mem_eliminate he) []

/-- What comes of `! \iff \neg\overline{A} => B` is no formula, and yet it is read again as it was written. -/
theorem normalize_normalized_not_equiv :
    normalize false "! \\iff \\neg\\overline\x7bA\x7d => B" = .ok ⟨"! == !!!A | B", []⟩ ∧
      normalize true "! == !!!A | B" = .ok ⟨"! == !!!A | B", []⟩ := by
  have hform : normalize false "! \\iff \\neg\\overline\x7bA\x7d => B" = .ok ⟨"! == !!!A | B", []⟩ := by decide
  exact ⟨hform, (normalize_normalized hform (by decide)).1 true⟩

end Propositional.Latex
