import Propositional.Proofs.Evaluation.Substitution
import Propositional.Proofs.Latex.Lexing
import Propositional.Proofs.Latex.Reading
import Propositional.Proofs.Token.Spelling

/-!
# Rendered lexemes

Lexemes that are tokens are written so that no two of them run together, and reading the text gives them back (`spells_render`).
A lexeme that is no token of a formula brings a character into the text that no formula may hold, whatever values are written
into it. So the text of lexemes has a value exactly when all of them are tokens, all their letters have values, and the tokens
are a formula, and its value is that of the formula (`evaluateLetters_render_eq_ok_iff`).
-/

namespace Propositional.Latex

open Text

/-! ## The text of tokens -/

namespace Lexeme

/-- A lexeme that is a token has its text. -/
theorem text_of_token? {t : Lexeme} {u : Token Char} (h : t.token? = some u) : t.text = u.text id := by
  cases t <;> cases h <;> rfl

/-- A lexeme of a text that is a token can be written. -/
theorem writable_of_token? {t : Lexeme} {u : Token Char} (ht : t.FromText) (h : t.token? = some u) : u.Writable := by
  cases t <;> cases h <;> first | exact trivial | exact isAlphanum_of_isAtom ht | simp [Token.Writable]

/-- No token is written with a `=` in the first place. -/
theorem head?_flatMap_spaced {ts : List Lexeme} {us : List (Token Char)} (hf : ∀ t ∈ ts, t.FromText)
    (h : ts.map token? = us.map some) : (ts.flatMap spaced).head? ≠ some '=' := by
  cases ts with
  | nil => simp
  | cons t ts =>
    have ht := hf t List.mem_cons_self
    cases t with
    | atom c =>
      have hc : c ≠ '=' := ne_of_holds (isAlphanum_of_isAtom ht) (by decide)
      simpa [spaced, isSpaced, text] using hc
    | arrow => cases us <;> simp [token?] at h
    | other s => cases us <;> simp [token?] at h
    | _ => simp [spaced, isSpaced, text]

/-- Lexemes that are tokens spell them, each with blanks around it. -/
theorem spells_flatMap_spaced {ts : List Lexeme} :
    ∀ {us : List (Token Char)}, (∀ t ∈ ts, t.FromText) → ts.map token? = us.map some → Token.Spells us (ts.flatMap spaced) := by
  induction ts with
  | nil =>
    intro us _ h
    obtain rfl : us = [] := by simpa using h.symm
    exact .nil
  | cons t ts ih =>
    intro us hf h
    cases us with
    | nil => simp at h
    | cons u us =>
      obtain ⟨hu, hus⟩ := List.cons.inj h
      have hw := writable_of_token? (hf t List.mem_cons_self) hu
      have hfs : ∀ t ∈ ts, t.FromText := fun t ht => hf t (List.mem_cons_of_mem _ ht)
      have hs := ih hfs hus
      rw [List.flatMap_cons]
      unfold spaced
      split
      · rw [text_of_token? hu, List.cons_append, List.append_assoc]
        exact .blank isBlank_space (.token hw (fun _ => by simp) (.blank isBlank_space hs))
      · rw [text_of_token? hu]
        exact .token hw (fun _ => head?_flatMap_spaced hfs hus) hs

/-- The canonical text of lexemes that are tokens spells these tokens. -/
theorem spells_render {ts : List Lexeme} {us : List (Token Char)} (hf : ∀ t ∈ ts, t.FromText)
    (h : ts.map token? = us.map some) : Token.Spells us (render ts) :=
  (spells_flatMap_spaced hf h).collapse

/-- A character of a lexeme that is no blank is in the canonical text. -/
theorem mem_render {ts : List Lexeme} {t : Lexeme} (ht : t ∈ ts) {c : Char} (hc : c ∈ t.text) (hb : isBlank c = false) :
    c ∈ render ts := by
  apply mem_collapse hb
  rw [List.mem_flatMap]
  refine ⟨t, ht, ?_⟩
  unfold spaced
  split
  · simp [hc]
  · exact hc

/-- A lexeme that is no token brings a character with it that no formula may hold, and that is no letter. -/
theorem exists_not_isAllowed_of_token?_eq_none {t : Lexeme} (ht : t.FromText) (h : t.token? = none) :
    ∃ c ∈ t.text, isAllowed c = false ∧ c.isUpper = false := by
  cases t with
  | arrow => exact ⟨'-', by simp [text], by decide, by decide⟩
  | other s => exact ht
  | _ => cases h

end Lexeme

/-! ## The value of the text -/

/-- A character has a value under a valuation: it is a letter with a value, or no letter at all. -/
def HasValue (v : Valuation Char) (c : Char) : Prop := c.isUpper → (v.lookup c).isSome

/-- Atoms are written as `0` or `1` when they have a value, and otherwise as no character of a formula. -/
theorem isAllowed_write_iff {v : Valuation Char} {c : Char} (hc : isAtom c) :
    isAllowed (v.write c) ↔ HasValue v c := by
  unfold HasValue
  cases hl : v.lookup c with
  | some b =>
    rw [Valuation.write_eq_of_lookup hl]
    cases b <;> simp [bit] <;> decide
  | none =>
    rw [Valuation.write_eq_self hl]
    simp only [isAtom, Bool.or_eq_true, decide_eq_true_eq] at hc
    rcases hc with (hc | rfl) | rfl
    · simp [hc, isAllowed_eq_false_of_isAlpha (isAlpha_of_isUpper hc)]
    · decide
    · decide

/-- An atom with a value is written as the digit of its truth value. -/
theorem bit?_write {v : Valuation Char} {c : Char} (hc : isAtom c) (h : HasValue v c) :
    bit? (v.write c) = some (v.truth c) := by
  unfold Valuation.truth
  cases hl : v.lookup c with
  | some b =>
    rw [Valuation.write_eq_of_lookup hl]
    cases b <;> rfl
  | none =>
    rw [Valuation.write_eq_self hl]
    simp only [isAtom, Bool.or_eq_true, decide_eq_true_eq] at hc
    rcases hc with (hc | rfl) | rfl
    · simpa [hl] using h hc
    · rfl
    · rfl

/-- A written letter or digit is one again, and nothing else changes. -/
theorem write_eq_or_isAlphanum {v : Valuation Char} (hv : v.OfLetters) (c : Char) :
    v.write c = c ∨ c.isAlphanum ∧ (v.write c).isAlphanum := by
  cases hl : v.lookup c with
  | none => exact Or.inl (Valuation.write_eq_self hl)
  | some b =>
    right
    have hu : c.isUpper := by
      by_contra hu
      rw [hv.lookup_eq_none (by simpa using hu)] at hl
      cases hl
    refine ⟨isAlphanum_of_isUpper hu, ?_⟩
    rw [Valuation.write_eq_of_lookup hl]
    cases b <;> rfl

/-- The characters of a spelled text are those that a formula may hold, and its leaves. -/
theorem isAllowed_or_leaf_of_spells {us : List (Token Char)} {s : List Char} (h : Token.Spells us s) :
    ∀ c ∈ s, isAllowed c ∨ .leaf c ∈ us := by
  induction h with
  | nil => simp
  | @blank us s d hd _ ih =>
    intro c hc
    rcases List.mem_cons.mp hc with rfl | hc
    · exact Or.inl (by simp [isAllowed, hd])
    · exact ih c hc
  | @token us s t hw _ _ ih =>
    intro c hc
    rcases List.mem_append.mp hc with hc | hc
    · cases t with
      | leaf a =>
        obtain rfl : c = a := by simpa [Token.text] using hc
        exact Or.inr List.mem_cons_self
      | equiv n => exact Or.inl (by rw [List.eq_of_mem_replicate hc]; decide)
      | xor n =>
        left
        rcases List.mem_cons.mp hc with rfl | hc
        · decide
        · rw [List.eq_of_mem_replicate hc]
          decide
      | _ =>
        left
        simp only [Token.text, List.mem_singleton] at hc
        subst hc
        decide
    · rcases ih c hc with h | h
      · exact Or.inl h
      · exact Or.inr (List.mem_cons_of_mem _ h)

section Spelled

variable {us : List (Token Char)} {s : List Char} (h : Token.Spells us s) {v : Valuation Char} (hv : v.OfLetters)
  (hleaf : ∀ c, .leaf c ∈ us → isAtom c ∧ HasValue v c)

include h hv hleaf

/-- Where the leaves of a spelled text are atoms with values, the text with the values written is cut into the tokens with truth
values as leaves. -/
theorem scan_write_of_spells : Token.scan bit? (s.map v.write) = .ok (us.map (·.map v.truth)) := by
  have hspells := h.map (write_eq_or_isAlphanum hv)
  have hbit : ∀ c, .leaf c ∈ us.map (·.map v.write) → bit? c = some (c == '1') := by
    intro c hc
    obtain ⟨u, hu, he⟩ := List.mem_map.mp hc
    cases u <;> cases he
    obtain ⟨ha, hval⟩ := hleaf _ hu
    rw [bit?_write ha hval]
    rfl
  have htruth : ((·.map fun c => c == '1') ∘ (·.map v.write) : Token Char → Token Bool) = (·.map v.truth) := by
    funext u
    cases u <;> rfl
  rw [Token.scan_of_spells hspells hbit, List.map_map, htruth]

/-- What spells tokens whose letters have values is allowed once the values are written. -/
theorem isAllowed_write_of_spells : ∀ c ∈ s, isAllowed (v.write c) := by
  intro c hc
  rcases isAllowed_or_leaf_of_spells h c hc with hallowed | hmem
  · rw [hv.write_eq_self]
    · exact hallowed
    · by_contra hu
      rw [isAllowed_eq_false_of_isAlpha (isAlpha_of_isUpper (by simpa using hu))] at hallowed
      cases hallowed
  · exact (isAllowed_write_iff (hleaf c hmem).1).mpr (hleaf c hmem).2

end Spelled

section Tokens

variable {ts : List Lexeme} {us : List (Token Char)} (hf : ∀ t ∈ ts, t.FromText) (h : ts.map Lexeme.token? = us.map some)

include hf h

/-- The leaves of the tokens are atoms among the lexemes. -/
theorem atom_mem_of_leaf_mem {c : Char} (hc : .leaf c ∈ us) : .atom c ∈ ts ∧ isAtom c := by
  have hm : some (Token.leaf c) ∈ ts.map Lexeme.token? := h ▸ List.mem_map_of_mem hc
  obtain ⟨t, ht, he⟩ := List.mem_map.mp hm
  have hft := hf t ht
  cases t <;> cases he
  exact ⟨ht, hft⟩

/-- Where the leaves have values, the text with the values written is cut into the tokens with truth values as leaves. -/
theorem scan_render {v : Valuation Char} (hv : v.OfLetters) (hval : ∀ c, .leaf c ∈ us → HasValue v c) :
    Token.scan bit? ((Lexeme.render ts).map v.write) = .ok (us.map (·.map v.truth)) :=
  scan_write_of_spells (Lexeme.spells_render hf h) hv fun c hc => ⟨(atom_mem_of_leaf_mem hf h hc).2, hval c hc⟩

end Tokens

/-- The text of lexemes has a value exactly when they are tokens of a formula whose letters have values, and it is the value of
that formula. No lexeme can bring a character that is not allowed, so all of them are tokens. -/
theorem evaluateLetters_render_eq_ok_iff {ts : List Lexeme} (hf : ∀ t ∈ ts, t.FromText) {v : Valuation Char} (hv : v.OfLetters)
    {b : Bool} :
    evaluateLetters (String.ofList (Lexeme.render ts)) v = .ok b ↔
      ∃ us f, ts.map Lexeme.token? = us.map some ∧ (∀ c, .leaf c ∈ us → HasValue v c) ∧ Formula.parse us = .ok f ∧
        f.eval v.truth = b := by
  rw [evaluateLetters_eq_ok_iff hv, String.toList_ofList]
  constructor
  · rintro ⟨hall, us', f', hus', hf', rfl⟩
    have htok : ∀ t ∈ ts, t.token? ≠ none := by
      intro t ht hnone
      obtain ⟨c, hc, hna, hnu⟩ := Lexeme.exists_not_isAllowed_of_token?_eq_none (hf t ht) hnone
      have hb : isBlank c = false := by
        simp only [isAllowed, Bool.or_eq_false_iff] at hna
        exact hna.2
      have hallow := hall c (Lexeme.mem_render ht hc hb)
      rw [hv.write_eq_self hnu, hna] at hallow
      cases hallow
    obtain ⟨us, hus⟩ := Reading.exists_map_some htok
    have hval : ∀ c, .leaf c ∈ us → HasValue v c := by
      intro c hc
      obtain ⟨hm, hca⟩ := atom_mem_of_leaf_mem hf hus hc
      rw [← isAllowed_write_iff hca]
      exact hall c (Lexeme.mem_render hm (by simp [Lexeme.text]) (isBlank_eq_false_of_isAlphanum (isAlphanum_of_isAtom hca)))
    rw [scan_render hf hus hv hval] at hus'
    obtain rfl := Except.ok.inj hus'
    obtain ⟨f, hp, rfl⟩ := (Formula.parse_map_eq_ok_iff v.truth).mp hf'
    exact ⟨us, f, hus, hval, hp, (Formula.eval_map v.truth id f).symm⟩
  · rintro ⟨us, f, hus, hval, hp, rfl⟩
    have hallowed := isAllowed_write_of_spells (Lexeme.spells_render hf hus) hv fun c hc =>
      ⟨(atom_mem_of_leaf_mem hf hus hc).2, hval c hc⟩
    exact ⟨hallowed, us.map (·.map v.truth), f.map v.truth, scan_render hf hus hv hval,
      (Formula.parse_map_eq_ok_iff v.truth).mpr ⟨f, hp, rfl⟩, Formula.eval_map v.truth id f⟩

end Propositional.Latex
