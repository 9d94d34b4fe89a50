import Propositional.Evaluation
import Propositional.Proofs.Latex.Lexing
import Propositional.Proofs.Token.Spelling

/-!
# Texts in the native notation

A text of the characters of the native notation spells tokens, as long as no run of `=` in it is longer than an operator
(`IsNativeText.exists_spells`). The tokens need not be a formula.
-/

namespace Propositional

open Text

/-- A text in the native notation, a formula or not: it holds letters and what may stand in a formula, and no run of `=` that is
longer than three, or longer than two behind a `!`. -/
structure IsNativeText (s : List Char) : Prop where
  char : ∀ c ∈ s, c.isUpper ∨ isAllowed c
  equals : ¬['=', '=', '=', '='] <:+: s
  bang : ¬['!', '=', '=', '='] <:+: s

/-- The rest of a native text is one. -/
theorem IsNativeText.tail {c : Char} {s : List Char} (h : IsNativeText (c :: s)) : IsNativeText s where
  char d hd := h.char d (List.mem_cons_of_mem c hd)
  equals hi := h.equals (hi.trans (List.infix_cons List.infix_rfl))
  bang hi := h.bang (hi.trans (List.infix_cons List.infix_rfl))

namespace Token

/-- A text that starts with `=` spells an equivalence first, whose run is all of the `=` in front. -/
theorem Spells.exists_run {ts : List (Token Char)} {s : List Char} (h : Spells ts s) (hs : s.head? = some '=') :
    ∃ n us r, ts = .equiv n :: us ∧ s = List.replicate n '=' ++ r ∧ r.head? ≠ some '=' ∧ Spells us r := by
  cases h with
  | nil => cases hs
  | @blank ts s c hc _ =>
    obtain rfl := Option.some.inj hs
    exact absurd hc (by decide)
  | @token ts s t hw hnext hspells =>
    cases t with
    | equiv n => exact ⟨n, ts, s, rfl, rfl, hnext rfl, hspells⟩
    | leaf a =>
      obtain rfl : a = '=' := Option.some.inj hs
      exact absurd (show '='.isAlphanum from hw) (by decide)
    | _ => exact absurd (Option.some.inj hs) (by decide)

/-- Whether a letter or digit is in a spelled text is a question of the leaves. -/
theorem Spells.mem_iff {ts : List (Token Char)} {s : List Char} (h : Spells ts s) {c : Char} (hc : c.isAlphanum) :
    c ∈ s ↔ .leaf c ∈ ts := by
  induction h with
  | nil => simp
  | @blank ts s d hd _ ih =>
    have hne : c ≠ d := by
      rintro rfl
      rw [isBlank_eq_false_of_isAlphanum hc] at hd
      cases hd
    rw [List.mem_cons, or_iff_right hne, ih]
  | @token ts s t _ _ _ ih =>
    rw [List.mem_append, List.mem_cons, ih]
    refine or_congr_left ?_
    have hne : ∀ d, d.isAlphanum = false → c ≠ d := fun d hd => ne_of_holds hc hd
    cases t with
    | leaf a => simp [text]
    | equiv n =>
      simp only [reduceCtorEq, iff_false]
      exact fun hm => hne '=' (by decide) (List.eq_of_mem_replicate hm)
    | xor n =>
      simp only [reduceCtorEq, iff_false, text, List.mem_cons, not_or]
      exact ⟨hne '!' (by decide), fun hm => hne '=' (by decide) (List.eq_of_mem_replicate hm)⟩
    | _ =>
      simp only [reduceCtorEq, iff_false, text, List.mem_singleton]
      exact hne _ (by decide)

end Token

/-- The characters of the native notation by what they are in a text. -/
theorem isAllowed_or_isUpper_cases {c : Char} (h : c.isUpper ∨ isAllowed c) :
    c = '=' ∨ c = '!' ∨ isBlank c ∨ Latex.isAtom c ∨ ∃ t : Token Char, t.Writable ∧ t.takesEquals = false ∧ t.text id = [c] ∧
      ∀ d, t ≠ .leaf d := by
  rcases h with h | h
  · exact .inr (.inr (.inr (.inl (by simp [Latex.isAtom, h]))))
  · simp only [isAllowed, Bool.or_eq_true, List.contains_iff_mem, List.mem_cons, List.not_mem_nil, or_false] at h
    rcases h with (rfl | rfl | rfl | rfl | rfl | rfl | rfl | rfl) | h
    · exact .inr (.inr (.inr (.inl (by decide))))
    · exact .inr (.inr (.inr (.inl (by decide))))
    · exact .inr (.inr (.inr (.inr ⟨.and, trivial, rfl, rfl, by simp⟩)))
    · exact .inr (.inr (.inr (.inr ⟨.or, trivial, rfl, rfl, by simp⟩)))
    · exact .inr (.inl rfl)
    · exact .inl rfl
    · exact .inr (.inr (.inr (.inr ⟨.lparen, trivial, rfl, rfl, by simp⟩)))
    · exact .inr (.inr (.inr (.inr ⟨.rparen, trivial, rfl, rfl, by simp⟩)))
    · exact .inr (.inr (.inl h))

/-- A text in the native notation spells tokens, with letters and constants as leaves. A `=` before others joins the run that
starts behind it. -/
theorem IsNativeText.exists_spells {s : List Char} (h : IsNativeText s) :
    ∃ ts, Token.Spells ts s ∧ ∀ c, .leaf c ∈ ts → Latex.isAtom c := by
  induction s with
  | nil => exact ⟨[], .nil, by simp⟩
  | cons c s ih =>
    obtain ⟨ts, hts, hleaf⟩ := ih h.tail
    rcases isAllowed_or_isUpper_cases (h.char c List.mem_cons_self) with rfl | rfl | hb | ha | ⟨t, hw, he, htext, hne⟩
    · by_cases hs : s.head? = some '='
      · obtain ⟨n, us, r, rfl, rfl, hr, hus⟩ := hts.exists_run hs
        have hn : n + 1 ≤ 3 := by
          by_contra hn
          obtain ⟨m, rfl⟩ : ∃ m, n = m + 3 := ⟨n - 3, by omega⟩
          exact h.equals ⟨[], List.replicate m '=' ++ r, by simp [List.replicate_succ]⟩
        refine ⟨.equiv (n + 1) :: us, ?_, by simpa using hleaf⟩
        exact .token (t := .equiv (n + 1)) ⟨by omega, hn⟩ (fun _ => hr) hus
      · exact ⟨.equiv 1 :: ts, .token (t := .equiv 1) ⟨by omega, by omega⟩ (fun _ => hs) hts, by simpa using hleaf⟩
    · by_cases hs : s.head? = some '='
      · obtain ⟨n, us, r, rfl, rfl, hr, hus⟩ := hts.exists_run hs
        have hn : n ≤ 2 := by
          by_contra hn
          obtain ⟨m, rfl⟩ : ∃ m, n = m + 3 := ⟨n - 3, by omega⟩
          exact h.bang ⟨[], List.replicate m '=' ++ r, by simp [List.replicate_succ]⟩
        have hpos : 1 ≤ n := by
          by_contra hpos
          obtain rfl : n = 0 := by omega
          exact hr (by simpa using hs)
        refine ⟨.xor n :: us, ?_, by simpa using hleaf⟩
        exact .token (t := .xor n) ⟨hpos, hn⟩ (fun _ => hr) hus
      · exact ⟨.not :: ts, .token (t := .not) trivial (fun _ => hs) hts, by simpa using hleaf⟩
    · exact ⟨ts, .blank hb hts, hleaf⟩
    · refine ⟨.leaf c :: ts, .token (t := .leaf c) (Latex.isAlphanum_of_isAtom ha) (by simp [Token.takesEquals]) hts, ?_⟩
      intro d hd
      rcases List.mem_cons.mp hd with hd | hd
      · obtain rfl := Token.leaf.inj hd
        exact ha
      · exact hleaf d hd
    · refine ⟨t :: ts, ?_, fun d hd => hleaf d ((List.mem_cons.mp hd).resolve_left fun ht => hne d ht.symm)⟩
      have hspells := Token.Spells.token hw (by simp [he]) hts
      rwa [htext] at hspells

end Propositional
