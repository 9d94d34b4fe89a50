import Propositional.Proofs.Evaluation.Tidying
import Propositional.Proofs.Latex.Acceptance
import Propositional.Proofs.Latex.Complement
import Propositional.Proofs.Latex.NativeText

/-!
# Native text read as LaTeX

A text in the native notation may stand where LaTeX is expected. It holds no overline, and nothing that is spelled in another way
in LaTeX. Each of its tokens is one lexeme, so what is written for the lexemes is the text with the usual lengths of runs and
with other blanks (`tidied_tidy`, `normalize_of_native`).
-/

namespace Propositional.Latex

open Text

/-! ## Nothing to replace -/

/-- A character of the native notation is none that is neither a letter nor allowed in a formula. -/
theorem ne_of_native {c d : Char} (h : c.isUpper ∨ isAllowed c) (hu : d.isUpper = false) (ha : isAllowed d = false) : c ≠ d := by
  rintro rfl
  rw [hu, ha] at h
  exact h.elim nofun nofun

/-- A native character neither opens nor closes an overline. -/
theorem isInert_of_native {c : Char} (h : c.isUpper ∨ isAllowed c) : isInert c := by
  have hbackslash := ne_of_native h (d := '\\') (by decide) (by decide)
  have hopen := ne_of_native h (d := '{') (by decide) (by decide)
  have hclose := ne_of_native h (d := '}') (by decide) (by decide)
  simp [isInert, hbackslash, hopen, hclose]

/-- A native character is no spelling of a group. -/
theorem Group.notMem_chars_of_native {g : Group} (hg : g ∈ groups) {c : Char} (h : c.isUpper ∨ isAllowed c) : c ∉ g.chars := by
  intro hc
  have htable : ∀ g ∈ groups, ∀ d ∈ g.chars, d.isUpper = false ∧ isAllowed d = false := by decide
  obtain ⟨hu, ha⟩ := htable g hg c hc
  exact ne_of_native h hu ha rfl

/-- No group of spellings matches anywhere in a text in the native notation. -/
theorem Group.replaceMatches_of_native {g : Group} (hg : g ∈ groups) {s : List Char} (h : ∀ c ∈ s, c.isUpper ∨ isAllowed c) :
    replaceMatches g.matcher g.native s = s := by
  have hnone : ∀ a c b, s = a ++ c :: b → g.matcher (c :: (b ++ [])) = none := by
    rintro a c b rfl
    have hc := h c (by simp)
    apply matcher_of_base_none
    rw [base_of_ne (ne_of_native hc (by decide) (by decide)), if_neg]
    simpa using notMem_chars_of_native hg hc
  have hreplace : replaceFrom g.matcher g.native 0 (s ++ []) = s ++ replaceFrom g.matcher g.native 0 [] :=
    replaceFrom_append_of_none hnone
  rw [replaceMatches]
  simpa [replaceFrom] using hreplace

/-- Respelling leaves native texts as they are. -/
theorem respell_of_native {s : List Char} (h : ∀ c ∈ s, c.isUpper ∨ isAllowed c) : respell s = s := by
  refine respell_rel (R := fun t _ => t = s) (fun g hg t _ ht => ?_) (t := s) rfl
  rw [ht, Group.replaceMatches_of_native hg h]

/-- Replacing overlines leaves native texts as they are. -/
theorem replaceOverlines_of_native {s : List Char} (h : ∀ c ∈ s, c.isUpper ∨ isAllowed c) : replaceOverlines s = s := by
  have hinert := replaceOverlinesFrom_append_of_inert (fun c hc => isInert_of_native (h c hc)) [] [] []
  rw [List.append_nil, List.append_nil] at hinert
  rw [replaceOverlines, hinert]
  exact List.reverse_reverse s

/-! ## One lexeme for each token -/

namespace Lexeme

/-- The lexeme that a token is cut into. -/
def ofToken : Token Char → Lexeme
  | .leaf c => .atom c
  | .not => .not
  | .and => .and
  | .or => .or
  | .equiv _ => .equiv
  | .xor _ => .xor
  | .lparen => .lparen
  | .rparen => .rparen

/-- The lexeme of a token is this token, with the usual length of its run. -/
theorem token?_ofToken (t : Token Char) : (ofToken t).token? = some t.canonical := by cases t <;> rfl

/-- A run of `=` ends where no `=` follows. -/
theorem takeWhile_equals {s : List Char} (h : s.head? ≠ some '=') (n : Nat) :
    (List.replicate n '=' ++ s).takeWhile (· = '=') = List.replicate n '=' := by
  rw [List.takeWhile_append_of_pos fun c hc => by simpa using List.eq_of_mem_replicate hc]
  cases s with
  | nil => simp
  | cons c s =>
    have hc : c ≠ '=' := by simpa using h
    simp [hc]

/-- A run of `=` is one lexeme, unless a `>` makes an arrow of it. -/
theorem next_run {s : List Char} (h : s.head? ≠ some '=') (hs : s.head? ≠ some '>') (n : Nat) :
    next '=' (List.replicate n '=' ++ s) = (some .equiv, n) := by
  have hnext : next '=' (List.replicate n '=' ++ s) =
      (some .equiv, ((List.replicate n '=' ++ s).takeWhile (· = '=')).length) := by
    cases n with
    | succ n => rfl
    | zero =>
      cases s with
      | nil => rfl
      | cons c s =>
        unfold next
        rw [if_neg (by decide), if_neg (by decide)]
        split
        all_goals first | rfl | simp_all
  rw [hnext, takeWhile_equals h, List.length_replicate]

/-- A `!` before a run of `=` is an exclusive disjunction. -/
theorem next_bang_run {s : List Char} (h : s.head? ≠ some '=') (n : Nat) :
    next '!' (List.replicate (n + 1) '=' ++ s) = (some .xor, n + 1) := by
  have hnext : next '!' (List.replicate (n + 1) '=' ++ s) =
      (some .xor, ((List.replicate n '=' ++ s).takeWhile (· = '=')).length + 1) := rfl
  rw [hnext, takeWhile_equals h, List.length_replicate]

/-- A token is one lexeme where no `=` and no `>` joins it. -/
theorem exists_next_of_token {t : Token Char} (hw : t.Writable) (hleaf : ∀ c, t = .leaf c → isAtom c) {s : List Char}
    (he : t.takesEquals → s.head? ≠ some '=') (hs : s.head? ≠ some '>') :
    ∃ c p, t.text id = c :: p ∧ next c (p ++ s) = (some (ofToken t), p.length) := by
  cases t with
  | leaf c => exact ⟨c, [], rfl, next_of_isAtom (hleaf c rfl) s⟩
  | not => exact ⟨'!', [], rfl, next_bang (he rfl)⟩
  | equiv n =>
    obtain ⟨n, rfl⟩ : ∃ k, n = k + 1 := ⟨n - 1, by have := hw.1; omega⟩
    exact ⟨'=', List.replicate n '=', rfl, by rw [next_run (he rfl) hs, List.length_replicate]; rfl⟩
  | xor n =>
    obtain ⟨n, rfl⟩ : ∃ k, n = k + 1 := ⟨n - 1, by have := hw.1; omega⟩
    exact ⟨'!', List.replicate (n + 1) '=', rfl, by rw [next_bang_run (he rfl), List.length_replicate]; rfl⟩
  | and => exact ⟨'&', [], rfl, rfl⟩
  | or => exact ⟨'|', [], rfl, rfl⟩
  | lparen => exact ⟨'(', [], rfl, rfl⟩
  | rparen => exact ⟨')', [], rfl, rfl⟩

/-- A text that spells tokens with letters and constants as leaves is cut into their lexemes. No token is written with a `>`, so
no arrow comes of two of them. -/
theorem lexFrom_of_spells {ts : List (Token Char)} {s : List Char} (h : Token.Spells ts s) :
    (∀ c, .leaf c ∈ ts → isAtom c) → lexFrom 0 s = ts.map ofToken := by
  induction h with
  | nil => exact fun _ => rfl
  | @blank ts s c hc _ ih =>
    intro hleaf
    have hnext : next c s = (none, 0) := by
      unfold next
      rw [if_pos hc]
    rw [lexFrom_zero_cons, hnext]
    exact ih hleaf
  | @token ts s t hw he hspells ih =>
    intro hleaf
    have hrest : ∀ c, .leaf c ∈ ts → isAtom c := fun c hc => hleaf c (List.mem_cons_of_mem t hc)
    have hs : s.head? ≠ some '>' := by
      intro hs
      rcases isAllowed_or_leaf_of_spells hspells '>' (List.mem_of_mem_head? hs) with ha | hl
      · exact absurd ha (by decide)
      · exact absurd (hrest '>' hl) (by decide)
    obtain ⟨c, p, htext, hnext⟩ := exists_next_of_token hw (fun c hc => hleaf c (hc ▸ List.mem_cons_self)) he hs
    rw [htext, List.cons_append, lexFrom_zero_cons, hnext, List.map_cons, ← ih hrest, ← lexFrom_skip p s]
    rfl

end Lexeme

/-! ## The native notation -/

/-- Without arrows there is nothing to eliminate. -/
theorem eliminateFrom_of_notMem {strict : Bool} {ts : List Lexeme} (h : .arrow ∉ ts) :
    ∀ done, eliminateFrom strict done ts = .ok ⟨done.reverse ++ ts, []⟩ := by
  induction ts with
  | nil =>
    intro done
    rw [List.append_nil]
    rfl
  | cons t ts ih =>
    intro done
    rw [List.mem_cons, not_or] at h
    obtain ⟨ht, hts⟩ := h
    rw [eliminateFrom_cons_of_ne (fun he => ht he.symm), ih hts, List.reverse_cons, List.append_assoc]
    rfl

/-- The text of the lexemes of a formula. -/
def tidy (f : String) : String := String.ofList (Lexeme.render (lexemes f))

section Native

variable {f : String} (h : IsNativeText f.toList)

include h

/-- The lexemes of a native formula are those of the tokens that it spells, with atoms as leaves. -/
theorem exists_lexemes_eq_of_native :
    ∃ ts, lexemes f = ts.map Lexeme.ofToken ∧ Token.Spells ts f.toList ∧ ∀ c, .leaf c ∈ ts → isAtom c := by
  obtain ⟨ts, hspells, hleaf⟩ := h.exists_spells
  refine ⟨ts, ?_, hspells, hleaf⟩
  rw [lexemes, replaceOverlines_of_native h.char, respell_of_native h.char, Lexeme.lex]
  exact Lexeme.lexFrom_of_spells hspells hleaf

/-- A text in the native notation is tidied when its lexemes are written. -/
theorem tidied_tidy : Tidied f (tidy f) := by
  obtain ⟨ts, hlexemes, hspells, hleaf⟩ := exists_lexemes_eq_of_native h
  have htoken : (lexemes f).map Lexeme.token? = (ts.map Token.canonical).map some := by
    rw [hlexemes, List.map_map, List.map_map]
    exact List.map_congr_left fun t _ => Lexeme.token?_ofToken t
  refine ⟨ts, hspells, ?_, hleaf⟩
  rw [tidy, String.toList_ofList]
  exact Lexeme.spells_render (fun t ht => fromText_of_mem_lexemes ht) htoken

/-- That is its native notation, with nothing on record, whether strictness is demanded or not. -/
theorem normalize_of_native (strict : Bool) : normalize strict f = .ok ⟨tidy f, []⟩ := by
  obtain ⟨ts, hlexemes, -, -⟩ := exists_lexemes_eq_of_native h
  have harrow : Lexeme.arrow ∉ lexemes f := by
    rw [hlexemes]
    intro hm
    obtain ⟨t, -, ht⟩ := List.mem_map.mp hm
    cases t <;> cases ht
  exact normalize_eq_ok_iff.mpr ⟨⟨lexemes f, []⟩, eliminateFrom_of_notMem harrow [], rfl⟩

end Native

end Propositional.Latex
