import Mathlib.Tactic.SplitIfs
import Propositional.Json.Printer
import Propositional.Json.Reader

/-!
# Reading texts back

A text that is written between quotation marks is read back, character by character: each is written as itself or as an escape,
and what it is written as is read as this character whatever stands behind it (`readUnits_escapeChar`). No character is a
surrogate, so no two of them are joined (`readText_renderString`).
-/

namespace Propositional.Json

open Text

/-! ## Escapes by code -/

/-- A hexadecimal digit has the value that it was written for. -/
theorem hexValue?_hexDigit {n : Nat} (h : n < 16) : hexValue? (hexDigit n) = some n := by
  have htable : ∀ n < 16, hexValue? (hexDigit n) = some n := by decide
  exact htable n h

/-- Four hexadecimal digits write any code below 65536. -/
theorem exists_hexCode?_hex {n : Nat} (h : n < 65536) : ∃ a b c d, hex 4 n = [a, b, c, d] ∧ hexCode? a b c d = some n := by
  refine ⟨_, _, _, _, rfl, ?_⟩
  have hdigit : ∀ m, hexValue? (hexDigit (m % 16)) = some (m % 16) := fun m => hexValue?_hexDigit (Nat.mod_lt m (by omega))
  simp only [hexCode?, hdigit, Option.bind_eq_bind, Option.bind_some, Option.pure_def, Option.some.injEq]
  omega

/-! ## Characters -/

/-- A character that is no quotation mark, no backslash and no control is read as it is. -/
theorem readUnits_cons {start : List Char} {c : Char} (hquote : c ≠ '"') (hslash : c ≠ '\\') (hcontrol : ¬c.toNat < 32)
    (r : List Char) : readUnits start (c :: r) = (readUnits start r).map fun (us, t) => (c.toNat :: us, t) := by
  rw [readUnits, if_neg hcontrol]
  all_goals simp [hquote, hslash]

/-- An escaped character is read as the character that it stands for. -/
theorem readUnits_escaped {start : List Char} {c d : Char} (h : escaped? c = some d) (r : List Char) :
    readUnits start ('\\' :: c :: r) = (readUnits start r).map fun (us, t) => (d.toNat :: us, t) := by
  have hu : c ≠ 'u' := by
    rintro rfl
    cases h
  rw [readUnits, h]
  all_goals simp [hu]

/-- A number in an escape is read as this number. -/
theorem readUnits_code {start : List Char} {n : Nat} (h : n < 65536) {r : List Char} (hr : r ≠ []) :
    readUnits start ('\\' :: 'u' :: (hex 4 n ++ r)) = (readUnits start r).map fun (us, t) => (n :: us, t) := by
  obtain ⟨a, b, c, d, hhex, hcode⟩ := exists_hexCode?_hex h
  obtain ⟨e, r, rfl⟩ := List.exists_cons_of_ne_nil hr
  rw [hhex]
  show readUnits start ('\\' :: 'u' :: a :: b :: c :: d :: e :: r) = _
  rw [readUnits]
  exact hcode

/-- A character is written by a backslash and another character, by its code if it is a control, or as it is. -/
theorem escapeChar_cases (c : Char) :
    (∃ d, escaped? d = some c ∧ escapeChar c = ['\\', d]) ∨
    (c.toNat < 32 ∧ escapeChar c = '\\' :: 'u' :: hex 4 c.toNat) ∨
    (c ≠ '"' ∧ c ≠ '\\' ∧ ¬c.toNat < 32) ∧ escapeChar c = [c] := by
  unfold escapeChar
  split_ifs with hquote hslash hfeed hreturn htab hback hform hcontrol
  · exact .inl ⟨'"', congrArg some hquote.symm, rfl⟩
  · exact .inl ⟨'\\', congrArg some hslash.symm, rfl⟩
  · exact .inl ⟨'n', congrArg some hfeed.symm, rfl⟩
  · exact .inl ⟨'r', congrArg some hreturn.symm, rfl⟩
  · exact .inl ⟨'t', congrArg some htab.symm, rfl⟩
  · exact .inl ⟨'b', congrArg some hback.symm, rfl⟩
  · exact .inl ⟨'f', congrArg some hform.symm, rfl⟩
  · exact .inr (.inl ⟨hcontrol, rfl⟩)
  · exact .inr (.inr ⟨⟨hquote, hslash, hcontrol⟩, rfl⟩)

/-- Whatever a character is written as is read as this character. -/
theorem readUnits_escapeChar (start : List Char) (c : Char) {r : List Char} (hr : r ≠ []) :
    readUnits start (escapeChar c ++ r) = (readUnits start r).map fun (us, t) => (c.toNat :: us, t) := by
  obtain ⟨d, hd, h⟩ | ⟨hcontrol, h⟩ | ⟨⟨hquote, hslash, hcontrol⟩, h⟩ := escapeChar_cases c
  · rw [h]
    exact readUnits_escaped hd r
  · rw [h]
    exact readUnits_code (by omega) hr
  · rw [h]
    exact readUnits_cons hquote hslash hcontrol r

/-! ## Texts -/

/-- A text that is written character by character is read back, up to the quotation mark behind it. -/
theorem readUnits_flatMap (start s r : List Char) :
    readUnits start (s.flatMap escapeChar ++ '"' :: r) = .ok (s.map Char.toNat, r) := by
  induction s with
  | nil => rfl
  | cons c s ih =>
    rw [List.flatMap_cons, List.append_assoc, readUnits_escapeChar start c (by simp), ih]
    rfl

/-- No character is a surrogate. -/
theorem isSurrogate_toNat (c : Char) : isSurrogate c.toNat = false := by
  have hvalid : c.toNat < 0xD800 ∨ 0xDFFF < c.toNat ∧ c.toNat < 0x110000 := c.valid
  simp only [isSurrogate, Bool.and_eq_false_iff, decide_eq_false_iff_not]
  omega

/-- Codes of characters are not joined. -/
theorem joinUnits_map_toNat (s : List Char) : joinUnits (s.map Char.toNat) = s.map Char.toNat := by
  induction s with
  | nil => rfl
  | cons c s ih =>
    cases s with
    | nil => rfl
    | cons d s =>
      have hc := isSurrogate_toNat c
      simp only [isSurrogate, Bool.and_eq_false_iff, decide_eq_false_iff_not] at hc
      rw [List.map_cons, List.map_cons, joinUnits, if_neg (by omega), ← List.map_cons, ih]

/-- The numbers of the characters of a text are those of the string. -/
theorem ofCodes_map_toNat (s : List Char) : JsonText.ofCodes (s.map Char.toNat) = .string (String.ofList s) := by
  rw [JsonText.ofCodes, if_neg (by simp [isSurrogate_toNat]), List.map_map]
  congr
  exact List.map_id'' Char.ofNat_toNat s

/-- A string that is written is read back, up to its closing quotation mark. -/
theorem readText_renderString (s r : List Char) :
    readText (s.flatMap escapeChar ++ '"' :: r) = .ok (.string (String.ofList s), r) := by
  rw [readText, readUnits_flatMap]
  simp only [Except.map, joinUnits_map_toNat, ofCodes_map_toNat]

/-! ## Controls -/

/-- No control stands in what a text is written as. -/
theorem le_toNat_of_mem_escapeChar {c d : Char} (h : d ∈ escapeChar c) : 32 ≤ d.toNat := by
  obtain ⟨e, he, hc⟩ | ⟨hcontrol, hc⟩ | ⟨⟨-, -, hcontrol⟩, hc⟩ := escapeChar_cases c
  · rw [hc] at h
    have hmark : 32 ≤ e.toNat := by
      unfold escaped? at he
      split at he <;> cases he <;> decide
    rcases List.mem_cons.mp h with rfl | h
    · decide
    · rwa [List.mem_singleton.mp h]
  · have hcodes : ∀ n < 32, ∀ e ∈ '\\' :: 'u' :: hex 4 n, 32 ≤ e.toNat := by decide
    exact hcodes c.toNat hcontrol d (hc ▸ h)
  · rw [hc] at h
    rw [List.mem_singleton.mp h]
    exact Nat.not_lt.mp hcontrol

end Propositional.Json
