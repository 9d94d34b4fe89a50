import Propositional.Text.Blank

/-!
# Kinds of characters

Letters and digits by their codes. They are no blanks, and a capital letter is no small one.
-/

namespace Propositional.Text

/-- A character of a kind is none of another kind. -/
theorem ne_of_holds {kind : Char → Bool} {c d : Char} (h : kind c) (hd : kind d = false) : c ≠ d := by
  rintro rfl
  rw [h] at hd
  cases hd

variable {c : Char}

theorem isUpper_iff : c.isUpper ↔ 65 ≤ c.toNat ∧ c.toNat ≤ 90 := decide_eq_true_iff

theorem isLower_iff : c.isLower ↔ 97 ≤ c.toNat ∧ c.toNat ≤ 122 :=
  (Bool.and_eq_true _ _).to_iff.trans (and_congr decide_eq_true_iff decide_eq_true_iff)

theorem isDigit_iff : c.isDigit ↔ 48 ≤ c.toNat ∧ c.toNat ≤ 57 :=
  (Bool.and_eq_true _ _).to_iff.trans (and_congr decide_eq_true_iff decide_eq_true_iff)

theorem isAlpha_iff : c.isAlpha ↔ c.isUpper ∨ c.isLower := (Bool.or_eq_true _ _).to_iff

theorem isAlphanum_iff : c.isAlphanum ↔ c.isAlpha ∨ c.isDigit := (Bool.or_eq_true _ _).to_iff

theorem isAlpha_of_isUpper (h : c.isUpper) : c.isAlpha := isAlpha_iff.mpr (.inl h)

theorem isAlphanum_of_isAlpha (h : c.isAlpha) : c.isAlphanum := isAlphanum_iff.mpr (.inl h)

theorem isAlphanum_of_isUpper (h : c.isUpper) : c.isAlphanum := isAlphanum_of_isAlpha (isAlpha_of_isUpper h)

theorem isUpper_eq_false_of_isLower (h : c.isLower) : c.isUpper = false := by
  rw [Bool.eq_false_iff, ne_eq, isUpper_iff]
  rw [isLower_iff] at h
  omega

/-- A letter and a digit of ASCII are no blanks. -/
theorem isBlank_eq_false_of_isAlphanum (h : c.isAlphanum) : isBlank c = false := by
  rw [isAlphanum_iff, isAlpha_iff, isUpper_iff, isLower_iff, isDigit_iff] at h
  simp only [isBlank, Bool.or_eq_false_iff, Bool.and_eq_false_iff, decide_eq_false_iff_not, beq_eq_false_iff_ne]
  omega

end Propositional.Text
