import Propositional.Text.Replace

/-!
# Replacing matches one by one

A match at the start of a text is replaced and the search goes on behind it; where there is none, the first character stays.
-/

namespace Propositional.Text

variable {m : Matcher} {new : List Char}

/-- What belongs to a match is skipped. -/
theorem replaceFrom_skip (p s : List Char) : replaceFrom m new p.length (p ++ s) = replaceFrom m new 0 s := by
  induction p with
  | nil => rfl
  | cons c p ih => exact ih

/-- Where nothing matches a character stays. -/
theorem replaceFrom_of_none {c : Char} {s : List Char} (h : m (c :: s) = none) :
    replaceFrom m new 0 (c :: s) = c :: replaceFrom m new 0 s := by
  simp [replaceFrom, h]

/-- What matches is replaced. -/
theorem replaceFrom_of_match {p s : List Char} (hp : p ≠ []) (h : m (p ++ s) = some p.length) :
    replaceFrom m new 0 (p ++ s) = new ++ replaceFrom m new 0 s := by
  cases p with
  | nil => exact absurd rfl hp
  | cons c p =>
    rw [← replaceFrom_skip p s]
    rw [List.cons_append, List.length_cons] at h
    simp [replaceFrom, h]

/-- A text in which no match starts stays. -/
theorem replaceFrom_append_of_none {p s : List Char} (h : ∀ a c b, p = a ++ c :: b → m (c :: (b ++ s)) = none) :
    replaceFrom m new 0 (p ++ s) = p ++ replaceFrom m new 0 s := by
  induction p with
  | nil => rfl
  | cons c p ih =>
    rw [List.cons_append, replaceFrom_of_none (h [] c p rfl), ih, List.cons_append]
    intro a d b he
    exact h (c :: a) d b (by rw [he, List.cons_append])

end Propositional.Text
