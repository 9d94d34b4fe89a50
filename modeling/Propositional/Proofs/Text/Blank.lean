import Mathlib.Data.List.DropRight
import Mathlib.Data.List.TakeWhile
import Propositional.Proofs.Text.Character

/-!
# Trimming and squeezing

The operations on blanks go character by character, from the front as well as at the end, and touch nothing but blanks.
-/

namespace Propositional.Text

-- A statement about the characters of a text is decided along the text. The instance for statements about all characters, which
-- applies to it as well, would go through every character there is.
instance (priority := 2000) decidableForallMem {p : Char → Prop} [DecidablePred p] (s : List Char) :
    Decidable (∀ c ∈ s, p c) := List.decidableBAll p s

instance (priority := 2000) decidableExistsMem {p : Char → Prop} [DecidablePred p] (s : List Char) :
    Decidable (∃ c ∈ s, p c) := List.decidableBEx p s

@[simp] theorem isBlank_space : isBlank ' ' = true := by decide

/-! ## The end of a text -/

/-- Trimming the end goes from the first character on. -/
theorem trimEnd_cons (c : Char) (s : List Char) :
    trimEnd (c :: s) = if trimEnd s = [] ∧ isBlank c then [] else c :: trimEnd s := by
  simp only [trimEnd, List.reverse_cons, List.dropWhile_append, List.reverse_eq_nil_iff]
  cases hs : List.dropWhile isBlank s.reverse with
  | nil => by_cases hc : isBlank c <;> simp [hc]
  | cons d r => simp

/-- Nothing is left of blanks. -/
theorem trimEnd_of_blank {s : List Char} (h : ∀ c ∈ s, isBlank c) : trimEnd s = [] := by
  induction s with
  | nil => rfl
  | cons c s ih => rw [trimEnd_cons, if_pos ⟨ih fun d hd => h d (List.mem_cons_of_mem c hd), h c List.mem_cons_self⟩]

/-- A character that is no blank stays, with what is left of the text behind it. -/
theorem trimEnd_cons_of_not_blank {c : Char} (h : isBlank c = false) (s : List Char) : trimEnd (c :: s) = c :: trimEnd s := by
  simp [trimEnd_cons, h]

/-- A text that ends in something else than a blank stays, with what is left of the text behind it. -/
theorem trimEnd_append {w : List Char} {c : Char} (h : isBlank c = false) (s : List Char) :
    trimEnd (w ++ c :: s) = w ++ c :: trimEnd s := by
  induction w with
  | nil => exact trimEnd_cons_of_not_blank h s
  | cons d w ih => simp [trimEnd_cons, ih]

/-- Trimming twice is trimming once. What is left starts with something else than a blank, and so does what is left of that. -/
theorem trim_trim (s : List Char) : trim (trim s) = trim s := by
  have hend : ∀ r, trimEnd (trimEnd r) = trimEnd r := by
    intro r
    rw [trimEnd, trimEnd, List.reverse_reverse, List.dropWhile_idempotent]
  unfold trim
  cases hs : s.dropWhile isBlank with
  | nil => rfl
  | cons c r =>
    have hc : isBlank c = false := by simpa [hs] using List.head?_dropWhile_not isBlank s
    rw [trimEnd_cons_of_not_blank hc, List.dropWhile_cons_of_neg (by simp [hc]), trimEnd_cons_of_not_blank hc, hend]

/-- Blanks at the end have no part in the trimmed text. -/
theorem trim_append_blanks {w : List Char} (hw : ∀ c ∈ w, isBlank c) (s : List Char) : trim (s ++ w) = trim s := by
  have hend : ∀ s, trimEnd (s ++ w) = trimEnd s := fun s => by
    rw [trimEnd, List.reverse_append, List.dropWhile_append_of_pos fun c hc => hw c (List.mem_reverse.mp hc), trimEnd]
  rw [trim, List.dropWhile_append, trim]
  split
  · rename_i hs
    rw [List.isEmpty_iff.mp hs, List.dropWhile_eq_nil_iff.mpr hw]
  · exact hend _

/-- A character at the end that is no blank stays there. -/
theorem trim_concat {c : Char} (hc : isBlank c = false) (s : List Char) : ∃ s', trim (s ++ [c]) = s' ++ [c] := by
  rw [trim, List.dropWhile_append]
  split
  · rw [List.dropWhile_cons_of_neg (by simp [hc])]
    exact ⟨[], trimEnd_append (w := []) hc []⟩
  · exact ⟨_, trimEnd_append hc []⟩

/-- A text that does not start with a blank is trimmed at its end alone. -/
theorem trim_cons {c : Char} (hc : isBlank c = false) (s : List Char) : trim (c :: s) = c :: trimEnd s := by
  rw [trim, List.dropWhile_cons_of_neg (by simp [hc]), trimEnd_cons_of_not_blank hc]

/-! ## Runs of characters -/

/-- A run of characters of a kind stops where two texts meet, unless one of the kind stands on both sides. -/
theorem takeWhile_append_of_stop {kind : Char → Bool} {p q : List Char} (h : (∀ c ∈ p, kind c) → ∀ c ∈ q.head?, ¬kind c) :
    (p ++ q).takeWhile kind = p.takeWhile kind := by
  induction p with
  | nil =>
    cases q with
    | nil => rfl
    | cons c q => exact List.takeWhile_cons_of_neg (h (by simp) c rfl)
  | cons c p ih =>
    rw [List.cons_append, List.takeWhile_cons, List.takeWhile_cons]
    split
    · rename_i hc
      rw [ih fun hp => h (List.forall_mem_cons.mpr ⟨hc, hp⟩)]
    · rfl

/-- What is no blank stays. -/
theorem squeeze_cons_of_not_blank {c : Char} (h : isBlank c = false) (s : List Char) : squeeze (c :: s) = c :: squeeze s := by
  simp [squeeze, h]

/-- A text without blanks stays before another. -/
theorem squeeze_append {w : List Char} (h : ∀ c ∈ w, isBlank c = false) (s : List Char) : squeeze (w ++ s) = w ++ squeeze s := by
  induction w with
  | nil => rfl
  | cons c w ih =>
    rw [List.cons_append, squeeze_cons_of_not_blank (h c (by simp)), ih (fun d hd => h d (by simp [hd]))]
    rfl

/-- A blank before a squeezed text is a space, unless the text starts with one. -/
theorem squeeze_cons_of_blank {c : Char} (h : isBlank c) (s : List Char) :
    squeeze (c :: s) = ' ' :: squeeze s ∨ squeeze (c :: s) = squeeze s := by
  simp only [squeeze, h, if_true]
  split
  · rename_i r hr
    exact Or.inr hr.symm
  · exact Or.inl rfl

/-- A text that starts with a blank is squeezed to one that starts with a space. -/
theorem head?_squeeze_of_blank {c : Char} (h : isBlank c) (s : List Char) : (squeeze (c :: s)).head? = some ' ' := by
  simp only [squeeze, h, if_true]
  split <;> rfl

/-- A character that is no blank and starts a trimmed or squeezed text starts the text itself. -/
theorem head?_of_head?_squeeze {c : Char} (h : isBlank c = false) {s : List Char} (hs : (squeeze s).head? = some c) :
    s.head? = some c := by
  cases s with
  | nil => exact hs
  | cons d s =>
    by_cases hd : isBlank d
    · rw [head?_squeeze_of_blank hd] at hs
      obtain rfl := Option.some.inj hs
      simp at h
    · rw [squeeze_cons_of_not_blank (by simpa using hd)] at hs
      exact hs

/-- A text trimmed at its end starts as it did, if anything is left. -/
theorem head?_of_head?_trimEnd {c : Char} {s : List Char} (hs : (trimEnd s).head? = some c) : s.head? = some c := by
  cases s with
  | nil => exact hs
  | cons d s =>
    rw [trimEnd_cons] at hs
    split at hs
    · simp at hs
    · exact hs

/-! ## What stays -/

/-- What is no blank is not lost when blanks are squeezed. -/
theorem mem_squeeze {c : Char} (h : isBlank c = false) {s : List Char} (hc : c ∈ s) : c ∈ squeeze s := by
  induction s with
  | nil => exact hc
  | cons d s ih =>
    by_cases hd : isBlank d
    · have hs : c ∈ s := by
        rcases List.mem_cons.mp hc with rfl | hs
        · rw [h] at hd
          cases hd
        · exact hs
      rcases squeeze_cons_of_blank hd s with he | he
      · rw [he]
        exact List.mem_cons_of_mem _ (ih hs)
      · rw [he]
        exact ih hs
    · rw [squeeze_cons_of_not_blank (by simpa using hd)]
      rcases List.mem_cons.mp hc with rfl | hs
      · exact List.mem_cons_self
      · exact List.mem_cons_of_mem _ (ih hs)

/-- What is no blank is not lost when blanks are dropped. -/
theorem mem_dropWhile {c : Char} (h : isBlank c = false) {s : List Char} (hc : c ∈ s) : c ∈ s.dropWhile isBlank := by
  rw [← List.takeWhile_append_dropWhile (p := isBlank) (l := s), List.mem_append] at hc
  rcases hc with hc | hc
  · rw [List.mem_takeWhile_imp hc] at h
    cases h
  · exact hc

/-- Trimming and squeezing lose nothing but blanks. -/
theorem mem_collapse {c : Char} (h : isBlank c = false) {s : List Char} (hc : c ∈ s) : c ∈ collapse s := by
  have hr := mem_dropWhile h (List.mem_reverse.mpr (mem_dropWhile h (mem_squeeze h hc)))
  exact List.mem_reverse.mpr hr

end Propositional.Text
