import Mathlib.Algebra.GroupWithZero.Nat
import Propositional.Proofs.Text.Lines

/-!
# Joined parts

What parts are joined to shows which parts they were: by their lengths, whatever the parts and the separator hold
(`joinWith_inj`), or by the separator, if it is a character that the parts do not hold (`splitAtChar_joinWith`).
-/

namespace Propositional.Text

/-- The length of parts that are joined. -/
theorem length_joinWith (sep : List Char) (ps : List (List Char)) :
    (joinWith sep ps).length = (ps.map List.length).sum + sep.length * (ps.length - 1) := by
  induction ps with
  | nil => rfl
  | cons p ps ih =>
    by_cases hne : ps = []
    · subst hne
      simp [joinWith]
    · obtain ⟨n, hn⟩ : ∃ n, ps.length = n + 1 := Nat.exists_eq_add_one.mpr (List.length_pos_iff.mpr hne)
      rw [joinWith_cons hne, List.length_append, List.length_append, ih, List.map_cons, List.sum_cons, List.length_cons, hn,
        Nat.add_sub_cancel, Nat.add_sub_cancel, Nat.mul_succ]
      omega

/-- A character of parts that are joined is one of the separator or of a part. -/
theorem mem_joinWith {sep : List Char} {ps : List (List Char)} {c : Char} (h : c ∈ joinWith sep ps) :
    c ∈ sep ∨ ∃ p ∈ ps, c ∈ p := by
  induction ps with
  | nil => cases h
  | cons p ps ih =>
    by_cases hne : ps = []
    · subst hne
      exact .inr ⟨p, by simp, h⟩
    · rw [joinWith_cons hne, List.mem_append, List.mem_append] at h
      rcases h with (h | h) | h
      · exact .inr ⟨p, by simp, h⟩
      · exact .inl h
      · rcases ih h with hsep | ⟨q, hq, hc⟩
        · exact .inl hsep
        · exact .inr ⟨q, List.mem_cons_of_mem p hq, hc⟩

/-- What the separator does not hold is in the parts. -/
theorem count_joinWith {sep : List Char} {c : Char} (hsep : c ∉ sep) (ps : List (List Char)) :
    (joinWith sep ps).count c = (ps.map (List.count c)).sum := by
  induction ps with
  | nil => rfl
  | cons p ps ih =>
    by_cases hne : ps = []
    · subst hne
      simp [joinWith]
    · rw [joinWith_cons hne, List.count_append, List.count_append, List.count_eq_zero.mpr hsep, ih, List.map_cons, List.sum_cons,
        Nat.add_zero]

/-- Parts of the same lengths are the same if they are joined to the same text. -/
theorem joinWith_inj {sep : List Char} {ps : List (List Char)} :
    ∀ {qs : List (List Char)}, ps.map List.length = qs.map List.length → joinWith sep ps = joinWith sep qs → ps = qs := by
  induction ps with
  | nil =>
    intro qs hlength _
    rw [List.map_nil, eq_comm, List.map_eq_nil_iff] at hlength
    exact hlength.symm
  | cons p ps ih =>
    intro qs hlength h
    obtain ⟨q, qs, rfl, hp, hps⟩ := List.map_eq_cons_iff.mp hlength.symm
    by_cases hne : ps = []
    · subst hne
      obtain rfl : qs = [] := by simpa using hps
      exact congrArg ([·]) h
    · have hne' : qs ≠ [] := by
        rintro rfl
        exact hne (by simpa using hps.symm)
      rw [joinWith_cons hne, joinWith_cons hne', List.append_assoc, List.append_assoc] at h
      obtain ⟨rfl, hrest⟩ := List.append_inj h hp.symm
      rw [ih hps.symm (List.append_cancel_left hrest)]

/-! ## Cutting -/

section Cutting

variable {x : Char}

/-- A text without the separator is one part. -/
theorem splitAtChar_of_notMem {s : List Char} (h : x ∉ s) : splitAtChar x s = [s] := by
  induction s with
  | nil => rfl
  | cons c s ih =>
    rw [List.mem_cons, not_or] at h
    rw [splitAtChar, if_neg (Ne.symm h.1), ih h.2, pushFirst]

/-- No part of a text holds the character at which it is cut. -/
theorem notMem_of_mem_splitAtChar {s p : List Char} (h : p ∈ splitAtChar x s) : x ∉ p := by
  induction s generalizing p with
  | nil =>
    rw [List.mem_singleton.mp h]
    exact List.not_mem_nil
  | cons c s ih =>
    rw [splitAtChar] at h
    split_ifs at h with hc
    · rcases List.mem_cons.mp h with rfl | h
      · exact List.not_mem_nil
      · exact ih h
    · cases hs : splitAtChar x s with
      | nil =>
        rw [hs] at h
        rw [List.mem_singleton.mp h, List.mem_singleton]
        exact Ne.symm hc
      | cons q qs =>
        rw [hs] at h ih
        rcases List.mem_cons.mp h with rfl | h
        · rw [List.mem_cons, not_or]
          exact ⟨Ne.symm hc, ih List.mem_cons_self⟩
        · exact ih (List.mem_cons_of_mem q h)

/-- Two texts with the separator between them have the parts of both. -/
theorem splitAtChar_append (p q : List Char) : splitAtChar x (p ++ x :: q) = splitAtChar x p ++ splitAtChar x q := by
  induction p with
  | nil => exact if_pos rfl
  | cons c p ih =>
    rw [List.cons_append, splitAtChar, splitAtChar, ih]
    split
    · rfl
    · obtain ⟨part, parts, hp⟩ := List.exists_cons_of_ne_nil (splitAtChar_ne_nil x p)
      rw [hp]
      rfl

/-- Joined parts are cut where the parts are, and where they were joined. -/
theorem splitAtChar_joinWith {ps : List (List Char)} (hne : ps ≠ []) :
    splitAtChar x (joinWith [x] ps) = ps.flatMap (splitAtChar x) := by
  induction ps with
  | nil => exact absurd rfl hne
  | cons p ps ih =>
    by_cases hps : ps = []
    · subst hps
      rw [List.flatMap_singleton]
      rfl
    · rw [joinWith_cons hps, List.append_assoc, List.singleton_append, splitAtChar_append, ih hps, List.flatMap_cons]

/-- Parts without the separator stay as they are. -/
theorem flatMap_splitAtChar {ps : List (List Char)} (h : ∀ p ∈ ps, x ∉ p) : ps.flatMap (splitAtChar x) = ps := by
  induction ps with
  | nil => rfl
  | cons p ps ih =>
    obtain ⟨hp, hps⟩ := List.forall_mem_cons.mp h
    rw [List.flatMap_cons, splitAtChar_of_notMem hp, ih hps, List.singleton_append]

end Cutting

end Propositional.Text
