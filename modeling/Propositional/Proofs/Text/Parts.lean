import Propositional.Proofs.Text.Lines

/-!
# The parts of a text

Cutting a text at the separators outside brackets loses nothing and can be done piece by piece (`splitTopLevel_lossless`). The
depth of brackets is counted on through the whole text, but a cut is made at depth zero only, so each part sees the depth that
it would have by itself. The depth shows whether a bracket is open, whatever kinds of brackets were closed (`hasOpen_iff`).
-/

namespace Propositional.Text

/-! ## Open brackets -/

/-- How many brackets of either kind are opened in a text. -/
def opened (s : List Char) : Nat := s.count '(' + s.count '{'

/-- How many brackets of either kind are closed in a text. -/
def closed (s : List Char) : Nat := s.count ')' + s.count '}'

theorem opened_cons (c : Char) (s : List Char) : opened (c :: s) = opened [c] + opened s := by
  simp only [opened, List.count_cons, List.count_nil]
  omega

theorem closed_cons (c : Char) (s : List Char) : closed (c :: s) = closed [c] + closed s := by
  simp only [closed, List.count_cons, List.count_nil]
  omega

/-- A character opens a bracket, or closes one, or is none. -/
theorem depthAfter_cases (d : Nat) (c : Char) :
    (c = '(' ∨ c = '{') ∧ depthAfter d c = d + 1 ∧ opened [c] = 1 ∧ closed [c] = 0 ∨
      depthAfter d c = d - 1 ∧ opened [c] = 0 ∧ closed [c] = 1 ∨ depthAfter d c = d ∧ opened [c] = 0 ∧ closed [c] = 0 := by
  by_cases hopen : c = '(' ∨ c = '{'
  · left
    rcases hopen with rfl | rfl <;> exact ⟨by decide, rfl, rfl, rfl⟩
  · right
    by_cases hclose : c = ')' ∨ c = '}'
    · left
      rcases hclose with rfl | rfl <;> exact ⟨rfl, rfl, rfl⟩
    · right
      rw [not_or] at hopen hclose
      simp [depthAfter, opened, closed, hopen, hclose]

/-- The depth is at least the number of brackets that were open before and those that are opened, less those that are closed. -/
theorem le_foldl_depthAfter (s : List Char) (d : Nat) : d + opened s ≤ closed s + s.foldl depthAfter d := by
  induction s generalizing d with
  | nil => simp [opened]
  | cons c s ih =>
    have ih := ih (depthAfter d c)
    rw [opened_cons, closed_cons, List.foldl_cons]
    rcases depthAfter_cases d c with ⟨-, hd, ho, hc⟩ | ⟨hd, ho, hc⟩ | ⟨hd, ho, hc⟩ <;> rw [hd] at ih ⊢ <;> omega

/-- Some bracket of the text is open at its end: behind it, no more brackets are ever closed than opened. -/
def HasOpen (p : List Char) : Prop :=
  ∃ a b c, p = a ++ b :: c ∧ (b = '(' ∨ b = '{') ∧ ∀ c₁, c₁ <+: c → closed c₁ ≤ opened c₁

/-- A bracket that is open is so with one more character before the text. -/
theorem HasOpen.cons {p : List Char} (h : HasOpen p) (c : Char) : HasOpen (c :: p) := by
  obtain ⟨a, b, r, rfl, hb, hr⟩ := h
  exact ⟨c :: a, b, r, rfl, hb, hr⟩

/-- Where the depth is not zero, a bracket of the text is open, or one of those that were open before it. A bracket that opens is
the one that is open, unless brackets were open before it. -/
theorem hasOpen_or_of_depth {p : List Char} {d : Nat} (h : p.foldl depthAfter d ≠ 0) :
    HasOpen p ∨ ∀ p₁, p₁ <+: p → closed p₁ < d + opened p₁ := by
  induction p generalizing d with
  | nil =>
    right
    intro p₁ hp
    rw [List.prefix_nil.mp hp]
    simpa [opened, closed, Nat.pos_iff_ne_zero] using h
  | cons c p ih =>
    rcases ih (d := depthAfter d c) h with hopen | hdepth
    · exact .inl (hopen.cons c)
    · have hstart : 0 < depthAfter d c := by simpa [opened, closed] using hdepth [] List.nil_prefix
      have hinitial : 0 < d → ∀ p₁, p₁ <+: c :: p → closed p₁ < d + opened p₁ := by
        intro hd p₁ hp
        rcases List.prefix_cons_iff.mp hp with rfl | ⟨p₂, rfl, hp₂⟩
        · simpa [opened, closed] using hd
        · have hp₂ := hdepth p₂ hp₂
          rw [opened_cons, closed_cons]
          rcases depthAfter_cases d c with ⟨-, hd, ho, hc⟩ | ⟨hd, ho, hc⟩ | ⟨hd, ho, hc⟩ <;> rw [hd] at hp₂ hstart <;> omega
      rcases depthAfter_cases d c with ⟨hb, hd, -⟩ | ⟨hd, -⟩ | ⟨hd, -⟩
      · rcases Nat.eq_zero_or_pos d with rfl | hpos
        · refine .inl ⟨[], c, p, rfl, hb, fun p₁ hp => ?_⟩
          have := hdepth p₁ hp
          omega
        · exact .inr (hinitial hpos)
      · exact .inr (hinitial (by omega))
      · exact .inr (hinitial (by omega))

/-- A bracket is open exactly where the depth is not zero. -/
theorem hasOpen_iff (p : List Char) : HasOpen p ↔ p.foldl depthAfter 0 ≠ 0 := by
  constructor
  · rintro ⟨a, b, c, rfl, hb, hc⟩
    have hle := le_foldl_depthAfter c (depthAfter (a.foldl depthAfter 0) b)
    have hc := hc c (List.prefix_refl c)
    rw [List.foldl_append, List.foldl_cons]
    have hpos : 0 < depthAfter (a.foldl depthAfter 0) b := by
      rcases hb with rfl | rfl <;> exact Nat.succ_pos _
    omega
  · intro h
    rcases hasOpen_or_of_depth h with hopen | hnone
    · exact hopen
    · exact absurd (hnone [] List.nil_prefix) (by simp [opened, closed])

/-! ## Cutting -/

/-- What a text is cut into shows in the parts of a longer text: all but the last part are parts of that as well, and its last
part goes on with the first part of what stands behind. -/
theorem exists_splitTopLevelFrom_append (sep : List Char) (p : List Char) (d : Nat) :
    ∃ before last, splitTopLevelFrom sep d p = before ++ [last] ∧ ∀ q first after,
      splitTopLevelFrom sep (p.foldl depthAfter d) q = first :: after →
        splitTopLevelFrom sep d (p ++ q) = before ++ (last ++ first) :: after := by
  induction p generalizing d with
  | nil => exact ⟨[], [], rfl, fun q first after h => h⟩
  | cons c p ih =>
    obtain ⟨before, last, hp, hq⟩ := ih (depthAfter d c)
    by_cases hcut : [c] = sep ∧ depthAfter d c = 0
    · refine ⟨[] :: before, last, ?_, fun q first after h => ?_⟩
      · rw [splitTopLevelFrom, if_pos hcut, hp, List.cons_append]
      · rw [List.cons_append, splitTopLevelFrom, if_pos hcut, hq q first after h, List.cons_append]
    · cases before with
      | nil =>
        refine ⟨[], c :: last, ?_, fun q first after h => ?_⟩
        · rw [splitTopLevelFrom, if_neg hcut, hp]
          rfl
        · rw [List.cons_append, splitTopLevelFrom, if_neg hcut, hq q first after h]
          rfl
      | cons part before =>
        refine ⟨(c :: part) :: before, last, ?_, fun q first after h => ?_⟩
        · rw [splitTopLevelFrom, if_neg hcut, hp]
          rfl
        · rw [List.cons_append, splitTopLevelFrom, if_neg hcut, hq q first after h]
          rfl

/-- The parts of a text are not cut again: the first one not at the depth at which the text starts, and the others not by
themselves. -/
theorem splitTopLevelFrom_of_parts (sep : List Char) {s : List Char} : ∀ {d : Nat} {part : List Char} {parts : List (List Char)},
    splitTopLevelFrom sep d s = part :: parts →
      splitTopLevelFrom sep d part = [part] ∧ ∀ q ∈ parts, splitTopLevel sep q = [q] := by
  induction s with
  | nil =>
    intro d part parts h
    obtain ⟨rfl, rfl⟩ := List.cons.inj h
    exact ⟨rfl, by simp⟩
  | cons c s ih =>
    intro d part parts h
    obtain ⟨first, rest, hs⟩ := exists_splitTopLevelFrom_eq_cons sep (depthAfter d c) s
    obtain ⟨hfirst, hrest⟩ := ih hs
    rw [splitTopLevelFrom, hs] at h
    split at h
    · rename_i hcut
      obtain ⟨rfl, rfl⟩ := List.cons.inj h
      rw [hcut.2] at hfirst
      exact ⟨rfl, List.forall_mem_cons.mpr ⟨hfirst, hrest⟩⟩
    · rename_i hcut
      obtain ⟨rfl, rfl⟩ := List.cons.inj h
      refine ⟨?_, hrest⟩
      rw [splitTopLevelFrom, if_neg hcut, hfirst]
      rfl

/-- A part is not cut again. -/
theorem splitTopLevel_of_mem {sep s q : List Char} (h : q ∈ splitTopLevel sep s) : splitTopLevel sep q = [q] := by
  obtain ⟨part, parts, hs⟩ := exists_splitTopLevelFrom_eq_cons sep 0 s
  obtain ⟨hpart, hparts⟩ := splitTopLevelFrom_of_parts sep hs
  rw [splitTopLevel, hs] at h
  rcases List.mem_cons.mp h with rfl | h
  · exact hpart
  · exact hparts q h

/-- The parts between top-level separators make up the text again. -/
theorem joinWith_splitTopLevelFrom (sep s : List Char) (d : Nat) : joinWith sep (splitTopLevelFrom sep d s) = s := by
  induction s generalizing d with
  | nil => rfl
  | cons c s ih =>
    rw [splitTopLevelFrom]
    split
    · rename_i hcut
      obtain ⟨part, parts, hs⟩ := exists_splitTopLevelFrom_eq_cons sep (depthAfter d c) s
      rw [joinWith_cons (by rw [hs]; simp), ih, ← hcut.1]
      rfl
    · rw [joinWith_pushFirst, ih]

/-- How many times a character stands outside brackets in a text that starts at a depth of brackets. -/
def outerCount (x : Char) (d : Nat) (s : List Char) : Nat :=
  (List.range s.length).countP fun i => s[i]? = some x ∧ (s.take i).foldl depthAfter d = 0

/-- Separators outside brackets are counted character by character. -/
theorem outerCount_cons (x : Char) (d : Nat) (c : Char) (s : List Char) :
    outerCount x d (c :: s) = outerCount x (depthAfter d c) s + if c = x ∧ d = 0 then 1 else 0 := by
  rw [outerCount, List.length_cons, List.range_succ_eq_map, List.countP_cons, List.countP_map]
  congr 1
  simp

section Separator

variable {x : Char} (hx : isFlat x)

include hx

/-- There is one part more than there are separators outside brackets. -/
theorem length_splitTopLevelFrom (s : List Char) (d : Nat) : (splitTopLevelFrom [x] d s).length = 1 + outerCount x d s := by
  induction s generalizing d with
  | nil => rfl
  | cons c s ih =>
    have ih := ih (depthAfter d c)
    obtain ⟨part, parts, hs⟩ := exists_splitTopLevelFrom_eq_cons [x] (depthAfter d c) s
    have hcut : [c] = [x] ∧ depthAfter d c = 0 ↔ c = x ∧ d = 0 := by
      refine ⟨fun ⟨he, hd⟩ => ?_, fun ⟨he, hd⟩ => ?_⟩
      · obtain rfl : c = x := by simpa using he
        rw [depthAfter_of_isFlat hx] at hd
        exact ⟨rfl, hd⟩
      · subst he
        rw [depthAfter_of_isFlat hx]
        exact ⟨rfl, hd⟩
    rw [outerCount_cons, splitTopLevelFrom]
    split
    · rename_i h
      rw [if_pos (hcut.mp h), List.length_cons, ih]
      omega
    · rename_i h
      rw [hs] at ih ⊢
      rw [if_neg (mt hcut.mpr h), pushFirst, Nat.add_zero, ← ih, List.length_cons, List.length_cons]

/-- A separator behind a text that closes what it opens cuts it from what follows. -/
theorem splitTopLevel_append {p : List Char} (hp : p.foldl depthAfter 0 = 0) (q : List Char) :
    splitTopLevel [x] (p ++ x :: q) = splitTopLevel [x] p ++ splitTopLevel [x] q := by
  obtain ⟨before, last, hbefore, happend⟩ := exists_splitTopLevelFrom_append [x] p 0
  have hcut : splitTopLevelFrom [x] (p.foldl depthAfter 0) (x :: q) = [] :: splitTopLevel [x] q := by
    rw [hp, splitTopLevelFrom, depthAfter_of_isFlat hx, if_pos ⟨rfl, rfl⟩, splitTopLevel]
  rw [splitTopLevel, happend _ _ _ hcut, show splitTopLevel [x] p = before ++ [last] from hbefore, List.append_nil,
    List.append_assoc, List.singleton_append]

end Separator

/-- A text is cut at a separator, which is no bracket, wherever that stands outside brackets. Joining the parts gives back the
text, no part is cut again, and there is one part more than separators outside brackets. A separator behind a text that leaves
no bracket open divides the parts of that text from those of what stands behind; a separator in an open bracket is no cut, it
stands in the part that the last part of the text before and the first part of the text behind it make up. -/
theorem splitTopLevel_lossless {x : Char} (hx : isFlat x) :
    (∀ s, joinWith [x] (splitTopLevel [x] s) = s) ∧
    (∀ s, ∀ q ∈ splitTopLevel [x] s, splitTopLevel [x] q = [q]) ∧
    (∀ s, (splitTopLevel [x] s).length = 1 + outerCount x 0 s) ∧
    (∀ p q, p.foldl depthAfter 0 = 0 → splitTopLevel [x] (p ++ x :: q) = splitTopLevel [x] p ++ splitTopLevel [x] q) ∧
    ∀ p q, HasOpen p → ∃ before last first after, splitTopLevel [x] p = before ++ [last] ∧
      splitTopLevelFrom [x] (p.foldl depthAfter 0) q = first :: after ∧
      splitTopLevel [x] (p ++ x :: q) = before ++ (last ++ x :: first) :: after := by
  refine ⟨fun s => joinWith_splitTopLevelFrom [x] s 0, fun s q => splitTopLevel_of_mem,
    fun s => length_splitTopLevelFrom hx s 0, fun p q hp => splitTopLevel_append hx hp q, fun p q hp => ?_⟩
  obtain ⟨before, last, hbefore, happend⟩ := exists_splitTopLevelFrom_append [x] p 0
  obtain ⟨first, after, hq⟩ := exists_splitTopLevelFrom_eq_cons [x] (p.foldl depthAfter 0) q
  have hkept : splitTopLevelFrom [x] (p.foldl depthAfter 0) (x :: q) = (x :: first) :: after := by
    rw [splitTopLevelFrom, depthAfter_of_isFlat hx, if_neg fun h => (hasOpen_iff p).mp hp h.2, hq, pushFirst]
  exact ⟨before, last, first, after, hbefore, hq, happend _ _ _ hkept⟩

/-- A text with a parenthesis that closes nothing, and a parenthesis that is closed by a brace. -/
theorem splitTopLevel_lossless_mixed : isFlat '=' ∧
    splitTopLevel ['='] "A)=(B=C\x7d=D".toList = ["A)".toList, "(B=C\x7d".toList, "D".toList] ∧
    joinWith ['='] (splitTopLevel ['='] "A)=(B=C\x7d=D".toList) = "A)=(B=C\x7d=D".toList ∧
    splitTopLevel ['='] "(B=C\x7d".toList = ["(B=C\x7d".toList] ∧
    (splitTopLevel ['='] "A)=(B=C\x7d=D".toList).length = 1 + outerCount '=' 0 "A)=(B=C\x7d=D".toList ∧
    splitTopLevel ['='] ("A)".toList ++ '=' :: "(B=C\x7d=D".toList) =
      splitTopLevel ['='] "A)".toList ++ splitTopLevel ['='] "(B=C\x7d=D".toList ∧
    HasOpen "A)=(B".toList ∧ ∃ before last first after, splitTopLevel ['='] "A)=(B".toList = before ++ [last] ∧
      splitTopLevelFrom ['='] 1 "C\x7d=D".toList = first :: after ∧
      splitTopLevel ['='] ("A)=(B".toList ++ '=' :: "C\x7d=D".toList) = before ++ (last ++ '=' :: first) :: after := by
  have hflat : isFlat '=' := by decide
  have hparts : splitTopLevel ['='] "A)=(B=C\x7d=D".toList = ["A)".toList, "(B=C\x7d".toList, "D".toList] := by decide
  have hopen : HasOpen "A)=(B".toList := (hasOpen_iff _).mpr (by decide)
  obtain ⟨hjoin, honce, hcount, hcut, hkept⟩ := splitTopLevel_lossless hflat
  exact ⟨hflat, hparts, hjoin _, honce _ _ (by rw [hparts]; simp), hcount _, hcut _ _ (by decide), hopen, hkept _ _ hopen⟩

end Propositional.Text
