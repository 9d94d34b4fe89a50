import Mathlib.Data.List.Forall2
import Propositional.Proofs.Text.Blank
import Propositional.Text.Split

/-!
# Lines and parts

Trimming the lines of a text and leaving out those that hold nothing changes its blanks, but it neither joins words nor cuts them
(`respaced_trimLines`). A text is cut at the same separators whatever its blanks are, and its parts differ in blanks only
(`splitTopLevelFrom_respaced`).
-/

namespace Propositional.Text

/-- The texts differ in blanks only: where one has some, the other has some as well, except at the end. -/
inductive Respaced : List Char → List Char → Prop where
  | blanks {w w' : List Char} : (∀ c ∈ w, isBlank c) → (∀ c ∈ w', isBlank c) → Respaced w w'
  | char {c : Char} {s t : List Char} : isBlank c = false → Respaced s t → Respaced (c :: s) (c :: t)
  | gap {w w' s t : List Char} : w ≠ [] → w' ≠ [] → (∀ c ∈ w, isBlank c) → (∀ c ∈ w', isBlank c) → Respaced s t →
      Respaced (w ++ s) (w' ++ t)

namespace Respaced

variable {s t : List Char}

theorem append_left (p : List Char) (h : Respaced s t) : Respaced (p ++ s) (p ++ t) := by
  induction p with
  | nil => exact h
  | cons c p ih =>
    cases hc : isBlank c with
    | false => exact .char hc ih
    | true =>
      have hblank : ∀ d ∈ [c], isBlank d := by simpa using hc
      have hgap : Respaced ([c] ++ (p ++ s)) ([c] ++ (p ++ t)) := .gap (by simp) (by simp) hblank hblank ih
      exact hgap

theorem refl (s : List Char) : Respaced s s := by
  have h : Respaced (s ++ []) (s ++ []) := append_left s (.blanks (by simp) (by simp))
  rwa [List.append_nil] at h

/-- The first character that is no blank stands behind blanks in both texts. The gap ends before the character, so it is where the
blanks start. -/
theorem exists_of_cons (h : Respaced s t) : ∀ {w s' : List Char} {c : Char}, s = w ++ c :: s' → (∀ d ∈ w, isBlank d) →
    isBlank c = false → ∃ w' t', t = w' ++ c :: t' ∧ (∀ d ∈ w', isBlank d) ∧ (w = [] → w' = []) ∧ Respaced s' t' := by
  induction h with
  | @blanks v v' hv hv' =>
    rintro w s' c rfl hw hc
    rw [hv c (by simp)] at hc
    cases hc
  | @char d s t hd h ih =>
    intro w s' c he hw hc
    cases w with
    | nil =>
      obtain ⟨rfl, rfl⟩ := List.cons.inj he
      exact ⟨[], t, rfl, by simp, fun _ => rfl, h⟩
    | cons e w =>
      obtain ⟨rfl, -⟩ := List.cons.inj he
      rw [hw d List.mem_cons_self] at hd
      cases hd
  | @gap v v' s t hne _ hv hv' h ih =>
    intro w s' c he hw hc
    obtain ⟨u, rfl, hs⟩ : ∃ u, w = v ++ u ∧ s = u ++ c :: s' := by
      rcases List.append_eq_append_iff.mp he with ⟨u, hu, hs⟩ | ⟨u, hu, hs⟩
      · exact ⟨u, hu, hs⟩
      · cases u with
        | nil => exact ⟨[], by simpa using hu.symm, by simpa using hs.symm⟩
        | cons d u =>
          obtain ⟨rfl, -⟩ := List.cons.inj hs
          rw [hv c (by simp [hu])] at hc
          cases hc
    obtain ⟨w', t', rfl, hw', -, h'⟩ := ih hs (fun d hd => hw d (by simp [hd])) hc
    refine ⟨v' ++ w', t', by simp, fun d hd => ?_, fun hnil => absurd (List.append_eq_nil_iff.mp hnil).1 hne, h'⟩
    rcases List.mem_append.mp hd with hd | hd
    · exact hv' d hd
    · exact hw' d hd

/-- Characters that are no blanks are the same in both texts. -/
theorem exists_of_append {p s' : List Char} (hp : ∀ c ∈ p, isBlank c = false) (h : Respaced (p ++ s') t) :
    ∃ t', t = p ++ t' ∧ Respaced s' t' := by
  induction p generalizing t with
  | nil => exact ⟨t, rfl, h⟩
  | cons c p ih =>
    obtain ⟨w', t', rfl, -, hnil, h'⟩ := h.exists_of_cons (w := []) rfl (by simp) (hp c List.mem_cons_self)
    obtain ⟨t'', rfl, h''⟩ := ih (fun d hd => hp d (List.mem_cons_of_mem c hd)) h'
    exact ⟨t'', by rw [hnil rfl]; rfl, h''⟩

theorem symm (h : Respaced s t) : Respaced t s := by
  induction h with
  | blanks hw hw' => exact .blanks hw' hw
  | char hc _ ih => exact .char hc ih
  | gap hne hne' hw hw' _ ih => exact .gap hne' hne hw' hw ih

/-- A text that differs from blanks in blanks only is blank. -/
theorem isBlank (h : Respaced s t) (hs : ∀ c ∈ s, isBlank c) : ∀ c ∈ t, isBlank c := by
  induction h with
  | blanks _ hw' => exact hw'
  | @char c s t hc _ _ =>
    rw [hs c List.mem_cons_self] at hc
    cases hc
  | gap _ _ _ hw' _ ih =>
    exact List.forall_mem_append.mpr ⟨hw', ih fun c hc => hs c (List.mem_append_right _ hc)⟩

end Respaced

/-! ## Lines -/

/-- A text is what is trimmed at its end, and blanks. -/
theorem exists_eq_trimEnd_append (s : List Char) : ∃ w, s = trimEnd s ++ w ∧ ∀ c ∈ w, isBlank c := by
  refine ⟨(s.reverse.takeWhile isBlank).reverse, ?_, fun c hc => List.mem_takeWhile_imp (List.mem_reverse.mp hc)⟩
  rw [trimEnd, ← List.reverse_append, List.takeWhile_append_dropWhile, List.reverse_reverse]

/-- Trimming takes blanks from the two ends. -/
theorem exists_eq_append_trim_append (s : List Char) :
    ∃ w w', s = w ++ (trim s ++ w') ∧ (∀ c ∈ w, isBlank c) ∧ ∀ c ∈ w', isBlank c := by
  obtain ⟨w', hw', hblank⟩ := exists_eq_trimEnd_append (s.dropWhile isBlank)
  refine ⟨s.takeWhile isBlank, w', ?_, fun c hc => List.mem_takeWhile_imp hc, hblank⟩
  rw [trim, ← hw', List.takeWhile_append_dropWhile]

/-- A text of which nothing is left is blank. -/
theorem isBlank_of_trim_eq_nil {s : List Char} (h : trim s = []) : ∀ c ∈ s, isBlank c := by
  obtain ⟨w, w', hs, hw, hw'⟩ := exists_eq_append_trim_append s
  rw [h, List.nil_append] at hs
  rw [hs]
  exact List.forall_mem_append.mpr ⟨hw, hw'⟩

/-- Trimming takes away blanks only. -/
theorem count_trim {c : Char} (h : isBlank c = false) (s : List Char) : (trim s).count c = s.count c := by
  obtain ⟨w, w', hs, hw, hw'⟩ := exists_eq_append_trim_append s
  have hnone : ∀ {w : List Char}, (∀ d ∈ w, isBlank d) → w.count c = 0 := fun hw =>
    List.count_eq_zero.mpr fun hc => by rw [hw c hc] at h; cases h
  conv => rhs; rw [hs]
  rw [List.count_append, List.count_append, hnone hw, hnone hw', Nat.zero_add, Nat.add_zero]

/-- The first of parts that are joined, with the separator before the others. -/
theorem joinWith_cons {sep p : List Char} {ps : List (List Char)} (h : ps ≠ []) :
    joinWith sep (p :: ps) = p ++ sep ++ joinWith sep ps := by
  cases ps with
  | nil => exact absurd rfl h
  | cons q ps => rfl

/-- Leaving out characters of a kind leaves them out of each part. -/
theorem filter_joinWith {keep : Char → Bool} {x : Char} (hx : keep x) (ps : List (List Char)) :
    (joinWith [x] ps).filter keep = joinWith [x] (ps.map (·.filter keep)) := by
  induction ps with
  | nil => rfl
  | cons p ps ih =>
    by_cases hne : ps = []
    · subst hne
      rfl
    · rw [joinWith_cons hne, List.map_cons, joinWith_cons (by simpa using hne), List.filter_append, List.filter_append, ih]
      simp [hx]

/-- Lines that are trimmed, and joined without those that hold nothing, differ from the lines in blanks only. A line is blank and
left out, or ends in blanks that go on to the next word. -/
theorem respaced_lines (ls : List (List Char)) :
    Respaced ((joinWith ['\n'] ls).dropWhile isBlank) (joinWith ['\n'] ((ls.map trim).filter (!·.isEmpty))) := by
  induction ls with
  | nil => exact .blanks (by simp [joinWith]) (by simp [joinWith])
  | cons l ls ih =>
    obtain ⟨w, hw, hblank⟩ := exists_eq_trimEnd_append (l.dropWhile isBlank)
    rw [show trimEnd (l.dropWhile isBlank) = trim l from rfl] at hw
    obtain ⟨rest, hrest⟩ : ∃ rest, rest = (ls.map trim).filter (!·.isEmpty) := ⟨_, rfl⟩
    rw [← hrest] at ih
    rw [List.map_cons, List.filter_cons, ← hrest]
    by_cases hls : ls = []
    · subst hls
      obtain rfl : rest = [] := hrest
      have hline : joinWith ['\n'] (if (!(trim l).isEmpty) = true then [trim l] else []) = trim l := by
        cases htrim : trim l <;> rfl
      rw [hline, show joinWith ['\n'] [l] = l from rfl, hw]
      have hend : Respaced w [] := .blanks hblank (by simp)
      simpa using hend.append_left (trim l)
    · rw [joinWith_cons hls]
      obtain ⟨s, hs⟩ : ∃ s, s = joinWith ['\n'] ls := ⟨_, rfl⟩
      rw [← hs] at ih ⊢
      by_cases htrim : trim l = []
      · have hline : ∀ c ∈ l ++ ['\n'], isBlank c := by
          refine List.forall_mem_append.mpr ⟨isBlank_of_trim_eq_nil htrim, by decide⟩
        rw [List.dropWhile_append_of_pos hline, htrim]
        exact ih
      · have hgap : ∀ c ∈ w ++ '\n' :: s.takeWhile isBlank, isBlank c := by
          refine List.forall_mem_append.mpr ⟨hblank, List.forall_mem_cons.mpr ⟨by decide, ?_⟩⟩
          exact fun c hc => List.mem_takeWhile_imp hc
        have hdrop : (l ++ ['\n'] ++ s).dropWhile isBlank =
            trim l ++ ((w ++ '\n' :: s.takeWhile isBlank) ++ s.dropWhile isBlank) := by
          have hne : l.dropWhile isBlank ≠ [] := by
            rw [hw]
            exact fun h => htrim (List.append_eq_nil_iff.mp h).1
          rw [List.append_assoc, List.dropWhile_append, if_neg (by simpa using hne), hw]
          simp [List.takeWhile_append_dropWhile]
        rw [hdrop, if_pos (by simpa using htrim)]
        cases rest with
        | nil =>
          have hs : ∀ c ∈ s.dropWhile isBlank, isBlank c := ih.symm.isBlank (by simp [joinWith])
          have hend : Respaced _ [] := .blanks (List.forall_mem_append.mpr ⟨hgap, hs⟩) (by simp)
          simpa [joinWith] using hend.append_left (trim l)
        | cons r rest =>
          rw [joinWith_cons (by simp), List.append_assoc (trim l)]
          have hrest : Respaced _ (['\n'] ++ joinWith ['\n'] (r :: rest)) := .gap (by simp) (by simp) hgap (by decide) ih
          exact hrest.append_left (trim l)

/-- One more character before the first part is one before the joined text. -/
theorem joinWith_pushFirst (sep : List Char) (c : Char) (parts : List (List Char)) :
    joinWith sep (pushFirst c parts) = c :: joinWith sep parts := by
  rcases parts with _ | ⟨p, _ | ⟨q, parts⟩⟩ <;> rfl

/-- A text has at least one part. -/
theorem splitAtChar_ne_nil (sep : Char) (s : List Char) : splitAtChar sep s ≠ [] := by
  cases s with
  | nil => simp [splitAtChar]
  | cons c s =>
    rw [splitAtChar]
    split
    · simp
    · cases splitAtChar sep s <;> simp [pushFirst]

/-- The parts of a text make it up again. -/
theorem joinWith_splitAtChar (sep : Char) (s : List Char) : joinWith [sep] (splitAtChar sep s) = s := by
  induction s with
  | nil => rfl
  | cons c s ih =>
    rw [splitAtChar]
    split
    · rename_i hc
      rw [joinWith_cons (splitAtChar_ne_nil sep s), ih, hc]
      rfl
    · rw [joinWith_pushFirst, ih]

/-- The lines of a text, trimmed, without those that hold nothing. -/
def trimLines (s : List Char) : List Char := joinWith ['\n'] (((splitAtChar '\n' s).map trim).filter (!·.isEmpty))

/-- Trimming the lines changes blanks only, but for those at the start. -/
theorem respaced_trimLines (s : List Char) : Respaced (s.dropWhile isBlank) (trimLines s) := by
  have h := respaced_lines (splitAtChar '\n' s)
  rwa [joinWith_splitAtChar] at h

/-! ## Parts -/

/-- Characters before parts are put before the first of them. -/
theorem foldr_pushFirst (s p : List Char) (ps : List (List Char)) : s.foldr pushFirst (p :: ps) = (s ++ p) :: ps := by
  induction s with
  | nil => rfl
  | cons c s ih => rw [List.foldr_cons, ih, pushFirst, List.cons_append]

/-- A text has at least one part between top-level separators. -/
theorem exists_splitTopLevelFrom_eq_cons (sep : List Char) (d : Nat) (s : List Char) :
    ∃ p ps, splitTopLevelFrom sep d s = p :: ps := by
  cases s with
  | nil => exact ⟨_, _, rfl⟩
  | cons c s =>
    rw [splitTopLevelFrom]
    split
    · exact ⟨_, _, rfl⟩
    · cases splitTopLevelFrom sep (depthAfter d c) s <;> exact ⟨_, _, rfl⟩

/-- A text that holds the separator inside brackets only is not cut. -/
theorem splitTopLevelFrom_append {x : Char} {d : Nat} {s : List Char} (hx : ∀ d, depthAfter d x = d)
    (h : ∀ a b, s = a ++ x :: b → a.foldl depthAfter d ≠ 0) (r : List Char) :
    splitTopLevelFrom [x] d (s ++ r) = s.foldr pushFirst (splitTopLevelFrom [x] (s.foldl depthAfter d) r) := by
  induction s generalizing d with
  | nil => rfl
  | cons c s ih =>
    have hcut : ¬([c] = [x] ∧ depthAfter d c = 0) := by
      rintro ⟨he, hd⟩
      obtain rfl : c = x := by simpa using he
      exact h [] s rfl (by rw [hx] at hd; exact hd)
    rw [List.cons_append, splitTopLevelFrom, if_neg hcut, ih fun a b he => h (c :: a) b (by rw [he, List.cons_append])]
    rfl

/-- A character is no bracket. -/
def isFlat (c : Char) : Bool := c != '(' && c != '{' && c != ')' && c != '}'

/-- What is no bracket leaves the depth as it is. -/
theorem depthAfter_of_isFlat {c : Char} (h : isFlat c) (d : Nat) : depthAfter d c = d := by
  simp only [isFlat, Bool.and_eq_true, bne_iff_ne] at h
  simp [depthAfter, h]

/-- A text without brackets leaves the depth as it is. -/
theorem foldl_depthAfter_of_isFlat {s : List Char} (h : ∀ c ∈ s, isFlat c) (d : Nat) : s.foldl depthAfter d = d := by
  induction s with
  | nil => rfl
  | cons c s ih =>
    obtain ⟨hc, hs⟩ := List.forall_mem_cons.mp h
    rw [List.foldl_cons, depthAfter_of_isFlat hc, ih hs]

/-- A blank is no bracket. -/
theorem isFlat_of_isBlank {c : Char} (h : isBlank c) : isFlat c := by
  have hne : ∀ d, isBlank d = false → c ≠ d := fun d hd => ne_of_holds h hd
  simp [isFlat, hne '(' (by decide), hne '{' (by decide), hne ')' (by decide), hne '}' (by decide)]

/-- A text that is not cut, whatever stands behind it. -/
def Uncut (x : Char) (s : List Char) : Prop :=
  ∀ r, splitTopLevelFrom [x] 0 (s ++ r) = s.foldr pushFirst (splitTopLevelFrom [x] 0 r)

/-- Texts that are not cut are not cut together. -/
theorem Uncut.append {x : Char} {s t : List Char} (hs : Uncut x s) (ht : Uncut x t) : Uncut x (s ++ t) := by
  intro r
  rw [List.append_assoc, hs, ht, List.foldr_append]

section Cut

variable {x : Char} (hx : ∀ d, depthAfter d x = d) (hb : isBlank x = false)

include hx hb

/-- Blanks belong to the part that they stand in. -/
theorem splitTopLevelFrom_blanks {w : List Char} (hw : ∀ c ∈ w, isBlank c) (d : Nat) (s : List Char) :
    splitTopLevelFrom [x] d (w ++ s) = w.foldr pushFirst (splitTopLevelFrom [x] d s) := by
  rw [splitTopLevelFrom_append hx _ s, foldl_depthAfter_of_isFlat fun c hc => isFlat_of_isBlank (hw c hc)]
  rintro a b rfl
  rw [hw x (by simp)] at hb
  cases hb

/-- Texts that differ in blanks only have parts that do. -/
theorem splitTopLevelFrom_respaced {s t : List Char} (h : Respaced s t) :
    ∀ d, List.Forall₂ Respaced (splitTopLevelFrom [x] d s) (splitTopLevelFrom [x] d t) := by
  induction h with
  | @blanks w w' hw hw' =>
    intro d
    have hend : ∀ {w : List Char}, (∀ c ∈ w, isBlank c) → splitTopLevelFrom [x] d w = [w] := by
      intro w hw
      have := splitTopLevelFrom_blanks hx hb hw d []
      rw [List.append_nil] at this
      rw [this, splitTopLevelFrom, foldr_pushFirst, List.append_nil]
    rw [hend hw, hend hw']
    exact .cons (.blanks hw hw') .nil
  | @char c s t hc _ ih =>
    intro d
    have ih := ih (depthAfter d c)
    obtain ⟨p, ps, hs⟩ := exists_splitTopLevelFrom_eq_cons [x] (depthAfter d c) s
    obtain ⟨q, qs, ht⟩ := exists_splitTopLevelFrom_eq_cons [x] (depthAfter d c) t
    rw [splitTopLevelFrom, splitTopLevelFrom]
    rw [hs, ht] at ih ⊢
    split
    · exact .cons (.blanks (by simp) (by simp)) ih
    · obtain ⟨hp, hps⟩ := List.forall₂_cons.mp ih
      exact .cons (.char hc hp) hps
  | @gap w w' s t hne hne' hw hw' _ ih =>
    intro d
    have ih := ih d
    obtain ⟨p, ps, hs⟩ := exists_splitTopLevelFrom_eq_cons [x] d s
    obtain ⟨q, qs, ht⟩ := exists_splitTopLevelFrom_eq_cons [x] d t
    rw [hs, ht] at ih
    rw [splitTopLevelFrom_blanks hx hb hw, splitTopLevelFrom_blanks hx hb hw', hs, ht, foldr_pushFirst, foldr_pushFirst]
    obtain ⟨hp, hps⟩ := List.forall₂_cons.mp ih
    exact .cons (.gap hne hne' hw hw' hp) hps

/-- The parts of a text with trimmed lines are those of the text, but for blanks. The blanks before the text are those before its
first part. -/
theorem splitTopLevel_trimLines (s : List Char) :
    List.Forall₂ (fun p q => ∃ w p', p = w ++ p' ∧ (∀ c ∈ w, isBlank c) ∧ Respaced p' q)
      (splitTopLevel [x] s) (splitTopLevel [x] (trimLines s)) := by
  have hblank : ∀ c ∈ s.takeWhile isBlank, isBlank c := fun c hc => List.mem_takeWhile_imp hc
  have hs := splitTopLevelFrom_blanks hx hb hblank 0 (s.dropWhile isBlank)
  rw [List.takeWhile_append_dropWhile] at hs
  have hparts := splitTopLevelFrom_respaced hx hb (respaced_trimLines s) 0
  obtain ⟨p, ps, he⟩ := exists_splitTopLevelFrom_eq_cons [x] 0 (s.dropWhile isBlank)
  obtain ⟨q, qs, he'⟩ := exists_splitTopLevelFrom_eq_cons [x] 0 (trimLines s)
  unfold splitTopLevel
  rw [he, foldr_pushFirst] at hs
  rw [he, he'] at hparts
  rw [hs, he']
  obtain ⟨hp, hps⟩ := List.forall₂_cons.mp hparts
  exact .cons ⟨_, p, rfl, hblank, hp⟩ (hps.imp fun p q h => ⟨[], p, rfl, by simp, h⟩)

/-- Blanks are not cut. -/
theorem uncut_blanks {w : List Char} (hw : ∀ c ∈ w, isBlank c) : Uncut x w := splitTopLevelFrom_blanks hx hb hw 0

omit hb in
/-- A text is not cut if each of its separators stands in brackets and it closes what it opens. -/
theorem uncut_of_depth {s : List Char} (hend : s.foldl depthAfter 0 = 0)
    (h : ∀ a b, s = a ++ x :: b → a.foldl depthAfter 0 ≠ 0) : Uncut x s := by
  intro r
  rw [splitTopLevelFrom_append hx h, hend]

omit hb in
/-- Texts that are not cut are the parts of what joins them. -/
theorem splitTopLevel_joinWith {qs : List (List Char)} (hne : qs ≠ []) (h : ∀ q ∈ qs, Uncut x q) :
    splitTopLevel [x] (joinWith [x] qs) = qs := by
  induction qs with
  | nil => exact absurd rfl hne
  | cons q qs ih =>
    obtain ⟨hq, hqs⟩ := List.forall_mem_cons.mp h
    by_cases hlast : qs = []
    · subst hlast
      have := hq []
      rw [List.append_nil, splitTopLevelFrom, foldr_pushFirst, List.append_nil] at this
      exact this
    · have hcut : splitTopLevelFrom [x] 0 (x :: joinWith [x] qs) = [] :: qs := by
        rw [splitTopLevelFrom, if_pos ⟨rfl, hx 0⟩, hx 0]
        exact congrArg _ (ih hlast hqs)
      rw [joinWith_cons hlast, List.append_assoc]
      exact (hq _).trans (by rw [List.singleton_append, hcut, foldr_pushFirst, List.append_nil])

end Cut

end Propositional.Text
