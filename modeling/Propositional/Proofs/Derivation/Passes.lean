import Propositional.Proofs.Derivation.Items
import Propositional.Proofs.Latex.Junction

/-!
# Passes over a place

The layout of a derivation is taken out by passes, each of which replaces the matches of one kind. A match that ends before a
place or starts behind it is replaced whatever stands there (`replaceMatches_append_cons`). Only a group in braces can have the
place inside: in its content, or between its macro and its brace (`bracedMatcher_append`).
-/

namespace Propositional.Text

/-- A run of characters of a kind ends at the same place, whatever stands behind it. -/
theorem append_inj_of_stop {kind : Char → Bool} {a a' b b' : List Char} (ha : ∀ c ∈ a, kind c) (ha' : ∀ c ∈ a', kind c)
    (hb : ∀ c ∈ b.head?, ¬kind c) (hb' : ∀ c ∈ b'.head?, ¬kind c) (h : a ++ b = a' ++ b') : a = a' ∧ b = b' := by
  have htake : ∀ {a b : List Char}, (∀ c ∈ a, kind c) → (∀ c ∈ b.head?, ¬kind c) → (a ++ b).takeWhile kind = a := fun ha hb => by
    rw [takeWhile_append_of_stop fun _ => hb, List.takeWhile_eq_self_iff.mpr ha]
  have hfirst : a = a' := by rw [← htake ha hb, h, htake ha' hb']
  subst hfirst
  exact ⟨rfl, List.append_cancel_left h⟩

variable {m : Matcher} {new : List Char}

/-- Characters that are skipped are dropped. -/
theorem replaceFrom_eq_drop (k : Nat) (s : List Char) (h : k ≤ s.length) :
    replaceFrom m new k s = replaceFrom m new 0 (s.drop k) := by
  conv => lhs; rw [← List.take_append_drop k s]
  have hskip : replaceFrom m new (s.take k).length (s.take k ++ s.drop k) = _ := replaceFrom_skip _ _
  rwa [List.length_take_of_le h] at hskip

/-- What matches before a place is replaced there, and what matches behind it, if what matches before the place does so whatever
stands at the place, and nothing matches at the place itself. -/
theorem replaceMatches_append_cons {u v : List Char} {c : Char} (hplace : m (c :: v) = none)
    (hbefore : ∀ t, t ≠ [] → t <:+ u → m (t ++ c :: v) = m t) (hle : ∀ {t n}, m t = some n → n ≤ t.length) :
    replaceMatches m new (u ++ c :: v) = replaceMatches m new u ++ c :: replaceMatches m new v := by
  unfold replaceMatches
  induction hn : u.length using Nat.strong_induction_on generalizing u with
  | _ n ih =>
    subst hn
    cases u with
    | nil => exact replaceFrom_of_none hplace
    | cons x u =>
      have hsuffix : ∀ {k t}, t ≠ [] → t <:+ u.drop k → m (t ++ c :: v) = m t := fun ht hs =>
        hbefore _ ht ((hs.trans (List.drop_suffix _ u)).trans (List.suffix_cons x u))
      have hfirst := hbefore (x :: u) (by simp) List.suffix_rfl
      have hnone : m (x :: u) = none ∨ m (x :: u) = some 0 → replaceFrom m new 0 (x :: u ++ c :: v) =
          replaceFrom m new 0 (x :: u) ++ c :: replaceFrom m new 0 v := by
        intro hm
        have hih := ih u.length (Nat.lt_succ_self _) (u := u) (fun t ht hs => hsuffix (k := 0) ht hs) rfl
        have hstep : ∀ s, m (x :: s) = none ∨ m (x :: s) = some 0 →
            replaceFrom m new 0 (x :: s) = x :: replaceFrom m new 0 s := by
          rintro s (h | h) <;> simp [replaceFrom, h]
        rw [List.cons_append] at hfirst ⊢
        rw [hstep _ (by rwa [hfirst]), hstep _ hm, hih, List.cons_append]
      cases hm : m (x :: u) with
      | none => exact hnone (.inl hm)
      | some n =>
        cases n with
        | zero => exact hnone (.inr hm)
        | succ k =>
          have hk : k ≤ u.length := Nat.le_of_succ_le_succ (hle hm)
          have hih := ih (u.drop k).length (by rw [List.length_drop, List.length_cons]; omega) (fun t ht hs => hsuffix ht hs) rfl
          have hstep : ∀ s, m (x :: s) = some (k + 1) → k ≤ s.length →
              replaceFrom m new 0 (x :: s) = new ++ replaceFrom m new 0 (s.drop k) := by
            intro s h hs
            rw [← replaceFrom_eq_drop k s hs]
            simp [replaceFrom, h]
          rw [hm, List.cons_append] at hfirst
          rw [List.cons_append, hstep _ hfirst (hk.trans (by simp)), hstep _ hm hk, List.drop_append_of_le_length hk, hih,
            List.append_assoc]

end Propositional.Text

namespace Propositional.Derivation

open Text Latex

/-! ## Groups in braces -/

/-- The macros whose group in braces is a note. -/
def noteMacros : List String := ["\\text", "\\textrm", "\\textbf", "\\textit"]

/-- The macros whose group in braces names an environment. -/
def environmentMacros : List String := ["\\begin", "\\end"]

section Braced

variable (openings : List String) (inside : Char → Bool) (allowEmpty : Bool)

/-- A text is one of the openings, blanks and a group in braces. -/
def IsBraced (s : List Char) : Prop :=
  ∃ o ∈ openings, ∃ w k, s = o.toList ++ (w ++ '{' :: (k ++ ['}'])) ∧ (∀ c ∈ w, isBlank c) ∧ (∀ c ∈ k, inside c) ∧
    (k = [] → allowEmpty)

/-- A text ends in one of the openings, and the other one starts with the group in braces that belongs to it. -/
def Detaches (u v : List Char) : Prop :=
  (∃ a, ∃ o ∈ openings, ∃ w, u = a ++ (o.toList ++ w) ∧ ∀ c ∈ w, isBlank c) ∧
    (bracedLength? inside allowEmpty (v.dropWhile isBlank)).isSome

/-- A text ends in the content of a group in braces behind one of the openings, and the other one starts with the rest of it. -/
def InBraces (u v : List Char) : Prop :=
  ∃ a, ∃ o ∈ openings, ∃ w k, u = a ++ (o.toList ++ (w ++ '{' :: k)) ∧ (∀ c ∈ w, isBlank c) ∧ (∀ c ∈ k, inside c) ∧
    (v.dropWhile inside).head? = some '}'

variable {openings inside allowEmpty}

/-- The length of a group in braces is found exactly where one stands. -/
theorem bracedLength?_eq_some_iff (hi : inside '}' = false) {s : List Char} {n : Nat} :
    bracedLength? inside allowEmpty s = some n ↔ ∃ k r, s = '{' :: (k ++ '}' :: r) ∧ (∀ c ∈ k, inside c) ∧
      (k = [] → allowEmpty) ∧ n = k.length + 2 := by
  constructor
  · intro h
    unfold bracedLength? at h
    split at h
    · rename_i cs
      dsimp only at h
      split at h
      · rename_i r hr
        have hsplit : cs = cs.takeWhile inside ++ '}' :: r := by
          conv => lhs; rw [← List.take_append_drop (cs.takeWhile inside).length cs, hr]
          rw [← List.prefix_iff_eq_take.mp (List.takeWhile_prefix inside)]
        split at h
        · cases h
        · rename_i hempty
          refine ⟨_, r, congrArg _ hsplit, fun c hc => List.mem_takeWhile_imp hc, fun hk => ?_, (Option.some.inj h).symm⟩
          simpa [hk] using hempty
      · cases h
    · cases h
  · rintro ⟨k, r, rfl, hk, hempty, rfl⟩
    have htake : (k ++ '}' :: r).takeWhile inside = k := by
      rw [List.takeWhile_append_of_pos hk, List.takeWhile_cons_of_neg (by simp [hi]), List.append_nil]
    have hallowed : (k.isEmpty && !allowEmpty) = false := by
      cases k <;> simp_all
    simp [bracedLength?, htake, hallowed]

/-- The matcher of one opening, blanks and a group in braces. -/
def openingMatcher (inside : Char → Bool) (allowEmpty : Bool) (o : String) : Matcher := fun s =>
  match literal o.toList s with
  | some n =>
    let blanks := ((s.drop n).takeWhile isBlank).length
    (bracedLength? inside allowEmpty (s.drop (n + blanks))).map (n + blanks + ·)
  | none => none

theorem bracedMatcher_eq (s : List Char) :
    bracedMatcher openings inside allowEmpty s = openings.findSome? (openingMatcher inside allowEmpty · s) := rfl

/-- Behind an opening, blanks and a group in braces are looked for. -/
theorem openingMatcher_append (o : String) (s : List Char) : openingMatcher inside allowEmpty o (o.toList ++ s) =
    (bracedLength? inside allowEmpty (s.dropWhile isBlank)).map (o.toList.length + (s.takeWhile isBlank).length + ·) := by
  have hliteral : literal o.toList (o.toList ++ s) = some o.toList.length :=
    if_pos (List.isPrefixOf_iff_prefix.mpr (List.prefix_append _ _))
  have hdrop := @List.drop_left _ (s.takeWhile isBlank) (s.dropWhile isBlank)
  rw [List.takeWhile_append_dropWhile] at hdrop
  simp only [openingMatcher, hliteral, ← List.drop_drop, List.drop_left, hdrop]

/-- One opening is found at the start of a text that starts with it, blanks and a group in braces. -/
theorem openingMatcher_eq_some_iff (hi : inside '}' = false) {o : String} {s : List Char} {n : Nat} :
    openingMatcher inside allowEmpty o s = some n ↔
      ∃ m r, s = m ++ r ∧ IsBraced [o] inside allowEmpty m ∧ n = m.length := by
  constructor
  · intro h
    have hstart : o.toList <+: s := by
      by_contra hnot
      have hliteral : literal o.toList s = none := if_neg (by rwa [List.isPrefixOf_iff_prefix])
      simp [openingMatcher, hliteral] at h
    obtain ⟨s, rfl⟩ := hstart
    rw [openingMatcher_append] at h
    obtain ⟨j, hj, rfl⟩ := Option.map_eq_some_iff.mp h
    obtain ⟨k, r, hs, hk, hempty, rfl⟩ := (bracedLength?_eq_some_iff hi).mp hj
    refine ⟨o.toList ++ (s.takeWhile isBlank ++ '{' :: (k ++ ['}'])), r, ?_, ?_, ?_⟩
    · conv => lhs; rw [← List.takeWhile_append_dropWhile (p := isBlank) (l := s), hs]
      simp
    · exact ⟨o, List.mem_cons_self, _, k, rfl, fun c hc => List.mem_takeWhile_imp hc, hk, hempty⟩
    · simp only [List.length_append, List.length_cons, List.length_nil]
      omega
  · rintro ⟨m, r, rfl, ⟨o', ho, w, k, rfl, hw, hk, hempty⟩, rfl⟩
    obtain rfl := List.mem_singleton.mp ho
    have hbrace : ¬isBlank '{' := by decide
    have hlength : bracedLength? inside allowEmpty ('{' :: (k ++ '}' :: r)) = some (k.length + 2) :=
      (bracedLength?_eq_some_iff hi).mpr ⟨k, r, rfl, hk, hempty, rfl⟩
    have hassoc : o'.toList ++ (w ++ '{' :: (k ++ ['}'])) ++ r = o'.toList ++ (w ++ '{' :: (k ++ '}' :: r)) := by simp
    rw [hassoc, openingMatcher_append, List.dropWhile_append_of_pos hw, List.dropWhile_cons_of_neg hbrace,
      List.takeWhile_append_of_pos hw, List.takeWhile_cons_of_neg hbrace, hlength, List.append_nil, Option.map_some]
    simp only [List.length_append, List.length_cons, List.length_nil]
    exact congrArg some (by omega)

section Openings

variable (ho : ∀ o ∈ openings, ∃ w ∈ groupNames, o.toList = '\\' :: w.toList) (hi : inside '}' = false)

include ho hi

/-- At the start of a text stands no more than one group in braces behind an opening. -/
theorem IsBraced.unique {m m' r r' : List Char} (h : IsBraced openings inside allowEmpty m)
    (h' : IsBraced openings inside allowEmpty m') (he : m ++ r = m' ++ r') : m = m' := by
  obtain ⟨o, hmem, w, k, rfl, hw, hk, -⟩ := h
  obtain ⟨o', hmem', w', k', rfl, hw', hk', -⟩ := h'
  have hletters : ∀ w ∈ groupNames, ∀ c ∈ w.toList, c.isAlpha := by decide
  obtain ⟨name, hname, hoName⟩ := ho o hmem
  obtain ⟨name', hname', hoName'⟩ := ho o' hmem'
  have hstop : ∀ {w k : List Char}, (∀ c ∈ w, isBlank c) → ∀ c ∈ (w ++ '{' :: k).head?, ¬c.isAlpha := by
    intro w k hw c hc
    cases w with
    | nil =>
      obtain rfl : '{' = c := Option.some.inj hc
      decide
    | cons d w =>
      obtain rfl : d = c := Option.some.inj hc
      intro ha
      have hblank := isBlank_eq_false_of_isAlphanum (isAlphanum_of_isAlpha ha)
      rw [hw d List.mem_cons_self] at hblank
      cases hblank
  rw [hoName, hoName'] at he ⊢
  simp only [List.cons_append, List.append_assoc] at he ⊢
  obtain ⟨hnames, hgroup⟩ := append_inj_of_stop (hletters _ hname) (hletters _ hname') (hstop hw) (hstop hw') (List.cons.inj he).2
  have hbrace : ∀ {k : List Char}, ∀ c ∈ ('{' :: k).head?, ¬isBlank c := fun c hc => by
    obtain rfl : '{' = c := Option.some.inj hc
    decide
  obtain ⟨rfl, hbody⟩ := append_inj_of_stop hw hw' hbrace hbrace hgroup
  have hclose : ∀ {r : List Char}, ∀ c ∈ ('}' :: r).head?, ¬inside c := fun c hc => by
    obtain rfl : '}' = c := Option.some.inj hc
    simp [hi]
  obtain ⟨rfl, -⟩ := append_inj_of_stop hk hk' hclose hclose (List.cons.inj hbody).2
  rw [hnames]

/-- A matcher of groups in braces finds the one at the start of a text. -/
theorem bracedMatcher_eq_some_iff {s : List Char} {n : Nat} : bracedMatcher openings inside allowEmpty s = some n ↔
    ∃ m r, s = m ++ r ∧ IsBraced openings inside allowEmpty m ∧ n = m.length := by
  have hone : ∀ {o m}, o ∈ openings → IsBraced [o] inside allowEmpty m → IsBraced openings inside allowEmpty m := by
    rintro o m hmem ⟨o', ho', h⟩
    rw [List.mem_singleton.mp ho'] at h
    exact ⟨o, hmem, h⟩
  rw [bracedMatcher_eq]
  constructor
  · intro h
    obtain ⟨o, hmem, hn⟩ := List.exists_of_findSome?_eq_some h
    obtain ⟨m, r, hs, hm, hn⟩ := (openingMatcher_eq_some_iff hi).mp hn
    exact ⟨m, r, hs, hone hmem hm, hn⟩
  · rintro ⟨m, r, rfl, hm, rfl⟩
    cases hfind : openings.findSome? (openingMatcher inside allowEmpty · (m ++ r)) with
    | some n =>
      obtain ⟨o, hmem, hn⟩ := List.exists_of_findSome?_eq_some hfind
      obtain ⟨m', r', hs, hm', rfl⟩ := (openingMatcher_eq_some_iff hi).mp hn
      rw [hm.unique ho hi (hone hmem hm') hs]
    | none =>
      obtain ⟨o, hmem, w, k, he, hw, hk, hempty⟩ := hm
      have hfound := (openingMatcher_eq_some_iff hi).mpr ⟨m, r, rfl, ⟨o, List.mem_cons_self, w, k, he, hw, hk, hempty⟩, rfl⟩
      rw [List.findSome?_eq_none_iff.mp hfind o hmem] at hfound
      cases hfound

end Openings

/-- Where a character stands in an opening, blanks and a group in braces: in the name of the macro, at the brace or before it, in
the content or at its end. In the name it is a character of the name, as the backslash stands before it. -/
theorem IsBraced.cases_append {t x : List Char} {c : Char} (ho : ∀ o ∈ openings, ∃ w ∈ groupNames, o.toList = '\\' :: w.toList)
    (h : IsBraced openings inside allowEmpty (t ++ c :: x)) (ht : t ≠ []) : c.isAlpha ∨ c = '{' ∨ c = '}' ∨
    (isBlank c ∧ ∃ o ∈ openings, ∃ w, t = o.toList ++ w ∧ (∀ d ∈ w, isBlank d) ∧ ∃ w' k, x = w' ++ '{' :: (k ++ ['}']) ∧
      (∀ d ∈ w', isBlank d) ∧ (∀ d ∈ k, inside d) ∧ (k = [] → allowEmpty)) ∨
    (inside c ∧ ∃ o ∈ openings, ∃ w k k', t = o.toList ++ (w ++ '{' :: k) ∧ x = k' ++ ['}'] ∧ (∀ d ∈ w, isBlank d) ∧
      (∀ d ∈ k, inside d) ∧ ∀ d ∈ k', inside d) := by
  obtain ⟨o, hmem, w, k, he, hw, hk, hempty⟩ := h
  have hname : c.isAlpha ∨ ∃ s, t = o.toList ++ s ∧ w ++ '{' :: (k ++ ['}']) = s ++ c :: x := by
    rcases List.append_eq_append_iff.mp he with ⟨u, hu, hx⟩ | ⟨s, hs, hx⟩
    · cases u with
      | nil => exact .inr ⟨[], by rw [hu, List.append_nil, List.append_nil], hx.symm⟩
      | cons d u =>
        left
        obtain ⟨rfl, -⟩ := List.cons.inj hx
        have hletters : ∀ w ∈ groupNames, ∀ c ∈ w.toList, c.isAlpha := by decide
        obtain ⟨name, hname, hoName⟩ := ho o hmem
        obtain ⟨b, t, rfl⟩ := List.exists_cons_of_ne_nil ht
        rw [hoName, List.cons_append] at hu
        exact hletters name hname c (by rw [(List.cons.inj hu).2]; simp)
    · exact .inr ⟨s, hs, hx⟩
  rcases hname with ha | ⟨s, rfl, hs⟩
  · exact .inl ha
  · right
    rcases List.append_eq_append_iff.mp hs with ⟨u, rfl, hu⟩ | ⟨u, rfl, hu⟩
    · cases u with
      | nil => exact .inl (List.cons.inj hu).1.symm
      | cons d u =>
        rw [List.cons_append] at hu
        obtain ⟨rfl, hcontent⟩ := List.cons.inj hu
        rcases List.append_eq_append_iff.mp hcontent with ⟨u', rfl, hu'⟩ | ⟨k', rfl, hk'⟩
        · cases u' with
          | nil => exact .inr (.inl (List.cons.inj hu').1.symm)
          | cons d u' => exact absurd (List.cons.inj hu').2 (by simp)
        · cases k' with
          | nil => exact .inr (.inl (List.cons.inj hk').1)
          | cons d k' =>
            rw [List.cons_append] at hk'
            obtain ⟨rfl, rfl⟩ := List.cons.inj hk'
            obtain ⟨hu, hk⟩ := List.forall_mem_append.mp hk
            obtain ⟨hc, hk'⟩ := List.forall_mem_cons.mp hk
            exact .inr (.inr (.inr ⟨hc, o, hmem, w, u, k', rfl, rfl, hw, hu, hk'⟩))
    · cases u with
      | nil => exact .inl (List.cons.inj hu).1
      | cons d u =>
        rw [List.cons_append] at hu
        obtain ⟨rfl, rfl⟩ := List.cons.inj hu
        obtain ⟨hs, hw⟩ := List.forall_mem_append.mp hw
        obtain ⟨hc, hu⟩ := List.forall_mem_cons.mp hw
        exact .inr (.inr (.inl ⟨hc, o, hmem, s, rfl, hs, u, k, rfl, hu, hk, hempty⟩))

section Pass

variable (ho : ∀ o ∈ openings, ∃ w ∈ groupNames, o.toList = '\\' :: w.toList) (hi : inside '}' = false)

include ho hi

/-- The text that a pass over groups in braces sees before a place is matched by itself, unless the place stands in a group. -/
theorem bracedMatcher_append {t v : List Char} {c : Char} (ht : t ≠ []) (hc : c ∈ [' ', '&', '$'])
    (hdetaches : c = ' ' → ¬Detaches openings inside allowEmpty t v) (hcontent : inside c → ¬InBraces openings inside t v) :
    bracedMatcher openings inside allowEmpty (t ++ c :: v) = bracedMatcher openings inside allowEmpty t := by
  have htable : ∀ c ∈ [' ', '&', '$'], c.isAlpha = false ∧ c ≠ '{' ∧ c ≠ '}' ∧ (isBlank c → c = ' ') := by decide
  obtain ⟨ha, hopen, hclose, hblank⟩ := htable c hc
  ext n
  rw [bracedMatcher_eq_some_iff ho hi, bracedMatcher_eq_some_iff ho hi]
  constructor
  · rintro ⟨m, r, he, hm, rfl⟩
    rcases List.append_eq_append_iff.mp he with ⟨u, rfl, hu⟩ | ⟨u, rfl, hu⟩
    · cases u with
      | nil => exact ⟨t, [], by simp, by simpa using hm, by simp⟩
      | cons d x =>
        rw [List.cons_append] at hu
        obtain ⟨rfl, rfl⟩ := List.cons.inj hu
        exfalso
        rcases hm.cases_append ho ht with h | h | h | ⟨h, o, hmem, w, rfl, hw, w', k, rfl, hw', hk, hempty⟩ |
          ⟨h, o, hmem, w, k, k', rfl, rfl, hw, hk, hk'⟩
        · simp [ha] at h
        · exact hopen h
        · exact hclose h
        · refine hdetaches (hblank h) ⟨⟨[], o, hmem, w, rfl, hw⟩, ?_⟩
          have hgroup : (w' ++ '{' :: (k ++ ['}']) ++ r).dropWhile isBlank = '{' :: (k ++ '}' :: r) := by
            rw [List.append_assoc, List.dropWhile_append_of_pos hw', List.cons_append, List.dropWhile_cons_of_neg (by decide),
              List.append_assoc, List.singleton_append]
          rw [hgroup, (bracedLength?_eq_some_iff hi).mpr ⟨k, r, rfl, hk, hempty, rfl⟩]
          rfl
        · refine hcontent h ⟨[], o, hmem, w, k, rfl, hw, hk, ?_⟩
          rw [List.append_assoc, List.dropWhile_append_of_pos hk', List.singleton_append,
            List.dropWhile_cons_of_neg (by simp [hi])]
          rfl
    · exact ⟨m, u, rfl, hm, rfl⟩
  · rintro ⟨m, r, rfl, hm, rfl⟩
    exact ⟨m, r ++ c :: v, by simp, hm, rfl⟩

/-- A pass over groups in braces sees nothing of a place that is neither in a group nor before it. -/
theorem replaceMatches_bracedMatcher {u v : List Char} {c : Char} (hc : c ∈ [' ', '&', '$'])
    (hdetaches : c = ' ' → ¬Detaches openings inside allowEmpty u v) (hcontent : inside c → ¬InBraces openings inside u v)
    (new : List Char) : replaceMatches (bracedMatcher openings inside allowEmpty) new (u ++ c :: v) =
      replaceMatches (bracedMatcher openings inside allowEmpty) new u ++
        c :: replaceMatches (bracedMatcher openings inside allowEmpty) new v := by
  have hs : c ≠ '\\' := by
    rintro rfl
    exact absurd hc (by decide)
  refine replaceMatches_append_cons (isMarking_bracedMatcher ho c v hs) (fun t ht ⟨a, ha⟩ => ?_) fun {t n} hn => ?_
  · refine bracedMatcher_append ho hi ht hc (fun he h => hdetaches he ?_) fun hk h => hcontent hk ?_
    · obtain ⟨⟨a', o, hmem, w, rfl, hw⟩, hv⟩ := h
      exact ⟨⟨a ++ a', o, hmem, w, by rw [← ha]; simp, hw⟩, hv⟩
    · obtain ⟨a', o, hmem, w, k, rfl, h⟩ := h
      exact ⟨a ++ a', o, hmem, w, k, by rw [← ha]; simp, h⟩
  · obtain ⟨m, r, rfl, -, rfl⟩ := (bracedMatcher_eq_some_iff ho hi).mp hn
    simp

end Pass

end Braced

/-! ## Macros and line breaks -/

/-- A matcher of things that end at blanks and marks: it matches no more than there is, and the same before such a character as at
the end of a text. -/
structure IsWordwise (m : Matcher) : Prop where
  marking : IsMarking m
  le : ∀ {t n}, m t = some n → n ≤ t.length
  append : ∀ {c}, c ∈ [' ', '&', '$'] → ∀ {t}, t ≠ [] → ∀ v, m (t ++ c :: v) = m t

/-- A pass of a matcher that ends at blanks and marks works on each side of such a character by itself. -/
theorem IsWordwise.replaceMatches {m : Matcher} (h : IsWordwise m) {c : Char} (hc : c ∈ [' ', '&', '$']) (new u v : List Char) :
    Text.replaceMatches m new (u ++ c :: v) = Text.replaceMatches m new u ++ c :: Text.replaceMatches m new v := by
  have hs : c ≠ '\\' := by
    rintro rfl
    exact absurd hc (by decide)
  exact replaceMatches_append_cons (h.marking c v hs) (fun _ ht _ => h.append hc ht v) h.le

/-- Line breaks end at blanks and marks. -/
theorem isWordwise_lineBreak : IsWordwise (literal ['\\', '\\']) where
  marking := isMarking_lineBreak
  le := fun {t n} h => by
    unfold literal at h
    split at h
    · rename_i hstart
      rw [← Option.some.inj h]
      exact (List.isPrefixOf_iff_prefix.mp hstart).length_le
    · cases h
  append := fun {c} hc {t} ht v => by
    have hs : ('\\' == c) = false := by
      revert c
      decide
    rcases t with _ | ⟨x, _ | ⟨y, t⟩⟩
    · exact absurd rfl ht
    · simp [literal, List.isPrefixOf, hs]
    · simp [literal, List.isPrefixOf]

/-- Macros end at blanks and marks. -/
theorem isWordwise_macroMatcher (names : List String) : IsWordwise (macroMatcher names) where
  marking := isMarking_macroMatcher names
  le := fun {t n} h => by
    unfold macroMatcher at h
    split at h
    · rename_i name hname
      split at h
      · obtain rfl := Option.some.inj h
        unfold macroName? at hname
        split at hname
        · rename_i cs
          split at hname
          · cases hname
          · rw [← Option.some.inj hname, List.length_cons]
            exact Nat.succ_le_succ (List.takeWhile_sublist _).length_le
        · cases hname
      · cases h
    · cases h
  append := fun {c} hc {t} ht v => by
    have ha : c.isAlpha = false := by
      revert c
      decide
    obtain ⟨x, t, rfl⟩ := List.exists_cons_of_ne_nil ht
    by_cases hx : x = '\\'
    · subst hx
      have hname : (t ++ c :: v).takeWhile Char.isAlpha = t.takeWhile Char.isAlpha :=
        takeWhile_append_of_stop fun _ d hd => by
          obtain rfl : c = d := Option.some.inj hd
          simp [ha]
      simp only [macroMatcher, macroName?, List.cons_append, hname]
    · rw [List.cons_append, macroMatcher_of_ne hx, macroMatcher_of_ne hx]

/-- Spaces of the layout end at blanks and marks. -/
theorem isWordwise_spacing : IsWordwise spacing := by
  have hwords := isWordwise_macroMatcher ["qquad", "quad"]
  refine ⟨isMarking_spacing, fun {t n} h => ?_, fun {c} hc {t} ht v => ?_⟩
  · unfold spacing either at h
    cases hm : macroMatcher ["qquad", "quad"] t with
    | some k =>
      rw [hm, Option.some_or] at h
      rw [← Option.some.inj h]
      exact hwords.le hm
    | none =>
      rw [hm, Option.none_or] at h
      dsimp only at h
      split at h
      · split at h
        · rw [← Option.some.inj h]
          simp
        · cases h
      · cases h
  · have hnarrow : c ≠ ',' ∧ c ≠ ';' ∧ c ≠ ':' := by
      revert c
      decide
    unfold spacing either
    rw [hwords.append hc ht v]
    rcases t with _ | ⟨x, _ | ⟨y, t⟩⟩
    · exact absurd rfl ht
    · by_cases hx : x = '\\'
      · subst hx
        simp [hnarrow]
      · simp [hx]
    · by_cases hx : x = '\\'
      · subst hx
        rfl
      · simp [hx]

end Propositional.Derivation
