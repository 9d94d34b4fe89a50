import Propositional.Proofs.Formula.Marks
import Propositional.Proofs.Latex.Complement
import Propositional.Proofs.Text.Lines

/-!
# Texts with overlines

A text up to its first overline that is never closed is divided by its overlines: `Overlined` is such a text with the overlines
in it, at every depth. One pass over it, with a frame for each open overline, writes each overline as the complement of what its
content comes out as (`replaceOverlinesFrom_text`), and the text from the first unclosed one on stays as it is
(`replaceOverlinesFrom_of_isUnclosed`).
-/

namespace Propositional.Latex

open Text

/-! ## Openings -/

/-- An overline opens at the start of a text: its macro, blanks, and a brace. -/
def OpensOverline (s : List Char) : Prop := ∃ w r, s = overlineMacro ++ (w ++ '{' :: r) ∧ ∀ c ∈ w, isBlank c

/-- The opening of an overline is found exactly where one stands. -/
theorem isSome_overlineOpening?_iff {s : List Char} : (overlineOpening? s).isSome ↔ OpensOverline s := by
  constructor
  · intro h
    unfold overlineOpening? at h
    have hliteral : literal "\\overline".toList s =
        if overlineMacro.isPrefixOf s then some overlineMacro.length else none := rfl
    rw [hliteral] at h
    split at h
    · rename_i n hn
      split at hn
      · rename_i hp
        obtain rfl := Option.some.inj hn
        obtain ⟨r, rfl⟩ := List.isPrefixOf_iff_prefix.mp hp
        simp only [List.drop_left, ← List.drop_drop] at h
        split at h
        · rename_i r' hr
          refine ⟨r.takeWhile isBlank, r', ?_, fun c hc => List.mem_takeWhile_imp hc⟩
          have hsplit := List.takeWhile_append_dropWhile (p := isBlank) (l := r)
          have hdrop : (r.takeWhile isBlank ++ r.dropWhile isBlank).drop (r.takeWhile isBlank).length = r.dropWhile isBlank :=
            List.drop_left
          rw [hsplit, hr] at hdrop
          rw [hdrop, hsplit]
        · cases h
      · cases hn
    · cases h
  · rintro ⟨w, r, rfl, hw⟩
    rw [overlineOpening?_of_brace hw]
    rfl

instance : DecidablePred OpensOverline := fun _ => decidable_of_iff _ isSome_overlineOpening?_iff

/-- No overline opens but at a backslash. -/
theorem not_opensOverline_cons {c : Char} (h : c ≠ '\\') (s : List Char) : ¬OpensOverline (c :: s) := by
  rintro ⟨w, r, he, -⟩
  exact h (List.cons.inj he).1

/-- An overline opens whatever stands behind the text. -/
theorem OpensOverline.append {s : List Char} (h : OpensOverline s) (t : List Char) : OpensOverline (s ++ t) := by
  obtain ⟨w, r, rfl, hw⟩ := h
  exact ⟨w, r ++ t, by simp, hw⟩

/-- An opening does not reach over a character that it cannot hold. The character would be part of the macro, a blank or the
brace. -/
theorem OpensOverline.of_append_cons {c : Char} (hc : c ∈ ['!', ')', '}']) {s t : List Char} (h : OpensOverline (s ++ c :: t)) :
    OpensOverline s := by
  obtain ⟨w, r, he, hw⟩ := h
  have hopening : overlineMacro ++ (w ++ '{' :: r) = (overlineMacro ++ (w ++ ['{'])) ++ r := by simp
  rw [hopening] at he
  rcases List.append_eq_append_iff.mp he with ⟨u, hu, hr⟩ | ⟨u, rfl, -⟩
  · cases u with
    | nil => exact ⟨w, [], by simpa using hu.symm, hw⟩
    | cons d u =>
      obtain ⟨rfl, -⟩ := List.cons.inj hr
      have hmem : c ∈ overlineMacro ++ (w ++ ['{']) := by rw [hu]; simp
      have htable : ∀ c ∈ ['!', ')', '}'], c ∉ overlineMacro ∧ isBlank c = false ∧ c ≠ '{' := by decide
      obtain ⟨hm, hb, hne⟩ := htable c hc
      simp only [List.mem_append, List.mem_singleton] at hmem
      rcases hmem with hmem | hmem | hmem
      · exact absurd hmem hm
      · rw [hw c hmem] at hb
        cases hb
      · exact absurd hmem hne
  · exact ⟨w, u, by simp, hw⟩

/-! ## Braces -/

/-- Whether a character is a brace that opens a group or one that closes it. -/
def brace? : Char → Option Bool
  | '{' => some true
  | '}' => some false
  | _ => none

/-- A text closes the braces that it opens, and no others. -/
def IsBalanced (s : List Char) : Prop := depthAfter? brace? 0 s = some 0

/-- An overline at the start of a text is closed: the braces of its content are balanced, and the brace that closes it stands
behind. -/
def ClosesOverline (s : List Char) : Prop :=
  ∃ w content r, s = overlineMacro ++ (w ++ '{' :: (content ++ '}' :: r)) ∧ (∀ c ∈ w, isBlank c) ∧ IsBalanced content

/-- An overline at the start of a text is never closed. -/
def IsUnclosed (s : List Char) : Prop := OpensOverline s ∧ ¬ClosesOverline s

/-- A blank is no brace. -/
theorem brace?_of_isBlank {c : Char} (h : isBlank c) : brace? c = none := by
  unfold brace?
  split
  · exact absurd h (by decide)
  · exact absurd h (by decide)
  · rfl

/-- Without braces the depth stays. -/
theorem depthAfter?_of_no_brace {p : List Char} (h : ∀ c ∈ p, brace? c = none) (k : Nat) :
    depthAfter? brace? k p = some k := by
  induction p with
  | nil => rfl
  | cons c p ih =>
    rw [depthAfter?_cons, h c List.mem_cons_self]
    exact ih fun d hd => h d (List.mem_cons_of_mem c hd)

/-- The opening of an overline leads one deeper. -/
theorem depthAfter?_opening {w : List Char} (hw : ∀ c ∈ w, isBlank c) (k : Nat) (s : List Char) :
    depthAfter? brace? k (overlineMacro ++ (w ++ '{' :: s)) = depthAfter? brace? (k + 1) s := by
  rw [depthAfter?_append, depthAfter?_of_no_brace (by decide), Option.bind_some, depthAfter?_append,
    depthAfter?_of_no_brace fun c hc => brace?_of_isBlank (hw c hc), Option.bind_some]
  rfl

/-- A closed overline does not change the depth. -/
theorem depthAfter?_overline {w content : List Char} (hw : ∀ c ∈ w, isBlank c) (h : IsBalanced content) (k : Nat)
    (s : List Char) :
    depthAfter? brace? k (overlineMacro ++ (w ++ '{' :: (content ++ '}' :: s))) = depthAfter? brace? k s := by
  rw [depthAfter?_opening hw, depthAfter?_append, depthAfter?_of_closed h]
  rfl

/-- Where more is closed than is open, the brace stands somewhere that closes the first group. Only a brace that closes comes
without a depth behind it, and only where none is open. -/
theorem exists_closing {s : List Char} : ∀ {k : Nat}, depthAfter? brace? k s = none →
    ∃ content r, s = content ++ '}' :: r ∧ depthAfter? brace? k content = some 0 := by
  induction s with
  | nil => nofun
  | cons c s ih =>
    intro k h
    rw [depthAfter?_cons] at h
    cases hk : nextDepth? k (brace? c) with
    | some e =>
      rw [hk, Option.bind_some] at h
      obtain ⟨content, r, rfl, hcontent⟩ := ih h
      exact ⟨c :: content, r, rfl, by rw [depthAfter?_cons, hk]; exact hcontent⟩
    | none =>
      unfold brace? at hk
      split at hk
      · cases hk
      · cases k with
        | zero => exact ⟨[], s, rfl, rfl⟩
        | succ k => cases hk
      · cases hk

/-- An overline inside of balanced braces is closed there. -/
theorem IsBalanced.closesOverline {a s : List Char} (h : IsBalanced (a ++ s)) (hs : OpensOverline s) : ClosesOverline s := by
  obtain ⟨w, r, rfl, hw⟩ := hs
  unfold IsBalanced at h
  rw [depthAfter?_append] at h
  obtain ⟨k, -, hk⟩ := Option.bind_eq_some_iff.mp h
  rw [depthAfter?_opening hw] at hk
  cases hr : depthAfter? brace? 0 r with
  | some e =>
    have hadd := depthAfter?_add hr (k + 1)
    rw [Nat.zero_add, hk] at hadd
    exact absurd (Option.some.inj hadd) (by omega)
  | none =>
    obtain ⟨content, r', rfl, hcontent⟩ := exists_closing hr
    exact ⟨w, content, r', rfl, hw, hcontent⟩

/-! ## The overlines of a text -/

/-- A text as its overlines divide it: characters outside of overlines, and overlines with the blanks before their brace and with
what stands between their braces. -/
inductive Overlined where
  | nil
  | char (c : Char) (rest : Overlined)
  | overline (blanks : List Char) (content rest : Overlined)
  deriving DecidableEq

/-- A text in parentheses, unless it is one letter. -/
def inParentheses (s : List Char) : List Char := if s.length = 1 ∧ s.all Char.isUpper then s else '(' :: (s ++ [')'])

/-- The complement is `!` and the trimmed content, in parentheses unless it is one letter. -/
theorem complement_eq_inParentheses (content : List Char) : complement content = '!' :: inParentheses (trim content) := by
  unfold complement inParentheses
  split
  · rename_i x hx
    simp only [hx, List.length_singleton, List.all_cons, List.all_nil, Bool.and_true, true_and]
    split <;> rfl
  · rename_i hne
    rw [if_neg]
    rintro ⟨hlen, -⟩
    obtain ⟨x, hx⟩ := List.length_eq_one_iff.mp hlen
    exact hne x hx

namespace Overlined

/-- The text itself. -/
def text : Overlined → List Char
  | nil => []
  | char c d => c :: d.text
  | overline w x d => overlineMacro ++ (w ++ '{' :: (x.text ++ '}' :: d.text))

/-- The text with every overline, at every depth, written as `!` and what its content comes out as: without the blanks at its
ends, and in parentheses unless it is one letter. -/
def written : Overlined → List Char
  | nil => []
  | char c d => c :: d.written
  | overline _ x d => '!' :: (inParentheses (trim x.written) ++ d.written)

/-- The characters that are not markup of an overline. -/
def kept : Overlined → List Char
  | nil => []
  | char c d => c :: d.kept
  | overline _ x d => x.kept ++ d.kept

/-- How many overlines there are, at all depths. -/
def overlines : Overlined → Nat
  | nil => 0
  | char _ d => d.overlines
  | overline _ x d => 1 + x.overlines + d.overlines

/-- The overlines are those of the text where it stands before `rest`: none opens at any other character, and each is closed. -/
def Divides (rest : List Char) : Overlined → Prop
  | nil => True
  | char c d => ¬OpensOverline (c :: (d.text ++ rest)) ∧ d.Divides rest
  | overline w x d => (∀ c ∈ w, isBlank c) ∧ IsBalanced x.text ∧ x.Divides [] ∧ d.Divides rest

variable {d : Overlined} {rest : List Char}

theorem written_overline (w : List Char) (x d : Overlined) : (overline w x d).written = complement x.written ++ d.written := by
  rw [written, complement_eq_inParentheses]
  rfl

/-- What stands behind can be taken away. -/
theorem Divides.nil (h : d.Divides rest) : d.Divides [] := by
  induction d with
  | nil => trivial
  | char c d ih =>
    refine ⟨fun ho => h.1 ?_, ih h.2⟩
    have := ho.append rest
    rwa [List.append_nil] at this
  | overline w x d _ ih => exact ⟨h.1, h.2.1, h.2.2.1, ih h.2.2.2⟩

/-- A brace that closes joins no opening. -/
theorem Divides.before_brace (h : d.Divides []) (s : List Char) : d.Divides ('}' :: s) := by
  induction d with
  | nil => trivial
  | char c d ih =>
    refine ⟨fun ho => h.1 ?_, ih h.2⟩
    rw [List.append_nil]
    exact OpensOverline.of_append_cons (s := c :: d.text) (by decide) ho
  | overline w x d _ ih => exact ⟨h.1, h.2.1, h.2.2.1, ih h.2.2.2⟩

/-- Every text is divided by its overlines up to the first that is never closed. An overline of the content is closed, as the
braces of the content are balanced. -/
theorem exists_divides (t : List Char) : ∃ d s, t = text d ++ s ∧ d.Divides s ∧ (s = [] ∨ IsUnclosed s) := by
  induction hn : t.length using Nat.strong_induction_on generalizing t with
  | _ n ih =>
    subst hn
    by_cases ho : OpensOverline t
    · by_cases hc : ClosesOverline t
      · obtain ⟨w, content, r, rfl, hw, hb⟩ := hc
        have hlen : ∀ u : List Char, u.length ≤ content.length + r.length →
            u.length < (overlineMacro ++ (w ++ '{' :: (content ++ '}' :: r))).length := by
          intro u hu
          simp only [List.length_append, List.length_cons]
          omega
        obtain ⟨x, sx, rfl, hx, hend⟩ := ih _ (hlen content (by omega)) content rfl
        obtain rfl : sx = [] := hend.resolve_right fun hu => hu.2 (hb.closesOverline hu.1)
        obtain ⟨d, s, rfl, hd, hs⟩ := ih _ (hlen r (by omega)) r rfl
        rw [List.append_nil] at hb
        exact ⟨overline w x d, s, by simp [text], ⟨hw, hb, hx, hd⟩, hs⟩
      · exact ⟨.nil, t, rfl, trivial, .inr ⟨ho, hc⟩⟩
    · cases t with
      | nil => exact ⟨.nil, [], rfl, trivial, .inl rfl⟩
      | cons c t =>
        obtain ⟨d, s, rfl, hd, hs⟩ := ih _ (Nat.lt_succ_self _) t rfl
        exact ⟨char c d, s, rfl, ⟨ho, hd⟩, hs⟩

end Overlined

/-! ## One pass -/

/-- The frames behind a part of a text without an overline that stays open: the depth of the innermost one is another. -/
def framesAfter? : List OverlineFrame → List Char → Option (List OverlineFrame)
  | [], _ => some []
  | f :: fs, s => (depthAfter? brace? f.depth s).map fun e => { f with depth := e } :: fs

/-- The frames behind two parts of a text are those behind the second from those behind the first. -/
theorem framesAfter?_append (frames : List OverlineFrame) (s t : List Char) :
    framesAfter? frames (s ++ t) = (framesAfter? frames s).bind (framesAfter? · t) := by
  cases frames with
  | nil => rfl
  | cons f fs =>
    simp only [framesAfter?, depthAfter?_append]
    cases depthAfter? brace? f.depth s <;> rfl

/-- A character at which no overline opens stays, and changes the depth of the innermost frame. -/
theorem replaceOverlinesFrom_char {c : Char} {s : List Char} (h : ¬OpensOverline (c :: s)) {frames frames' : List OverlineFrame}
    (hf : framesAfter? frames [c] = some frames') (out : List Char) :
    replaceOverlinesFrom 0 frames out (c :: s) = replaceOverlinesFrom 0 frames' (c :: out) s := by
  have hnone : overlineOpening? (c :: s) = none := by
    rwa [← isSome_overlineOpening?_iff, Option.not_isSome_iff_eq_none] at h
  cases frames with
  | nil =>
    obtain rfl := Option.some.inj hf
    simp [replaceOverlinesFrom, hnone]
  | cons f fs =>
    obtain ⟨e, he, rfl⟩ := Option.map_eq_some_iff.mp hf
    rw [depthAfter?_cons] at he
    by_cases hl : c = '{'
    · subst hl
      obtain rfl : f.depth + 1 = e := Option.some.inj he
      simp [replaceOverlinesFrom, hnone]
    · by_cases hr : c = '}'
      · subst hr
        cases hd : f.depth with
        | zero =>
          rw [hd] at he
          cases he
        | succ k =>
          rw [hd] at he
          obtain rfl : k = e := Option.some.inj he
          simp [replaceOverlinesFrom, hnone, hd]
      · have hb : brace? c = none := by
          unfold brace?
          split <;> first | rfl | contradiction
        rw [hb] at he
        obtain rfl : f.depth = e := Option.some.inj he
        simp [replaceOverlinesFrom, hnone, hl, hr]

/-- A text that is divided by its overlines comes out as it is written, with the frames around it. The content is read with a
frame of its own, which the brace behind it closes. -/
theorem replaceOverlinesFrom_text {d : Overlined} {rest : List Char} (h : d.Divides rest) :
    ∀ {frames frames' : List OverlineFrame}, framesAfter? frames d.text = some frames' → ∀ out,
      replaceOverlinesFrom 0 frames out (d.text ++ rest) = replaceOverlinesFrom 0 frames' (d.written.reverse ++ out) rest := by
  induction d generalizing rest with
  | nil =>
    intro frames frames' hf out
    obtain rfl : frames = frames' := by
      cases frames <;> exact Option.some.inj hf
    rfl
  | char c d ih =>
    intro frames frames' hf out
    rw [Overlined.text, ← List.singleton_append, framesAfter?_append] at hf
    obtain ⟨frames₁, hc, hd⟩ := Option.bind_eq_some_iff.mp hf
    rw [Overlined.text, List.cons_append, replaceOverlinesFrom_char h.1 hc, ih h.2 hd, Overlined.written]
    simp
  | overline w x d ihx ih =>
    intro frames frames' hf out
    obtain ⟨hw, hb, hx, hd⟩ := h
    have hframes : framesAfter? frames d.text = some frames' := by
      cases frames with
      | nil => exact hf
      | cons f fs =>
        simp only [framesAfter?, Overlined.text, depthAfter?_overline hw hb] at hf
        exact hf
    have hcontent : ∀ source, framesAfter? (⟨out, 0, source⟩ :: frames) x.text = some (⟨out, 0, source⟩ :: frames) := by
      intro source
      rw [framesAfter?, show depthAfter? brace? 0 x.text = some 0 from hb]
      rfl
    have hassoc : (Overlined.overline w x d).text ++ rest =
        overlineMacro ++ (w ++ '{' :: (x.text ++ '}' :: (d.text ++ rest))) := by
      simp [Overlined.text]
    rw [hassoc, replaceOverlinesFrom_open hw, ihx (hx.before_brace _) (hcontent _), replaceOverlinesFrom_close, ih hd hframes,
      Overlined.written_overline]
    simp

/-- What a text comes to that ends with these overlines open: what was written before the outermost one and all from its macro on,
and what was written of the text itself if none is open. -/
def resume : List OverlineFrame → List Char → List Char
  | [], s => s
  | f :: fs, _ => resume fs (f.before.reverse ++ f.source)

/-- At the end of a text, overlines that are open are written as they were. -/
theorem replaceOverlinesFrom_nil (frames : List OverlineFrame) (out : List Char) :
    replaceOverlinesFrom 0 frames out [] = resume frames out.reverse := by
  induction frames generalizing out with
  | nil => rfl
  | cons f fs ih =>
    have hih := ih (f.source.reverse ++ f.before)
    rw [List.reverse_append, List.reverse_reverse] at hih
    rw [resume, ← hih, replaceOverlinesFrom, replaceOverlinesFrom, List.getLast?_cons]
    cases fs.getLast? <;> simp

/-- From an overline on that is never closed a text stays as it is, and so it does from the outermost one on that is open. A brace
at which the depth fails would close the overline. -/
theorem replaceOverlinesFrom_of_isUnclosed {s : List Char} (h : IsUnclosed s) (frames : List OverlineFrame) (out : List Char) :
    replaceOverlinesFrom 0 frames out s = resume frames (out.reverse ++ s) := by
  induction hn : s.length using Nat.strong_induction_on generalizing s frames out with
  | _ n ih =>
    subst hn
    obtain ⟨⟨w, r, rfl, hw⟩, hnot⟩ := h
    obtain ⟨d, s, rfl, hd, hs⟩ := Overlined.exists_divides r
    rw [replaceOverlinesFrom_open hw]
    generalize hsource : overlineMacro ++ (w ++ '{' :: (d.text ++ s)) = source at hnot ih ⊢
    obtain ⟨e, he⟩ : ∃ e, depthAfter? brace? 0 d.text = some e := by
      cases hdepth : depthAfter? brace? 0 d.text with
      | some e => exact ⟨e, rfl⟩
      | none =>
        obtain ⟨content, r, hr, hcontent⟩ := exists_closing hdepth
        exact absurd ⟨w, content, r ++ s, by rw [← hsource, hr]; simp, hw, hcontent⟩ hnot
    have hframes : framesAfter? (⟨out, 0, source⟩ :: frames) d.text = some (⟨out, e, source⟩ :: frames) := by
      rw [framesAfter?, he]
      rfl
    rw [replaceOverlinesFrom_text hd hframes]
    rcases hs with rfl | hs
    · rw [replaceOverlinesFrom_nil]
      rfl
    · rw [ih _ (by rw [← hsource]; simp; omega) hs _ _ rfl]
      rfl

end Propositional.Latex
