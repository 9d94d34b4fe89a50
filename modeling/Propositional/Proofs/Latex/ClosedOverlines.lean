import Mathlib.Data.List.Infix
import Propositional.Proofs.Latex.Overlined

/-!
# What overlines come to

Replacing the overlines of a text replaces the closed ones, and those alone (`replaceOverlines_exact`): from the first overline on
that is never closed the text stays as it is, no overline is left before it or comes about, no character is lost that is neither
markup nor a blank at the end of a content, and of the braces only those of the overlines are gone.
-/

namespace Propositional.Latex

open Text

/-! ## What is left -/

/-- A property of the text from each character of `s` on, where `s` stands before `rest`. -/
def FromEach (P : List Char → Prop) (rest : List Char) : List Char → Prop
  | [] => True
  | c :: s => P (c :: (s ++ rest)) ∧ FromEach P rest s

section FromEach

variable {P : List Char → Prop} {rest s t : List Char}

/-- What holds from each character of a text holds from each of both its parts. -/
theorem fromEach_append : FromEach P rest (s ++ t) ↔ FromEach P (t ++ rest) s ∧ FromEach P rest t := by
  induction s with
  | nil => simp [FromEach]
  | cons c s ih => simp [FromEach, ih, and_assoc]

/-- What holds from each character holds of every end of the text that is not empty. -/
theorem fromEach_iff : FromEach P rest s ↔ ∀ a b, s = a ++ b → b ≠ [] → P (b ++ rest) := by
  induction s with
  | nil =>
    refine ⟨fun _ a b h hb => ?_, fun _ => trivial⟩
    exact absurd (List.append_eq_nil_iff.mp h.symm).2 hb
  | cons c s ih =>
    rw [FromEach, ih]
    constructor
    · rintro ⟨hc, hs⟩ (_ | ⟨d, a⟩) b h hb
      · rw [← (show c :: s = b from h)]
        exact hc
      · exact hs a b (List.cons.inj h).2 hb
    · exact fun h => ⟨h [] (c :: s) rfl (by simp), fun a b hs => h (c :: a) b (by rw [hs]; rfl)⟩

/-- Where no overline can open, nothing is to be said of openings. -/
theorem fromEach_of_no_backslash (hP : ∀ b, ¬OpensOverline b → P b) (hs : ∀ c ∈ s, c ≠ '\\') : FromEach P rest s := by
  induction s with
  | nil => trivial
  | cons c s ih =>
    obtain ⟨hc, hs⟩ := List.forall_mem_cons.mp hs
    exact ⟨hP _ (not_opensOverline_cons hc _), ih hs⟩

end FromEach

/-- In the opening of an overline only the first character is a backslash. -/
theorem ne_backslash_of_opening {w : List Char} (hw : ∀ c ∈ w, isBlank c) :
    ∀ c ∈ overlineMacro.tail ++ (w ++ ['{']), c ≠ '\\' := by
  intro c hc
  simp only [List.mem_append, List.mem_singleton] at hc
  rcases hc with hc | hc | rfl
  · revert c
    decide
  · exact ne_of_holds (hw c hc) (by decide)
  · decide

namespace Overlined

variable {d : Overlined} {rest : List Char}

theorem text_overline (w : List Char) (x d : Overlined) :
    (overline w x d).text = '\\' :: (overlineMacro.tail ++ (w ++ ['{']) ++ (x.text ++ '}' :: d.text)) := by
  show '\\' :: (overlineMacro.tail ++ (w ++ '{' :: (x.text ++ '}' :: d.text))) = _
  simp only [List.append_assoc, List.singleton_append]

/-- Every overline that opens in the text is closed. -/
theorem Divides.fromEach_text (h : d.Divides rest) : FromEach (fun b => OpensOverline b → ClosesOverline b) rest d.text := by
  induction d generalizing rest with
  | nil => trivial
  | char c d ih => exact ⟨fun ho => absurd ho h.1, ih h.2⟩
  | overline w x d ihx ih =>
    obtain ⟨hw, hb, hx, hd⟩ := h
    have hskip : ∀ b, ¬OpensOverline b → OpensOverline b → ClosesOverline b := fun b hb ho => absurd ho hb
    have hcloses : ClosesOverline ((overline w x d).text ++ rest) := ⟨w, x.text, d.text ++ rest, by simp [text], hw, hb⟩
    rw [text_overline] at hcloses ⊢
    refine ⟨fun _ => hcloses, fromEach_append.mpr ⟨?_, fromEach_append.mpr ⟨ihx (hx.before_brace _), ?_, ih hd⟩⟩⟩
    · exact fromEach_of_no_backslash hskip (ne_backslash_of_opening hw)
    · exact fun ho => absurd ho (not_opensOverline_cons (by decide) _)

/-- An overline that opens before what is written opened before the text already. -/
theorem opensOverline_of_written (h : d.Divides rest) {u : List Char} (ho : OpensOverline (u ++ d.written)) :
    OpensOverline (u ++ (d.text ++ rest)) := by
  induction d generalizing u with
  | nil =>
    rw [written, List.append_nil] at ho
    exact ho.append rest
  | char c d ih =>
    rw [written, ← List.singleton_append, ← List.append_assoc] at ho
    have := ih h.2 ho
    rwa [List.append_assoc] at this
  | overline w x d _ _ =>
    suffices h : OpensOverline u from h.append _
    rcases complement_eq x.written with ⟨y, -, he⟩ | he <;> rw [written_overline, he] at ho <;>
      exact OpensOverline.of_append_cons (c := '!') (by decide) ho

/-- No overline opens in what is written. A content is written without the blanks at its ends, and a parenthesis joins
no opening. -/
theorem Divides.fromEach_written (h : d.Divides rest) : FromEach (¬OpensOverline ·) [] d.written := by
  induction d generalizing rest with
  | nil => trivial
  | char c d ih =>
    refine ⟨fun ho => h.1 ?_, ih h.2⟩
    rw [List.append_nil] at ho
    exact opensOverline_of_written (u := [c]) h.2 ho
  | overline w x d ihx ih =>
    obtain ⟨-, -, hx, hd⟩ := h
    have hplain : ∀ {p : List Char}, (∀ c ∈ p, c ≠ '\\') → ∀ rest, FromEach (¬OpensOverline ·) rest p :=
      fun hp _ => fromEach_of_no_backslash (fun _ hb => hb) hp
    rw [written_overline, fromEach_append]
    refine ⟨?_, ih hd⟩
    rcases complement_eq x.written with ⟨y, -, he⟩ | he <;> rw [he]
    · exact hplain (by simpa using ne_of_holds y.2 (by decide)) _
    · refine fromEach_append (s := ['!', '(']).mpr ⟨hplain (by decide) _, fromEach_append.mpr ⟨?_, hplain (by decide) _⟩⟩
      rw [fromEach_iff]
      intro a b hab hb ho
      obtain ⟨w, v, hwv, -, -⟩ := exists_eq_append_trim_append x.written
      rw [hab, List.append_assoc, ← List.append_assoc] at hwv
      refine fromEach_iff.mp (ihx hx) _ _ hwv (by simp [hb]) ?_
      rw [List.append_nil]
      exact (OpensOverline.of_append_cons (c := ')') (by decide) ho).append v

/-! ## What is kept -/

/-- The text without the blanks that it starts with. -/
def stripStart : Overlined → Overlined
  | nil => nil
  | char c d => if isBlank c then d.stripStart else char c d
  | overline w x d => overline w x d

/-- The text without the blanks that it ends with. -/
def stripEnd : Overlined → Overlined
  | nil => nil
  | char c d => if d.stripEnd = nil ∧ isBlank c then nil else char c d.stripEnd
  | overline w x d => overline w x d.stripEnd

/-- The text without the blanks at the ends of what an overline holds, for every overline. -/
def stripped : Overlined → Overlined
  | nil => nil
  | char c d => char c d.stripped
  | overline w x d => overline w x.stripped.stripStart.stripEnd d.stripped

/-- A text without the blanks at its start is written without them. -/
theorem written_stripStart (d : Overlined) : d.stripStart.written = d.written.dropWhile isBlank := by
  induction d with
  | nil => rfl
  | char c d ih =>
    rw [stripStart, written]
    split
    · rename_i hc
      rw [ih, List.dropWhile_cons_of_pos hc]
    · rename_i hc
      rw [written, List.dropWhile_cons_of_neg hc]
  | overline w x d _ _ => rcases complement_eq x.written with ⟨y, -, he⟩ | he <;> rw [stripStart, written_overline, he] <;> rfl

/-- The blanks at the start of a text stand there in what is kept and in what is written. -/
theorem exists_stripStart (d : Overlined) : ∃ w, (∀ c ∈ w, isBlank c) ∧ d.kept = w ++ d.stripStart.kept ∧
    d.written = w ++ d.stripStart.written := by
  induction d with
  | nil => exact ⟨[], by simp, rfl, rfl⟩
  | char c d ih =>
    rw [stripStart]
    split
    · rename_i hc
      obtain ⟨w, hw, hkept, hwritten⟩ := ih
      exact ⟨c :: w, List.forall_mem_cons.mpr ⟨hc, hw⟩, by rw [kept, hkept]; rfl, by rw [written, hwritten]; rfl⟩
    · exact ⟨[], by simp, rfl, rfl⟩
  | overline w x d _ _ => exact ⟨[], by simp, rfl, rfl⟩

/-- Blanks at the end are stripped, and nothing else: where all is stripped, all were blanks. -/
theorem exists_stripEnd (d : Overlined) : ∃ w, (∀ c ∈ w, isBlank c) ∧ d.kept = d.stripEnd.kept ++ w ∧
    d.written = d.stripEnd.written ++ w := by
  induction d with
  | nil => exact ⟨[], by simp, rfl, rfl⟩
  | char c d ih =>
    obtain ⟨w, hw, hkept, hwritten⟩ := ih
    rw [stripEnd]
    split
    · rename_i hd
      obtain ⟨hd, hc⟩ := hd
      rw [hd] at hkept hwritten
      exact ⟨c :: w, List.forall_mem_cons.mpr ⟨hc, hw⟩, congrArg (c :: ·) hkept, congrArg (c :: ·) hwritten⟩
    · exact ⟨w, hw, by rw [kept, hkept]; rfl, by rw [written, hwritten]; rfl⟩
  | overline w x d _ ih =>
    obtain ⟨w', hw', hkept, hwritten⟩ := ih
    exact ⟨w', hw', by rw [kept, hkept, stripEnd, kept, List.append_assoc],
      by rw [written_overline, hwritten, stripEnd, written_overline, List.append_assoc]⟩

/-- Only the empty text is written as nothing. -/
theorem written_eq_nil {d : Overlined} : d.written = [] ↔ d = nil := by
  cases d with
  | nil => simp [written]
  | char c d => simp [written]
  | overline w x d => rcases complement_eq x.written with ⟨y, -, he⟩ | he <;> simp [written_overline, he]

/-- A text without the blanks at its end is written without them. -/
theorem written_stripEnd (d : Overlined) : d.stripEnd.written = trimEnd d.written := by
  induction d with
  | nil => rfl
  | char c d ih =>
    rw [written, trimEnd_cons, ← ih, stripEnd, apply_ite written]
    simp only [written_eq_nil, written]
  | overline w x d _ ih =>
    have hlast : ∀ (p s : List Char) (c : Char), isBlank c = false → trimEnd (p ++ [c] ++ s) = p ++ [c] ++ trimEnd s := by
      intro p s c hc
      rw [List.append_assoc, List.append_assoc]
      exact trimEnd_append hc s
    rw [stripEnd, written_overline, written_overline, ih]
    rcases complement_eq x.written with ⟨y, -, he⟩ | he <;> rw [he]
    · exact (hlast ['!'] _ _ (isBlank_eq_false_of_isAlphanum (isAlphanum_of_isUpper y.2))).symm
    · exact (hlast ('!' :: '(' :: trim x.written) _ _ (by decide)).symm

/-- The blanks around a content have no part in its complement. -/
theorem complement_trim (content : List Char) : complement (trim content) = complement content := by
  rw [complement_eq_inParentheses, complement_eq_inParentheses, trim_trim]

/-- A text without the blanks at its ends is written without them. -/
theorem written_strip (d : Overlined) : d.stripStart.stripEnd.written = trim d.written := by
  rw [written_stripEnd, written_stripStart, trim]

/-- Stripped of the blanks at the ends of its contents, the text is written the same. -/
theorem written_stripped (d : Overlined) : d.stripped.written = d.written := by
  induction d with
  | nil => rfl
  | char c d ih => rw [stripped, written, written, ih]
  | overline w x d ihx ih =>
    rw [stripped, written_overline, written_overline, written_strip, ihx, ih, complement_trim]

/-- The complement has all characters of its content, in their order. -/
theorem sublist_complement (content : List Char) : (trim content).Sublist (complement content) := by
  rcases complement_eq content with ⟨y, ht, he⟩ | he <;> rw [he]
  · rw [ht]
    exact List.sublist_cons_self _ _
  · exact ((List.sublist_append_left _ _).cons _).cons _

/-- What stands neither in the markup nor in the blanks that are stripped is written, in its order. The blanks that are stripped
stand at the ends of both texts. -/
theorem sublist_written (d : Overlined) : d.stripped.kept.Sublist d.written := by
  induction d with
  | nil => exact List.Sublist.refl _
  | char c d ih => exact ih.cons_cons c
  | overline w x d ihx ih =>
    rw [stripped, kept, written_overline]
    refine List.Sublist.append (List.Sublist.trans ?_ (sublist_complement _)) ih
    obtain ⟨w₁, -, hkept₁, hwritten₁⟩ := exists_stripStart x.stripped
    obtain ⟨w₂, -, hkept₂, hwritten₂⟩ := exists_stripEnd x.stripped.stripStart
    rw [← written_stripped, hkept₁, hwritten₁, List.append_sublist_append_left, hkept₂, hwritten₂,
      List.append_sublist_append_right, written_strip, written_stripped] at ihx
    exact ihx

/-! ## What is gone -/

/-- The complement has as many braces as its content. -/
theorem count_complement {c : Char} (hc : c ∈ ['{', '}']) (content : List Char) :
    (complement content).count c = content.count c := by
  have hnot : ∀ c ∈ ['{', '}'], isBlank c = false ∧ ['!', '('].count c = 0 ∧ [')'].count c = 0 ∧ ['!'].count c = 0 := by decide
  obtain ⟨hb, hopen, hclose, hbang⟩ := hnot c hc
  rw [← count_trim hb content]
  rcases complement_eq content with ⟨y, ht, he⟩ | he <;> rw [he]
  · rw [ht, ← List.singleton_append, List.count_append, hbang, Nat.zero_add]
  · show (['!', '('] ++ (trim content ++ [')'])).count c = _
    rw [List.count_append, List.count_append, hopen, hclose, Nat.zero_add, Nat.add_zero]

/-- The braces that are written are those that do not belong to overlines. -/
theorem count_written {c : Char} (hc : c ∈ ['{', '}']) (d : Overlined) : d.written.count c = d.kept.count c := by
  induction d with
  | nil => rfl
  | char e d ih => rw [written, kept, List.count_cons, List.count_cons, ih]
  | overline w x d ihx ih => rw [written_overline, kept, List.count_append, List.count_append, count_complement hc, ihx, ih]

/-- Each overline has one brace of either kind. -/
theorem Divides.count_text (h : d.Divides rest) {c : Char} (hc : c ∈ ['{', '}']) :
    d.text.count c = d.kept.count c + d.overlines := by
  induction d generalizing rest with
  | nil => rfl
  | char e d ih =>
    rw [text, kept, overlines, List.count_cons, List.count_cons, ih h.2]
    omega
  | overline w x d ihx ih =>
    obtain ⟨hw, -, hx, hd⟩ := h
    have hbrace : ∀ c ∈ ['{', '}'], overlineMacro.count c = 0 ∧ isBlank c = false ∧ ['{'].count c + ['}'].count c = 1 := by decide
    obtain ⟨hname, hb, hone⟩ := hbrace c hc
    have hblanks : w.count c = 0 := List.count_eq_zero.mpr fun hmem => by
      rw [hw c hmem] at hb
      cases hb
    have hsplit : (overline w x d).text = overlineMacro ++ (w ++ (['{'] ++ (x.text ++ (['}'] ++ d.text)))) := by simp [text]
    rw [hsplit, kept, overlines]
    simp only [List.count_append, hname, hblanks, ihx hx, ih hd]
    omega

end Overlined

/-- How many overlines open in a text. -/
def openings (s : List Char) : Nat := s.tails.countP (OpensOverline ·)

/-- One more character before a text opens one more overline or none. -/
theorem openings_cons (c : Char) (s : List Char) :
    openings (c :: s) = openings s + if OpensOverline (c :: s) then 1 else 0 := by
  rw [openings, List.tails_cons, List.countP_cons, openings]
  simp only [decide_eq_true_eq]

/-- What has no backslash opens no overline before a text. -/
theorem openings_append_of_no_backslash {p : List Char} (hp : ∀ c ∈ p, c ≠ '\\') (s : List Char) :
    openings (p ++ s) = openings s := by
  induction p with
  | nil => rfl
  | cons c p ih =>
    obtain ⟨hc, hp⟩ := List.forall_mem_cons.mp hp
    rw [List.cons_append, openings_cons, if_neg (not_opensOverline_cons hc _), ih hp, Nat.add_zero]

/-- The openings of a content stay the same with the brace that closes it and what stands behind. -/
theorem openings_append_brace (x s : List Char) : openings (x ++ '}' :: s) = openings x + openings s := by
  induction x with
  | nil =>
    rw [List.nil_append, openings_cons, if_neg (not_opensOverline_cons (by decide) s)]
    exact Nat.add_comm _ _
  | cons c x ih =>
    have hiff : OpensOverline (c :: (x ++ '}' :: s)) ↔ OpensOverline (c :: x) :=
      ⟨OpensOverline.of_append_cons (c := '}') (s := c :: x) (by decide), (OpensOverline.append · _)⟩
    rw [List.cons_append, openings_cons, openings_cons, ih, if_congr hiff rfl rfl]
    omega

/-- Every opening is one of an overline, at some depth. -/
theorem Overlined.Divides.openings_text {d : Overlined} (h : d.Divides []) : openings d.text = d.overlines := by
  induction d with
  | nil => rfl
  | char c d ih =>
    have hnot := h.1
    rw [List.append_nil] at hnot
    rw [text, openings_cons, if_neg hnot, ih h.2, overlines, Nat.add_zero]
  | overline w x d ihx ih =>
    obtain ⟨hw, -, hx, hd⟩ := h
    have hopens : OpensOverline (overline w x d).text := ⟨w, _, rfl, hw⟩
    rw [text_overline] at hopens ⊢
    rw [openings_cons, if_pos hopens, openings_append_of_no_backslash (ne_backslash_of_opening hw), openings_append_brace,
      ihx hx, ih hd, overlines]
    omega

/-- A text is written as its overlines say up to the first that is never closed, and stays as it is from there on. -/
theorem replaceOverlines_of_divides {d : Overlined} {s : List Char} (hd : d.Divides s) (hs : s = [] ∨ IsUnclosed s) :
    replaceOverlines (d.text ++ s) = d.written ++ s := by
  rw [replaceOverlines, replaceOverlinesFrom_text hd (show framesAfter? [] d.text = some [] from rfl)]
  rcases hs with rfl | hs
  · rw [replaceOverlinesFrom_nil]
    simp [resume]
  · rw [replaceOverlinesFrom_of_isUnclosed hs]
    simp [resume]

/-- A character that opens no overline stays in front of what the rest of the text comes to. -/
theorem replaceOverlines_cons {c : Char} {t : List Char} (h : ¬OpensOverline (c :: t)) :
    replaceOverlines (c :: t) = c :: replaceOverlines t := by
  obtain ⟨d, s, rfl, hd, hs⟩ := Overlined.exists_divides t
  rw [replaceOverlines_of_divides hd hs]
  exact replaceOverlines_of_divides (d := .char c d) ⟨h, hd⟩ hs

/-- A text is the text `d` before the first overline that is never closed, and `s` from that overline on, which is empty if there
is none. Replacing the overlines replaces those of `d`, at every depth, and leaves `s` as it is. In the result for `d` no overline
opens, every character stands in its order that is neither markup of an overline nor a blank at an end of what one holds, and for
each overline that opened, one brace of either kind is gone. -/
theorem replaceOverlines_exact (t : List Char) :
    ∃ (d : Overlined) (s : List Char), t = d.text ++ s ∧
      (s = [] ∨ IsUnclosed s) ∧ (∀ a b, d.text = a ++ b → b ≠ [] → ¬IsUnclosed (b ++ s)) ∧
      replaceOverlines t = replaceOverlines d.text ++ s ∧
      d.Divides [] ∧ replaceOverlines d.text = d.written ∧
      (∀ a b, d.written = a ++ b → ¬OpensOverline b) ∧
      d.stripped.kept.Sublist d.written ∧
      openings d.text = d.overlines ∧
      ∀ c ∈ ['{', '}'], d.written.count c + openings d.text = d.text.count c := by
  obtain ⟨d, s, rfl, hd, hs⟩ := Overlined.exists_divides t
  have hwritten := replaceOverlines_of_divides hd.nil (.inl rfl)
  rw [List.append_nil, List.append_nil] at hwritten
  have hopenings := hd.nil.openings_text
  refine ⟨d, s, rfl, hs, fun a b hab hb hu => ?_, ?_, hd.nil, hwritten, fun a b hab ho => ?_, d.sublist_written, hopenings,
    fun c hc => ?_⟩
  · exact hu.2 (fromEach_iff.mp hd.fromEach_text a b hab hb hu.1)
  · rw [hwritten, replaceOverlines_of_divides hd hs]
  · have hb : b ≠ [] := by
      rintro rfl
      exact absurd ho (by decide)
    refine fromEach_iff.mp hd.fromEach_written a b hab hb ?_
    rwa [List.append_nil]
  · rw [hopenings, hd.count_text hc, Overlined.count_written hc]

example : replaceOverlines "\\overline\x7b \\overline \x7bA\x7d | B \x7d & \\overline\x7bC".toList =
    "!(!A | B) & \\overline\x7bC".toList := by decide

end Propositional.Latex
