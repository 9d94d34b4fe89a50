import Mathlib.Data.List.Chain
import Propositional.Proofs.Text.Lines

/-!
# Bars behind backslashes

A bar cuts a text unless an odd number of backslashes stands before it. So a cell in which each bar has such a number before it
is not cut, and a bar behind the cell is where the cell ends (`splitAtBars_cell`). Where no backslash stands directly before a
bar (`BarsBare`), one backslash more is enough.
-/

namespace Propositional.Text

/-- How many backslashes stand directly before what comes behind a character. -/
def backslashesAfter (backslashes : Nat) (c : Char) : Nat := if c = '\\' then backslashes + 1 else 0

/-- Behind anything but a backslash there is none. -/
theorem backslashesAfter_of_ne {c : Char} (h : c ≠ '\\') (backslashes : Nat) : backslashesAfter backslashes c = 0 := if_neg h

/-- The parts of the rest of a text, which stands behind some backslashes, between the bars behind an even number of
backslashes. -/
def splitAtBarsFrom (backslashes : Nat) : List Char → List (List Char)
  | [] => [[]]
  | c :: cs =>
    let parts := splitAtBarsFrom (backslashesAfter backslashes c) cs
    if c = '|' ∧ backslashes % 2 = 0 then [] :: parts else pushFirst c parts

/-- The parts of a text between the bars behind an even number of backslashes, or none. -/
def splitAtBars (s : List Char) : List (List Char) := splitAtBarsFrom 0 s

/-- Each bar of a text, which stands behind some backslashes, stands behind an odd number of backslashes. -/
def BarsEscaped : Nat → List Char → Prop
  | _, [] => True
  | backslashes, c :: cs => (c = '|' → backslashes % 2 = 1) ∧ BarsEscaped (backslashesAfter backslashes c) cs

section Cut

variable {n : Nat} {s : List Char}

/-- The bars of a text are escaped exactly if those of both its parts are, each where it stands. -/
theorem barsEscaped_append {t : List Char} :
    BarsEscaped n (s ++ t) ↔ BarsEscaped n s ∧ BarsEscaped (s.foldl backslashesAfter n) t := by
  induction s generalizing n with
  | nil => exact ⟨fun h => ⟨trivial, h⟩, And.right⟩
  | cons c s ih => rw [List.cons_append, BarsEscaped, BarsEscaped, ih, and_assoc, List.foldl_cons]

/-- A text without bars has them escaped. -/
theorem barsEscaped_of_notMem (h : '|' ∉ s) : BarsEscaped n s := by
  induction s generalizing n with
  | nil => trivial
  | cons c s ih =>
    rw [List.mem_cons, not_or] at h
    exact ⟨fun hc => absurd hc.symm h.1, ih h.2⟩

/-- A text whose bars are escaped is not cut. -/
theorem splitAtBarsFrom_append (h : BarsEscaped n s) (r : List Char) :
    splitAtBarsFrom n (s ++ r) = s.foldr pushFirst (splitAtBarsFrom (s.foldl backslashesAfter n) r) := by
  induction s generalizing n with
  | nil => rfl
  | cons c s ih =>
    obtain ⟨hc, hs⟩ := h
    have hcut : ¬(c = '|' ∧ n % 2 = 0) := by
      rintro ⟨hbar, heven⟩
      have hodd := hc hbar
      omega
    rw [List.cons_append, splitAtBarsFrom, if_neg hcut, ih hs]
    rfl

/-- A cell between spaces ends at the bar behind it. -/
theorem splitAtBars_cell (h : BarsEscaped 0 s) (r : List Char) :
    splitAtBars (' ' :: (s ++ ' ' :: '|' :: r)) = (' ' :: (s ++ [' '])) :: splitAtBars r := by
  have hcell : BarsEscaped 0 (' ' :: (s ++ [' '])) :=
    ⟨by decide, barsEscaped_append.mpr ⟨h, barsEscaped_of_notMem (by decide)⟩⟩
  have hcount : (' ' :: (s ++ [' '])).foldl backslashesAfter 0 = 0 := by
    rw [← List.cons_append, List.foldl_append]
    rfl
  have hassoc : ' ' :: (s ++ ' ' :: '|' :: r) = (' ' :: (s ++ [' '])) ++ '|' :: r := by simp
  have hbar : splitAtBarsFrom 0 ('|' :: r) = [] :: splitAtBars r := rfl
  rw [hassoc, splitAtBars, splitAtBarsFrom_append hcell, hcount, hbar, foldr_pushFirst, List.append_nil]

/-- A line of cells between bars is cut into the cells, with a space at each end, and nothing before the first bar and behind
the last. -/
theorem splitAtBars_line {cells : List (List Char)} (hne : cells ≠ []) (h : ∀ s ∈ cells, BarsEscaped 0 s) :
    splitAtBars ('|' :: ' ' :: (joinWith [' ', '|', ' '] cells ++ [' ', '|'])) =
      [] :: (cells.map (fun s => ' ' :: (s ++ [' '])) ++ [[]]) := by
  have hbar : ∀ r, splitAtBars ('|' :: r) = [] :: splitAtBars r := fun _ => rfl
  rw [hbar]
  refine congrArg _ ?_
  induction cells with
  | nil => exact absurd rfl hne
  | cons s cells ih =>
    obtain ⟨hs, hcells⟩ := List.forall_mem_cons.mp h
    by_cases hlast : cells = []
    · subst hlast
      exact splitAtBars_cell hs []
    · rw [joinWith_cons hlast, List.append_assoc, List.append_assoc]
      exact (splitAtBars_cell hs _).trans (congrArg _ (ih hlast hcells))

example : splitAtBars "| a\\|b | c\\\\ |".toList = [[], " a\\|b ".toList, " c\\\\ ".toList, []] := by decide

end Cut

/-! ## Bars without a backslash -/

/-- No backslash stands directly before a bar. -/
def BarsBare (s : List Char) : Prop := s.IsChain fun c d => c = '\\' → d ≠ '|'

instance : DecidablePred BarsBare := fun s => inferInstanceAs (Decidable (s.IsChain fun c d => c = '\\' → d ≠ '|'))

/-- A text whose bars are not bare has one right behind a backslash. -/
theorem exists_escapedBar_of_not_barsBare {s : List Char} (h : ¬BarsBare s) : ∃ p q, s = p ++ '\\' :: '|' :: q := by
  by_contra hnone
  refine h (List.isChain_iff_forall_rel_of_append_cons_cons.mpr ?_)
  rintro c d p q hs rfl rfl
  exact hnone ⟨p, q, hs⟩

namespace BarsBare

variable {s t : List Char}

/-- A text without backslashes has bare bars. -/
theorem of_notMem (h : '\\' ∉ s) : BarsBare s := by
  by_contra hnot
  obtain ⟨p, q, rfl⟩ := exists_escapedBar_of_not_barsBare hnot
  exact h (by simp)

/-- Bars stay bare behind a character that is no backslash. -/
theorem cons {c : Char} (hc : c ≠ '\\') (h : BarsBare s) : BarsBare (c :: s) :=
  List.isChain_cons.mpr ⟨fun _ _ he => absurd he hc, h⟩

/-- Texts are put together where the first does not end in a backslash or the second does not start with a bar. -/
theorem append (hs : BarsBare s) (ht : BarsBare t) (h : '\\' ∉ s.getLast? ∨ '|' ∉ t.head?) : BarsBare (s ++ t) := by
  refine List.isChain_append.mpr ⟨hs, ht, ?_⟩
  rintro c hc d hd rfl rfl
  exact h.elim (· hc) (· hd)

/-- Blanks have bare bars. -/
theorem of_blanks (h : ∀ c ∈ s, isBlank c) : BarsBare s := of_notMem fun hs => absurd (h _ hs) (by decide)

/-- The blanks around a text have no part in whether its bars are bare. -/
theorem trim_iff : BarsBare (trim s) ↔ BarsBare s := by
  obtain ⟨w, w', hs, hw, hw'⟩ := exists_eq_append_trim_append s
  constructor
  · intro h
    rw [hs]
    refine (of_blanks hw).append (h.append (of_blanks hw') (.inr fun hbar => ?_)) (.inl fun hslash => ?_)
    · exact absurd (hw' _ (List.mem_of_mem_head? hbar)) (by decide)
    · exact absurd (hw _ (List.mem_of_mem_getLast? hslash)) (by decide)
  · intro h
    exact List.IsChain.infix h ⟨w, w', by rw [List.append_assoc, ← hs]⟩

end BarsBare

end Propositional.Text
