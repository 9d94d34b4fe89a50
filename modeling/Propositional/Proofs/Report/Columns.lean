import Mathlib.Data.List.Forall2
import Propositional.Proofs.Text.Joining
import Propositional.Report.Plain

/-!
# Texts in columns

A line of a plain report is as long as the line that rules its headings off exactly if each text fits into its column
(`length_plainRow_eq_iff`). Then each text has a cell as wide as the column (`inColumns_plainRow`), and the line shows the
texts, but for spaces before them (`InColumns.forall₂_dropWhile`).
-/

namespace Propositional.Report

open Text

/-- Each text is no longer than its column is wide. -/
def Fit (widths : List Nat) (texts : List (List Char)) : Prop := List.Forall₂ (fun w s => s.length ≤ w) widths texts

/-- A line has one cell for each column, as wide as the column, and each text stands at the right of a cell. -/
def InColumns (widths : List Nat) (texts : List (List Char)) (line : List Char) : Prop :=
  ∃ cells, line = joinWith [' ', '|', ' '] cells ∧ cells.map List.length = widths ∧
    List.Forall₂ (fun s cell => ∃ k, cell = List.replicate k ' ' ++ s) texts cells

/-- Widths, each widened to the length of a text. -/
def widen (widths : List Nat) (texts : List (List Char)) : List Nat := List.zipWith (fun w s => max w s.length) widths texts

/-- What holds of all members of two lists of one length holds of them side by side. -/
theorem forall₂_of_forall_mem {α β : Type} {R : α → β → Prop} {xs : List α} :
    ∀ {ys : List β}, xs.length = ys.length → (∀ x ∈ xs, ∀ y ∈ ys, R x y) → List.Forall₂ R xs ys := by
  induction xs with
  | nil =>
    intro ys hlength _
    obtain rfl := List.eq_nil_of_length_eq_zero hlength.symm
    exact .nil
  | cons x xs ih =>
    intro ys hlength h
    obtain ⟨y, ys, rfl⟩ := List.exists_cons_of_length_eq_add_one hlength.symm
    exact .cons (h x (by simp) y (by simp)) (ih (Nat.succ.inj hlength) fun x' hx y' hy => h x' (by simp [hx]) y' (by simp [hy]))

/-- A member of two lists put together comes from a member of each. -/
theorem exists_of_mem_zipWith {α β γ : Type} {f : α → β → γ} {xs : List α} {ys : List β} {z : γ} (h : z ∈ List.zipWith f xs ys) :
    ∃ x ∈ xs, ∃ y ∈ ys, f x y = z := by
  obtain ⟨i, hi⟩ := List.mem_iff_getElem?.mp h
  obtain ⟨x, y, hx, hy, hxy⟩ := List.getElem?_zipWith_eq_some.mp hi
  exact ⟨x, List.mem_of_getElem? hx, y, List.mem_of_getElem? hy, hxy⟩

/-- Texts that fit are padded to the widths of the columns. -/
theorem Fit.map_length {pad : Nat → List Char → List Char} (hpad : ∀ w s, (pad w s).length = max w s.length) {widths : List Nat}
    {texts : List (List Char)} (h : Fit widths texts) : (List.zipWith pad widths texts).map List.length = widths := by
  induction h with
  | nil => rfl
  | cons hw _ ih => rw [List.zipWith_cons_cons, List.map_cons, hpad, Nat.max_eq_left hw, ih]

/-- A text with spaces before it is as long as the width, or longer if it was. -/
theorem length_padLeft (w : Nat) (s : List Char) : (padLeft w s).length = max w s.length := by
  rw [padLeft, List.length_append, List.length_replicate]
  omega

/-- The line between heads and rows has the widths, and three characters between two columns. -/
theorem length_plainRule (widths : List Nat) : (plainRule widths).length = widths.sum + 3 * (widths.length - 1) := by
  have hlengths : (widths.map fun w => List.replicate w '-').map List.length = widths := by simp [Function.comp_def]
  rw [plainRule, length_joinWith, hlengths, List.length_map]
  rfl

section Line

variable {widths : List Nat} {texts : List (List Char)} {line : List Char}

/-- A line of texts in columns is as long as the rule. -/
theorem InColumns.length_eq (h : InColumns widths texts line) : line.length = (plainRule widths).length := by
  obtain ⟨cells, rfl, rfl, -⟩ := h
  rw [length_joinWith, length_plainRule, List.length_map]
  rfl

/-- A line shows its texts, but for the spaces before them. -/
theorem InColumns.forall₂_dropWhile {texts' : List (List Char)} (h : InColumns widths texts line)
    (h' : InColumns widths texts' line) :
    List.Forall₂ (fun s s' => s.dropWhile (· = ' ') = s'.dropWhile (· = ' ')) texts texts' := by
  obtain ⟨cells, rfl, hwidths, hcells⟩ := h
  obtain ⟨cells', hline, hwidths', hcells'⟩ := h'
  obtain rfl := joinWith_inj (hwidths.trans hwidths'.symm) hline
  have hdrop : ∀ {texts : List (List Char)}, List.Forall₂ (fun s cell => ∃ k, cell = List.replicate k ' ' ++ s) texts cells →
      texts.map (List.dropWhile (· = ' ')) = cells.map (List.dropWhile (· = ' ')) := by
    intro texts hcells
    refine List.forall₂_eq_eq_eq ▸ List.forall₂_map_left_iff.mpr (List.forall₂_map_right_iff.mpr (hcells.imp ?_))
    rintro s cell ⟨k, rfl⟩
    rw [List.dropWhile_append_of_pos fun c hc => by simpa using List.eq_of_mem_replicate hc]
  have heq := List.forall₂_eq_eq_eq ▸ (hdrop hcells).trans (hdrop hcells').symm
  rwa [List.forall₂_map_left_iff, List.forall₂_map_right_iff] at heq

/-- A text has spaces before it in its cell, and nothing else, whether it fits or not. -/
theorem forall₂_padLeft (hlength : widths.length = texts.length) :
    List.Forall₂ (fun s cell => ∃ k, cell = List.replicate k ' ' ++ s) texts (List.zipWith padLeft widths texts) := by
  induction widths generalizing texts with
  | nil =>
    obtain rfl := List.eq_nil_of_length_eq_zero hlength.symm
    exact .nil
  | cons w widths ih =>
    obtain ⟨s, texts, rfl⟩ := List.exists_cons_of_length_eq_add_one hlength.symm
    exact .cons ⟨_, rfl⟩ (ih (Nat.succ.inj hlength))

/-- Texts that fit are set into the columns. -/
theorem inColumns_plainRow (h : Fit widths texts) : InColumns widths texts (plainRow widths texts) :=
  ⟨_, rfl, h.map_length length_padLeft, forall₂_padLeft h.length_eq⟩

/-- A text that does not fit makes its line longer, and no other text makes up for that. -/
theorem sum_widen (hlength : widths.length = texts.length) :
    widths.sum ≤ (widen widths texts).sum ∧ ((widen widths texts).sum = widths.sum ↔ Fit widths texts) := by
  induction widths generalizing texts with
  | nil =>
    obtain rfl := List.eq_nil_of_length_eq_zero hlength.symm
    exact ⟨Nat.le_refl _, iff_of_true rfl .nil⟩
  | cons w widths ih =>
    obtain ⟨s, texts, rfl⟩ := List.exists_cons_of_length_eq_add_one hlength.symm
    obtain ⟨hle, hiff⟩ := ih (Nat.succ.inj hlength)
    rw [widen, List.zipWith_cons_cons, ← widen, List.sum_cons, List.sum_cons]
    refine ⟨by omega, ?_⟩
    rw [Fit, List.forall₂_cons, ← Fit, ← hiff]
    omega

/-- A row has the length of this line exactly if all texts fit. -/
theorem length_plainRow_eq_iff (hlength : widths.length = texts.length) :
    (plainRow widths texts).length = (plainRule widths).length ↔ Fit widths texts := by
  have hlengths : (List.zipWith padLeft widths texts).map List.length = widen widths texts := by
    rw [List.map_zipWith]
    exact congrArg (List.zipWith · widths texts) (funext₂ length_padLeft)
  rw [plainRow, length_joinWith, hlengths, List.length_zipWith, ← hlength, Nat.min_self, length_plainRule]
  exact Nat.add_right_cancel_iff.trans (sum_widen hlength).2

end Line

end Propositional.Report
