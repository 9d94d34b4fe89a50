import Mathlib.Data.List.Forall2
import Propositional.Latex.Implication
import Propositional.Proofs.Formula.Marks

/-!
# Reading lexemes

`Reading.through` reads lexemes as the marks that they are, and stops at a lexeme that is no part of a formula. An arrow is read
as what the elimination of arrows writes for it.

What an operand is does not depend on where it stands, whatever the lexemes inside it are (`through_operand`).
-/

namespace Propositional

open Latex

namespace Latex.Lexeme

/-- The token that a lexeme is, if it is one. -/
def token? : Lexeme → Option (Token Char)
  | atom c => some (.leaf c)
  | not => some .not
  | and => some .and
  | or => some .or
  | equiv => some (.equiv 2)
  | xor => some (.xor 1)
  | arrow => none
  | lparen => some .lparen
  | rparen => some .rparen
  | other _ => none

/-- The mark that a lexeme is, if it is part of a formula. -/
def mark? : Lexeme → Option (Mark Char)
  | arrow => some .arrow
  | t => t.token?.map .token

end Latex.Lexeme

namespace Reading

/-- The state after one more lexeme. -/
def take (s : Reading Char) (t : Lexeme) : Option (Reading Char) := t.mark?.bind s.mark

/-- The state after some lexemes. -/
def through (s : Reading Char) (ts : List Lexeme) : Option (Reading Char) := ts.foldlM take s

@[simp] theorem through_nil (s : Reading Char) : s.through [] = some s := rfl

@[simp] theorem through_cons (s : Reading Char) (t : Lexeme) (ts : List Lexeme) :
    s.through (t :: ts) = (s.take t).bind (·.through ts) := rfl

theorem through_append (s : Reading Char) (ts us : List Lexeme) :
    s.through (ts ++ us) = (s.through ts).bind (·.through us) := by
  simp [through, List.foldlM_append]

theorem through_singleton (s : Reading Char) (t : Lexeme) : s.through [t] = s.take t := by
  simp [through]

/-- If the elements of a list are all of some kind, it goes along the list of what they are. -/
theorem forall₂_of_map_some {σ τ : Type} {kind? : σ → Option τ} {ts : List σ} {us : List τ} (h : ts.map kind? = us.map some) :
    List.Forall₂ (fun t u => kind? t = some u) ts us := by
  have heq := List.forall₂_eq_eq_eq ▸ h
  rwa [List.forall₂_map_left_iff, List.forall₂_map_right_iff] at heq

/-- Lexemes that are marks are read as these. -/
theorem through_eq_afterMarks {ts : List Lexeme} {ms : List (Mark Char)} (h : ts.map Lexeme.mark? = ms.map some)
    (s : Reading Char) : s.through ts = s.afterMarks ms := by
  have hk := forall₂_of_map_some h
  clear h
  induction hk generalizing s with
  | nil => rfl
  | @cons t m ts ms hm _ ih =>
    have ht : s.take t = s.mark m := by rw [take, hm, Option.bind_some]
    rw [through_cons, afterMarks_cons, ht]
    congr 1
    funext r
    exact ih r

/-- Lexemes that are tokens are read as the reader of formulas reads these. -/
theorem through_eq_after {ts : List Lexeme} {us : List (Token Char)} (h : ts.map Lexeme.token? = us.map some) (s : Reading Char) :
    s.through ts = s.after us := by
  have hk := forall₂_of_map_some h
  clear h
  induction hk generalizing s with
  | nil => rfl
  | @cons t u ts us hu _ ih =>
    have ht : s.take t = s.step u := by cases t <;> cases hu <;> rfl
    rw [through_cons, after_cons, ht]
    congr 1
    funext r
    exact ih r

/-- Lexemes that are read are tokens or arrows. -/
theorem mark?_ne_none_of_through {ts : List Lexeme} {t : Lexeme} (ht : t ∈ ts) :
    ∀ {s r : Reading Char}, s.through ts = some r → t.mark? ≠ none := by
  induction ts with
  | nil => cases ht
  | cons u ts ih =>
    intro s r h
    obtain ⟨s', hs, h⟩ := Option.bind_eq_some_iff.mp h
    rcases List.mem_cons.mp ht with rfl | ht
    · intro hm
      simp [take, hm] at hs
    · exact ih ht h

/-- Lexemes that are all of some kind are a list of that kind. -/
theorem exists_map_some {σ τ : Type} {kind? : σ → Option τ} {ts : List σ} (h : ∀ t ∈ ts, kind? t ≠ none) :
    ∃ us : List τ, ts.map kind? = us.map some := by
  induction ts with
  | nil => exact ⟨[], rfl⟩
  | cons t ts ih =>
    obtain ⟨u, hu⟩ := Option.ne_none_iff_exists'.mp (h t List.mem_cons_self)
    obtain ⟨us, hus⟩ := ih fun t ht => h t (List.mem_cons_of_mem _ ht)
    exact ⟨u :: us, by rw [List.map_cons, List.map_cons, hu, hus]⟩

/-! ## What a step does -/

section Steps

variable (gs : List (Pending Char)) (g : Pending Char) (f : Formula Char)

/-- A negation counts before the operand that is due. -/
@[simp] theorem take_not :
    (⟨gs, g, none⟩ : Reading Char).take .not = some ⟨gs, { g with negations := g.negations + 1 }, none⟩ := rfl

/-- A `(` opens a group where an operand is due. -/
@[simp] theorem take_lparen : (⟨gs, g, none⟩ : Reading Char).take .lparen = some ⟨g :: gs, {}, none⟩ := rfl

/-- No negation stands behind an operand. -/
@[simp] theorem take_not_of_operand : (⟨gs, g, some f⟩ : Reading Char).take .not = none := rfl

/-- A `|` makes the conjunction the last member of the disjunction that waits. -/
@[simp] theorem take_or : (⟨gs, g, some f⟩ : Reading Char).take .or =
    some ⟨gs, { equivalence := g.equivalence, disjunction := some (g.disjoin f) }, none⟩ := rfl

/-- A `)` makes the whole of the group an operand of the group around. -/
@[simp] theorem take_rparen (p : Pending Char) :
    (⟨p :: gs, g, some f⟩ : Reading Char).take .rparen = some ⟨gs, p, some (g.close f)⟩ := rfl

end Steps

/-- Only an atom and a closed group leave an operand behind them. -/
theorem operand_eq_none_of_take {s s' : Reading Char} {t : Lexeme} (h : s.take t = some s') (ha : ∀ c, t ≠ .atom c)
    (hr : t ≠ .rparen) : s'.operand = none := by
  cases t with
  | atom c => exact absurd rfl (ha c)
  | rparen => exact absurd rfl hr
  | _ => rcases s with ⟨gs, g, _ | f⟩ <;> cases h <;> rfl

/-- A `|` needs an operand before it. -/
theorem take_or_eq_none {s : Reading Char} (h : s.operand = none) : s.take .or = none := by
  obtain ⟨gs, g, o⟩ := s
  obtain rfl : o = none := h
  rfl

end Reading

/-! ## Depth and operands -/

namespace Latex

/-- Whether a lexeme opens a group or closes one. -/
def Lexeme.paren? (t : Lexeme) : Option Bool := t.mark?.bind Mark.paren?

/-- The depth behind lexemes is that behind their marks. -/
theorem depthAfter?_marks {ts : List Lexeme} {ms : List (Mark Char)} (h : ts.map Lexeme.mark? = ms.map some) (d : Nat) :
    depthAfter? Lexeme.paren? d ts = depthAfter? Mark.paren? d ms := by
  have hk := Reading.forall₂_of_map_some h
  clear h
  induction hk generalizing d with
  | nil => rfl
  | cons hm _ ih =>
    rw [depthAfter?_cons, depthAfter?_cons, Lexeme.paren?, hm, Option.bind_some]
    congr 1
    funext d
    exact ih d

/-- An operand without the negations before it: an atom, or a group in parentheses that close only what they open. -/
def IsCore (ts : List Lexeme) : Prop :=
  (∃ c, ts = [.atom c]) ∨ ∃ us, ts = .lparen :: (us ++ [.rparen]) ∧ depthAfter? Lexeme.paren? 0 us = some 0

/-- The marks of a core are a core. -/
theorem IsCore.marks {ts : List Lexeme} {ms : List (Mark Char)} (h : IsCore ts) (hms : ts.map Lexeme.mark? = ms.map some) :
    Mark.IsCore ms := by
  rcases h with ⟨c, rfl⟩ | ⟨us, rfl, hd⟩
  · obtain ⟨m, ns, rfl, hm, hns⟩ := List.map_eq_cons_iff.mp hms.symm
    obtain rfl : ns = [] := List.map_eq_nil_iff.mp hns
    exact Or.inl ⟨c, by rw [Option.some.inj hm]⟩
  · obtain ⟨m, ns, rfl, hm, hns⟩ := List.map_eq_cons_iff.mp hms.symm
    rw [List.map_append] at hns
    obtain ⟨ks, ls, rfl, hks, hls⟩ := List.map_eq_append_iff.mp hns
    obtain ⟨m', ls', rfl, hm', hls'⟩ := List.map_eq_cons_iff.mp hls
    obtain rfl : ls' = [] := List.map_eq_nil_iff.mp hls'
    rw [Option.some.inj hm, Option.some.inj hm']
    exact Or.inr ⟨ks, rfl, by rw [← depthAfter?_marks hks.symm, hd]⟩

end Latex

namespace Reading

/-- The depth of parentheses is the number of groups around. -/
theorem depthAfter?_of_through {ts : List Lexeme} {s s' : Reading Char} (h : s.through ts = some s') :
    depthAfter? Lexeme.paren? s.outer.length ts = some s'.outer.length := by
  obtain ⟨ms, hms⟩ := exists_map_some fun t ht => mark?_ne_none_of_through ht h
  rw [through_eq_afterMarks hms] at h
  rw [depthAfter?_marks hms, depthAfter?_of_afterMarks h]

/-- What an operand is read as does not depend on where it stands, and it is read only where an operand is due. What is no part of
a formula is not read anywhere. -/
theorem through_operand {core : List Lexeme} (h : IsCore core) : ∃ o : Option (Formula Char),
    (∀ n gs g, (⟨gs, g, none⟩ : Reading Char).through (List.replicate n .not ++ core) =
      o.map fun f => ⟨gs, { g with negations := g.negations + n }, some f⟩) ∧
    ∀ n gs g f, (⟨gs, g, some f⟩ : Reading Char).through (List.replicate n .not ++ core) = none := by
  by_cases hall : ∀ t ∈ core, t.mark? ≠ none
  · obtain ⟨ms, hms⟩ := exists_map_some hall
    have hrun : ∀ (s : Reading Char) n, s.through (List.replicate n .not ++ core) =
        s.afterMarks (List.replicate n (.token .not) ++ ms) := by
      intro s n
      apply through_eq_afterMarks
      simp [hms, Lexeme.mark?, Lexeme.token?]
    simpa only [hrun] using afterMarks_operand (h.marks hms)
  · have hnone : ∀ (s : Reading Char) n, s.through (List.replicate n .not ++ core) = none := by
      intro s n
      cases hr : s.through (List.replicate n .not ++ core) with
      | none => rfl
      | some r => exact absurd (fun t ht => mark?_ne_none_of_through (List.mem_append_right _ ht) hr) hall
    exact ⟨none, fun n gs g => hnone _ n, fun n gs g f => hnone _ n⟩

end Reading

end Propositional
