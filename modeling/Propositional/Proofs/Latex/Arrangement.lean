import Propositional.Proofs.Latex.Translation

/-!
# The native notation of arrangements

A text whose signs can stand one behind the other has a native notation without a diagnostic, strict or not, and which one it is
depends on the signs alone: not on the spellings, and not on the blanks (`Arranged.exists_normalize`).
-/

namespace Propositional.Latex

/-- The complement of a chain is an operand. -/
theorem Arranged.complementSigns {ys : List Sign} (h : Arranged .chain ys) : Arranged .operand (complementSigns ys) := by
  rcases complementSigns_eq ys with ⟨x, -, hc⟩ | ⟨-, hc⟩ <;> rw [hc]
  · exact .not (.letter x)
  · exact .not (.group h)

/-- An arrangement comes out as an arrangement when its overlines are replaced. -/
theorem Arranged.uncovers {p : Part} {xs : List Sign} (h : Arranged p xs) : ∃ ys, Uncovers xs ys ∧ Arranged p ys := by
  induction h with
  | letter x => exact ⟨_, .plain trivial .nil, .letter x⟩
  | constant b => exact ⟨_, .plain trivial .nil, .constant b⟩
  | not _ ih =>
    obtain ⟨ys, hys, h⟩ := ih
    exact ⟨_, .plain trivial hys, .not h⟩
  | group _ ih =>
    obtain ⟨ys, hys, h⟩ := ih
    exact ⟨_, .plain trivial (hys.append (.plain trivial .nil)), .group h⟩
  | overline _ ih =>
    obtain ⟨ys, hys, h⟩ := ih
    exact ⟨_, .overline hys .nil, by rw [List.append_nil]; exact h.complementSigns⟩
  | ofOperand _ ih =>
    obtain ⟨ys, hys, h⟩ := ih
    exact ⟨ys, hys, .ofOperand h⟩
  | link hop _ _ ih₁ ih₂ =>
    obtain ⟨ys, hys, h⟩ := ih₁
    obtain ⟨zs, hzs, h'⟩ := ih₂
    have hplain : ∀ op ∈ Sign.connectives, op.IsPlain := by simp [Sign.connectives, Sign.IsPlain]
    exact ⟨_, hys.append (.plain (hplain _ hop) hzs), .link hop h h'⟩

/-- A connective behind an operand makes the next operand due. -/
theorem take_connective {op : Sign} (h : op ∈ Sign.connectives) (gs : List (Pending Char)) (g : Pending Char)
    (f : Formula Char) : ∃ g', (⟨gs, g, some f⟩ : Reading Char).take op.lexeme = some ⟨gs, g', none⟩ := by
  simp only [Sign.connectives, List.mem_cons, List.not_mem_nil, or_false] at h
  rcases h with rfl | rfl | rfl | rfl <;> exact ⟨_, rfl⟩

/-- Where an operand is due, an arrangement without overlines is read, and leaves an operand. -/
theorem Arranged.through {p : Part} {xs : List Sign} (h : Arranged p xs) (hx : ∀ x ∈ xs, x.IsPlain) (gs : List (Pending Char))
    (g : Pending Char) :
    ∃ g' f, (⟨gs, g, none⟩ : Reading Char).through (xs.map Sign.lexeme) = some ⟨gs, g', some f⟩ := by
  induction h generalizing gs g with
  | letter x => exact ⟨_, _, rfl⟩
  | constant b => exact ⟨_, _, rfl⟩
  | not _ ih =>
    rw [through_signs_cons (Reading.take_not gs g)]
    exact ih (fun x hm => hx x (by simp [hm])) _ _
  | group _ ih =>
    obtain ⟨g', f, hrun⟩ := ih (fun x hm => hx x (by simp [hm])) (g :: gs) {}
    refine ⟨g, g'.close f, ?_⟩
    rw [through_signs_cons (Reading.take_lparen gs g), through_signs_append hrun,
      through_signs_cons (Reading.take_rparen gs g' f g)]
    rfl
  | overline _ _ => exact absurd (hx .overline (by simp)) id
  | ofOperand _ ih => exact ih hx gs g
  | link hop _ _ ih₁ ih₂ =>
    obtain ⟨g₁, f₁, hrun₁⟩ := ih₁ (fun x hm => hx x (by simp [hm])) gs g
    obtain ⟨g₂, htake⟩ := take_connective hop gs g₁ f₁
    obtain ⟨g₃, f₃, hrun₂⟩ := ih₂ (fun x hm => hx x (by simp [hm])) gs g₂
    refine ⟨g₃, f₃, ?_⟩
    rw [through_signs_append hrun₁, through_signs_cons htake, hrun₂]

/-- All texts of an arrangement have the same native notation, and no diagnostic. -/
theorem Arranged.exists_normalize {xs : List Sign} (h : Arranged .chain xs) : ∃ formula, ∀ (strict : Bool) (s : String),
    Written Sign.spellings [] xs s.toList → normalize strict s = .ok ⟨formula, []⟩ := by
  obtain ⟨ys, hys, harranged⟩ := h.uncovers
  obtain ⟨g, f, hrun⟩ := harranged.through hys.isPlain [] {}
  obtain ⟨e, he⟩ := exists_eliminateFrom (ys.map Sign.lexeme) []
  have hclean : e.degraded = [] := degraded_eq_nil_of_through he ((through_eliminate he).trans hrun)
  refine ⟨String.ofList (Lexeme.render e.lexemes), fun strict s hs => normalize_eq_ok_iff.mpr ⟨e, ?_, by rw [hclean]⟩⟩
  obtain ⟨s', hc⟩ := hys.cleared hs
  rw [harranged.lexemes_eq hc.replaceOverlines]
  cases strict with
  | false => exact he
  | true => rw [eliminate, eliminateFrom_strict he, hclean, heed]

end Propositional.Latex
