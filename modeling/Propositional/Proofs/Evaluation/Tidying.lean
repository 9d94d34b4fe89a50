import Mathlib.Data.List.Forall2
import Propositional.Proofs.Evaluation.Variables
import Propositional.Proofs.Formula.RunLength
import Propositional.Proofs.Token.Native

/-!
# Tidied formulas

Two texts may spell the same tokens with other blanks and other lengths of runs. Such texts have the same letters, and with values
written into them they are cut into tokens of the same kinds with the same constants (`Tidied.forall₂_tokenize`). So they have
the same value, or none because of the same token (`Tidied.sameOutcome`).
-/

namespace Propositional

open Text

/-- The second text spells the tokens of the first, which need not be a formula, with the usual lengths of runs. -/
def Tidied (f g : String) : Prop :=
  ∃ ts, Token.Spells ts f.toList ∧ Token.Spells (ts.map .canonical) g.toList ∧ ∀ c, .leaf c ∈ ts → Latex.isAtom c

/-- Two runs come out the same: with results that are related, or with errors about the form of one formula each, which spell the
same tokens and are given up at the same token. -/
inductive SameOutcome {α β : Type} (R : α → β → Prop) : Except FormulaError α → Except FormulaError β → Prop where
  | ok {a : α} {b : β} : R a b → SameOutcome R (.ok a) (.ok b)
  | malformed {f g : String} {p q : ParseFault Bool} : Tidied f g → p.position? = q.position? →
      SameOutcome R (.error ⟨f, .malformed (.parse p)⟩) (.error ⟨g, .malformed (.parse q)⟩)

namespace SameOutcome

variable {α β γ δ : Type} {R : α → β → Prop}

/-- Outcomes that are the same stay so when related functions are applied to them. -/
theorem map {S : γ → δ → Prop} {F : α → γ} {G : β → δ} {x : Except FormulaError α} {y : Except FormulaError β}
    (h : SameOutcome R x y) (hFG : ∀ a b, R a b → S (F a) (G b)) : SameOutcome S (x.map F) (y.map G) := by
  cases h with
  | ok hab => exact .ok (hFG _ _ hab)
  | malformed hfg hpq => exact .malformed hfg hpq

/-- Lists whose members come out the same one by one come out the same as a whole. -/
theorem mapM {F : γ → Except FormulaError α} {G : δ → Except FormulaError β} {xs : List γ} {ys : List δ}
    (h : List.Forall₂ (fun x y => SameOutcome R (F x) (G y)) xs ys) :
    SameOutcome (List.Forall₂ R) (xs.mapM F) (ys.mapM G) := by
  induction h with
  | nil => exact .ok .nil
  | @cons x y xs ys hxy _ ih =>
    rw [List.mapM_cons, List.mapM_cons]
    revert hxy
    generalize F x = r, G y = r'
    rintro (hab | ⟨hfg, hpq⟩)
    · exact ih.map fun _ _ h => .cons hab h
    · exact .malformed hfg hpq

end SameOutcome

/-! ## Values written into spelled tokens -/

section Spelled

variable {us : List (Token Char)} {formula : String} (h : Token.Spells us formula.toList) {v : Valuation Char}
  (hv : v.OfLetters) (hleaf : ∀ c, .leaf c ∈ us → Latex.isAtom c ∧ Latex.HasValue v c)

include h hv hleaf

/-- The tokens of a formula with values in it are those it spells, with the values as leaves. -/
theorem tokenize_substitute_of_spells : tokenize (substitute formula v.byText) =
    .ok (us.map (fun t => shownToken (some (t.map v.truth))) ++ [shownToken none]) := by
  rw [substitute_byText hv, tokenize, String.toList_ofList, Latex.scan_write_of_spells h hv hleaf]
  simp only [List.map_map]
  rfl

/-- What a spelled text comes out as is what its tokens do, with the values in the leaves. -/
theorem evaluateLetters_of_spells : evaluateLetters formula v =
    ((Formula.parse (us.map (·.map v.truth))).map (Formula.eval id)).mapError fun e => ⟨formula, .malformed (.parse e)⟩ := by
  have hnone : (formula.toList.map v.write).find? (!isAllowed ·) = none := by
    simpa using Latex.isAllowed_write_of_spells h hv hleaf
  rw [evaluateLetters_eq hv, compileText, hnone, parseText, Latex.scan_write_of_spells h hv hleaf]
  dsimp only
  cases Formula.parse (us.map (·.map v.truth)) <;> rfl

end Spelled

/-! ## The same tokens -/

namespace Tidied

variable {f g : String}

/-- Tidying takes no letter and no digit away, and brings none. -/
theorem mem_iff (h : Tidied f g) {c : Char} (hc : c.isAlphanum) : c ∈ f.toList ↔ c ∈ g.toList := by
  obtain ⟨ts, hf, hg, -⟩ := h
  rw [hf.mem_iff hc, hg.mem_iff hc]
  simp only [List.mem_map, Token.canonical_eq_leaf, exists_eq_right]

/-- The leaves of both texts are atoms with values if the letters of the first have values. -/
theorem hasValue_of_leaf_mem {ts : List (Token Char)} (hf : Token.Spells ts f.toList)
    (hatom : ∀ c, .leaf c ∈ ts → Latex.isAtom c) {v : Valuation Char} (hkeys : ∀ c ∈ letters f, c ∈ v.keys) {c : Char}
    (hc : .leaf c ∈ ts) : Latex.isAtom c ∧ Latex.HasValue v c := by
  refine ⟨hatom c hc, fun hu => ?_⟩
  have hmem := (hf.mem_iff (isAlphanum_of_isUpper hu)).mpr hc
  exact Valuation.isSome_lookup_iff.mpr (hkeys c (mem_letters.mpr ⟨hu, hmem⟩))

variable {v : Valuation Char}

/-- The tokens are of the same kinds one by one, and the constants among them are the same. -/
theorem forall₂_tokenize (h : Tidied f g) (hv : v.OfLetters) (hkeys : ∀ c ∈ letters f, c ∈ v.keys) :
    ∃ xs ys, tokenize (substitute f v.byText) = .ok xs ∧ tokenize (substitute g v.byText) = .ok ys ∧
      List.Forall₂ (fun x y => x.1 = y.1 ∧ (x.1 = .const → x.2 = y.2)) xs ys := by
  obtain ⟨ts, hf, hg, hatom⟩ := h
  have hleaf : ∀ c, .leaf c ∈ ts → Latex.isAtom c ∧ Latex.HasValue v c := fun c => hasValue_of_leaf_mem hf hatom hkeys
  refine ⟨_, _, tokenize_substitute_of_spells hf hv hleaf, tokenize_substitute_of_spells hg hv fun c hc => hleaf c ?_, ?_⟩
  · simpa [Token.canonical_eq_leaf] using hc
  · refine List.rel_append ?_ (.cons ⟨rfl, fun _ => rfl⟩ .nil)
    rw [List.map_map, List.forall₂_map_left_iff, List.forall₂_map_right_iff, List.forall₂_same]
    intro t _
    cases t <;> simp [shownToken, Token.map, Token.canonical, Token.kind]

/-- The texts have the same value, or both have none because of the same token. -/
theorem sameOutcome (h : Tidied f g) (hv : v.OfLetters) (hkeys : ∀ c ∈ letters f, c ∈ v.keys) :
    SameOutcome (· = ·) (evaluateLetters f v) (evaluateLetters g v) := by
  have hfg := h
  obtain ⟨ts, hf, hg, hatom⟩ := h
  have hleaf : ∀ c, .leaf c ∈ ts → Latex.isAtom c ∧ Latex.HasValue v c := fun c => hasValue_of_leaf_mem hf hatom hkeys
  have hmap : (ts.map Token.canonical).map (·.map v.truth) = (ts.map (·.map v.truth)).map Token.canonical := by
    simp only [List.map_map]
    exact List.map_congr_left fun t _ => t.map_canonical v.truth
  rw [evaluateLetters_of_spells hf hv hleaf,
    evaluateLetters_of_spells hg hv fun c hc => hleaf c (by simpa [Token.canonical_eq_leaf] using hc), hmap,
      Formula.parse_canonical]
  cases Formula.parse (ts.map (·.map v.truth)) with
  | ok k => exact .ok rfl
  | error e => exact .malformed hfg (e.position?_map .canonical).symm

end Tidied

end Propositional
