import Propositional.Evaluation
import Propositional.Proofs.Results
import Propositional.Proofs.Text.Blank
import Propositional.Proofs.Valuation.Keys

/-!
# Writing values into a text

The values of letters are written into a text one letter after the other. No written value is a letter, so what comes out is what
one pass over the characters gives, each character on its own (`substituteText_byText`).
-/

namespace Propositional

open Text

/-- The character that stands for a character once the values are written: that of its value, or itself without one. -/
def Valuation.write (v : Valuation Char) (c : Char) : Char := ((v.lookup c).map bit).getD c

/-- The truth value of a character once the values are written. -/
def Valuation.truth (v : Valuation Char) (c : Char) : Bool := v.write c == '1'

/-- A valuation gives values to letters only. -/
def Valuation.OfLetters (v : Valuation Char) : Prop := ∀ p ∈ v, p.1.isUpper

/-- Replacing one character by another changes each place by itself. -/
theorem replaceText_singleton (x y : Char) (s : List Char) : replaceText [x] [y] s = s.map fun c => if c = x then y else c := by
  have h : ∀ s, replaceFrom (literal [x]) [y] 0 s = s.map fun c => if c = x then y else c := by
    intro s
    induction s with
    | nil => rfl
    | cons c s ih =>
      by_cases hc : c = x
      · simp [replaceFrom, literal, hc, ih]
      · have hx : ¬x = c := fun h => hc h.symm
        simp [replaceFrom, literal, hc, hx, ih]
  simpa [replaceText, replaceMatches] using h s

/-- A digit for a truth value is no letter. -/
theorem isUpper_bit (b : Bool) : (bit b).isUpper = false := by cases b <;> rfl

namespace Valuation

/-- A character with a value is written as its digit. -/
theorem write_eq_of_lookup {v : Valuation Char} {c : Char} {b : Bool} (h : v.lookup c = some b) : v.write c = bit b := by
  simp [write, h]

/-- A character without a value is written as it is. -/
theorem write_eq_self {v : Valuation Char} {c : Char} (h : v.lookup c = none) : v.write c = c := by
  simp [write, h]

/-- A valuation is of letters exactly if all its keys are upper case. -/
theorem ofLetters_iff {v : Valuation Char} : v.OfLetters ↔ ∀ c ∈ v.keys, c.isUpper := by
  rw [keys, List.forall_mem_map, OfLetters]

/-- A valuation made for letters is of letters. -/
theorem ofLetters_assign {xs : List Char} (h : ∀ c ∈ xs, c.isUpper) (val : Char → Bool) : (assign xs val).OfLetters :=
  ofLetters_iff.mpr (by rwa [keys_assign])

/-- Only letters have values. -/
theorem OfLetters.lookup_eq_none {v : Valuation Char} (hv : v.OfLetters) {c : Char} (hc : c.isUpper = false) :
    v.lookup c = none := by
  rw [List.lookup_eq_none_iff]
  intro p hp
  have hne : c ≠ p.1 := by
    rintro rfl
    rw [hv p hp] at hc
    cases hc
  simpa using hne

/-- A valuation of letters leaves what is no letter as it is. -/
theorem OfLetters.write_eq_self {v : Valuation Char} (hv : v.OfLetters) {c : Char} (hc : c.isUpper = false) : v.write c = c :=
  Valuation.write_eq_self (hv.lookup_eq_none hc)

/-- The rest of a valuation of letters is of letters. -/
theorem OfLetters.tail {p : Char × Bool} {v : Valuation Char} (hv : OfLetters (p :: v)) : OfLetters v :=
  fun q hq => hv q (List.mem_cons_of_mem p hq)

/-- Writing the value of one letter first makes no difference for what is written later. -/
theorem OfLetters.write_cons {p : Char × Bool} {v : Valuation Char} (hv : OfLetters (p :: v)) (c : Char) :
    write (p :: v) c = write v (if c = p.1 then bit p.2 else c) := by
  by_cases hc : c = p.1
  · rw [if_pos hc, hv.tail.write_eq_self (isUpper_bit p.2)]
    rw [hc, write, lookup_cons_self]
    rfl
  · rw [if_neg hc, write, lookup_cons_of_ne hc, write]

end Valuation

/-- The values of letters are written character by character. -/
theorem substituteText_byText {v : Valuation Char} (hv : v.OfLetters) (s : List Char) :
    substituteText s v.byText = s.map v.write := by
  induction v generalizing s with
  | nil =>
    have hid : Valuation.write [] = id := funext fun c => rfl
    rw [hid, List.map_id]
    rfl
  | cons p v ih =>
    have hstep : substituteText s (Valuation.byText (p :: v)) =
        substituteText (replaceText [p.1] [bit p.2] s) (Valuation.byText v) := by
      simp [substituteText, Valuation.byText]
    rw [hstep, ih hv.tail, replaceText_singleton, List.map_map]
    exact List.map_congr_left fun c _ => (hv.write_cons c).symm

/-- A text compiles to a formula exactly if its characters are allowed, it has tokens, and they parse to the formula. -/
theorem compileText_eq_ok_iff {s : List Char} {f : Formula Bool} :
    compileText s = .ok f ↔ (∀ c ∈ s, isAllowed c) ∧ ∃ ts, Token.scan bit? s = .ok ts ∧ Formula.parse ts = .ok f := by
  have hparse : parseText s = .ok f ↔ ∃ ts, Token.scan bit? s = .ok ts ∧ Formula.parse ts = .ok f := by
    unfold parseText
    cases Token.scan bit? s with
    | error e => simp
    | ok ts => cases hp : Formula.parse ts <;> simp [hp]
  unfold compileText
  cases hs : s.find? (!isAllowed ·) with
  | some c =>
    have hc := List.find?_some hs
    have hm := List.mem_of_find?_eq_some hs
    simp only [reduceCtorEq, false_iff, not_and]
    intro h
    simp [h c hm] at hc
  | none =>
    have hall : ∀ c ∈ s, isAllowed c := by simpa using hs
    rw [← hparse]
    cases parseText s <;> simp
    intro _
    exact hall

/-- A formula is evaluated by reading its text with the values written. -/
theorem evaluateLetters_eq {v : Valuation Char} (hv : v.OfLetters) (formula : String) :
    evaluateLetters formula v =
      ((compileText (formula.toList.map v.write)).map (Formula.eval id)).mapError (⟨formula, ·⟩) := by
  rw [evaluateLetters, evaluate, substituteText_byText hv]

/-- A formula has a value exactly if its text with the digits written compiles to a formula with that value. -/
theorem evaluateLetters_eq_ok_iff_compileText {formula : String} {v : Valuation Char} (hv : v.OfLetters) {b : Bool} :
    evaluateLetters formula v = .ok b ↔ ∃ f, compileText (formula.toList.map v.write) = .ok f ∧ f.eval id = b := by
  rw [evaluateLetters_eq hv]
  cases compileText (formula.toList.map v.write) <;> simp [Except.map]

/-- A formula has a value exactly when the text with the values written holds nothing but what may stand in a formula, and is
one. -/
theorem evaluateLetters_eq_ok_iff {formula : String} {v : Valuation Char} (hv : v.OfLetters) {b : Bool} :
    evaluateLetters formula v = .ok b ↔ (∀ c ∈ formula.toList, isAllowed (v.write c)) ∧
      ∃ ts f, Token.scan bit? (formula.toList.map v.write) = .ok ts ∧ Formula.parse ts = .ok f ∧ f.eval id = b := by
  simp only [evaluateLetters_eq_ok_iff_compileText hv, compileText_eq_ok_iff, List.forall_mem_map]
  constructor
  · rintro ⟨f, ⟨hall, ts, hts, hf⟩, hb⟩
    exact ⟨hall, ts, f, hts, hf, hb⟩
  · rintro ⟨hall, ts, f, hts, hf, hb⟩
    exact ⟨f, ⟨hall, ts, hts, hf⟩, hb⟩

end Propositional
