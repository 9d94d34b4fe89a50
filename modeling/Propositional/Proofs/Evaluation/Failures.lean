import Propositional.Proofs.Results
import Propositional.Proofs.Token.Munch

/-!
# How an evaluation fails

Whatever is written in place of the variables, an evaluation comes out in one of three ways: the text holds a character that no
formula may hold, and the first such character is named; or the text is read as a formula, and its value is that of the tree; or
it is not, and the reason is the one for which its text is none (`evaluate_classified`). Once the characters were looked at, no
character can be unknown, and in the tree of a formula every operator is a connective (`Formula.value?_overKinds`), so these two
reasons never arise.
-/

namespace Propositional

/-! ## Operators of the tree that is read -/

/-- The formula as a tree over all kinds of token, each connective being the kind of token that writes it. -/
def Formula.overKinds {α : Type} : Formula α → Tree Kind α
  | .leaf a => .leaf a
  | .not x => .not (overKinds x)
  | .binary c l r => .binary c.kind (overKinds l) (overKinds r)

/-- The kind of a connective is that of this connective. -/
theorem Connective.connective?_kind (c : Connective) : c.kind.connective? = some c := by cases c <;> rfl

/-- No operator of a formula is without a meaning. -/
theorem Formula.value?_overKinds (f : Formula Bool) : f.overKinds.value? = .ok (f.eval id) := by
  induction f with
  | leaf b => rfl
  | not x ih =>
    rw [overKinds, Tree.value?, ih]
    rfl
  | binary c l r ihl ihr =>
    simp only [overKinds, Tree.value?, ihl, ihr, c.connective?_kind]
    rfl

/-! ## Reasons -/

namespace Malformation

/-- The reason is that of a text without characters that no formula may hold: it is neither a character nor an operator of the
tree. -/
def IsOfAllowed : Malformation → Prop
  | scan (.unknownCharacter _ _) | unknownNode => False
  | scan (.unknownOperator _) | parse _ => True

/-- A text starts as its first part does. -/
theorem head?_append_of_head? {s t : String} {c : Char} (h : s.toList.head? = some c) : (s ++ t).toList.head? = some c := by
  rw [String.toList_append, List.head?_append, h]
  rfl

/-- The words of such a reason start with another letter than those of an unknown character or node. -/
theorem IsOfAllowed.head?_message {r : Malformation} (h : r.IsOfAllowed) :
    ∃ c ∈ ['o', 'f', 's', 't'], r.message.toList.head? = some c := by
  cases r with
  | scan f =>
    cases f with
    | unknownOperator p => exact ⟨'o', by decide, head?_append_of_head? (by decide)⟩
    | unknownCharacter p c => exact h.elim
  | parse f =>
    cases f with
    | empty => exact ⟨'f', by decide, by decide⟩
    | operandDue found p =>
      refine ⟨'s', by decide, ?_⟩
      iterate 5 refine head?_append_of_head? ?_
      decide
    | closeDue found p =>
      refine ⟨'s', by decide, ?_⟩
      iterate 5 refine head?_append_of_head? ?_
      decide
    | leftover found p =>
      refine ⟨'t', by decide, ?_⟩
      iterate 3 refine head?_append_of_head? ?_
      decide
  | unknownNode => exact h.elim

/-- So these words are none of theirs. -/
theorem IsOfAllowed.not_prefix {r : Malformation} (h : r.IsOfAllowed) {c : Char} {s : List Char}
    (hc : c ∉ ['o', 'f', 's', 't']) : ¬(c :: s) <+: r.message.toList := by
  rintro ⟨t, ht⟩
  obtain ⟨d, hd, hhead⟩ := h.head?_message
  rw [← ht] at hhead
  exact hc (Option.some.inj hhead ▸ hd)

end Malformation

/-- What makes an allowed text malformed is a run that is too long, or the order of its tokens. An offending character would be
one of the text, and all of those are allowed. -/
theorem isOfAllowed_of_parseText {s : List Char} (hs : ∀ c ∈ s, isAllowed c) {r : Malformation} (h : parseText s = .error r) :
    r.IsOfAllowed := by
  unfold parseText at h
  cases hscan : Token.scan bit? s with
  | ok ts =>
    rw [hscan] at h
    cases hparse : Formula.parse ts with
    | ok f => simp [hparse] at h
    | error e =>
      simp only [hparse, mapError_error, Except.error.injEq] at h
      rw [← h]
      trivial
  | error f =>
    rw [hscan] at h
    obtain rfl := Except.error.inj h
    obtain ⟨gs, hgs⟩ := exists_munched s
    have hscanned : Scanned gs 0 (Token.scan bit? s) := hgs.scanned 0
    obtain ⟨pre, g, post, rfl, -, ho⟩ := (hscan ▸ hscanned).of_error
    cases ho with
    | @character c p hc =>
      have hmem : c ∈ s := by
        rw [← hgs.flatten]
        simp
      rw [hs c hmem] at hc
      cases hc
    | bang _ => trivial
    | equals _ => trivial

/-! ## The outcome -/

/-- A text is refused for a character exactly if it is the first one that is not allowed. -/
theorem compileText_eq_disallowed_iff {s : List Char} {c : Char} :
    compileText s = .error (.disallowed c) ↔ s.find? (!isAllowed ·) = some c := by
  unfold compileText
  cases s.find? (!isAllowed ·) with
  | some d => simp
  | none => cases parseText s <;> simp

/-- What makes a text malformed is something that can be wrong with allowed characters. -/
theorem isOfAllowed_of_compileText {s : List Char} {r : Malformation} (h : compileText s = .error (.malformed r)) :
    r.IsOfAllowed := by
  unfold compileText at h
  cases hfind : s.find? (!isAllowed ·) with
  | some d => simp [hfind] at h
  | none =>
    have hall : ∀ c ∈ s, isAllowed c := by simpa using hfind
    cases hparse : parseText s with
    | ok f => simp [hfind, hparse] at h
    | error q =>
      obtain rfl : q = r := by simpa [hfind, hparse] using h
      exact isOfAllowed_of_parseText hall hparse

section Outcome

variable {formula : String} {v : Valuation String}

/-- What a formula with values in it compiles to, by the text with these values. -/
theorem compile_substitute_eq : compile (substitute formula v) =
    (compileText (substituteText formula.toList v)).mapError (⟨substitute formula v, ·⟩) := by
  rw [compile, substitute, String.toList_ofList]

/-- An evaluation fails as the reading of the text with the values does. -/
theorem evaluate_eq_error_iff {e : FormulaError} :
    evaluate formula v = .error e ↔ ∃ d, compileText (substituteText formula.toList v) = .error d ∧ e = ⟨formula, d⟩ := by
  unfold evaluate
  cases compileText (substituteText formula.toList v) <;> simp [Except.map, eq_comm]

end Outcome

/-- How the evaluation of a formula comes out, whatever texts its variables are. A character is complained about exactly if it is
the first one, once the values are written, that no formula may hold. If there is none, the value is that of the tree that the
text is read as, or the text is malformed and so is the formula, for the same reason. All errors are about the formula as it was
given, and none says that a character is not recognised or that a node is unknown. -/
theorem evaluate_classified (formula : String) (v : Valuation String) :
    (∀ c, (∃ e, evaluate formula v = .error e ∧ e.defect = .disallowed c) ↔
      ∃ a b, (substitute formula v).toList = a ++ c :: b ∧ (∀ d ∈ a, isAllowed d) ∧ isAllowed c = false) ∧
    ((∀ c ∈ (substitute formula v).toList, isAllowed c) →
      (∃ f b, compile (substitute formula v) = .ok f ∧ f.overKinds.value? = .ok b ∧ evaluate formula v = .ok b) ∨
      ∃ r, compile (substitute formula v) = .error ⟨substitute formula v, .malformed r⟩ ∧
        evaluate formula v = .error ⟨formula, .malformed r⟩) ∧
    ∀ e, evaluate formula v = .error e → e.formula = formula ∧ ∀ r, e.defect = .malformed r →
      ¬"caracter no reconocido".toList <+: r.message.toList ∧ ¬"nodo desconocido".toList <+: r.message.toList := by
  have htext : (substitute formula v).toList = substituteText formula.toList v := String.toList_ofList
  refine ⟨fun c => ?_, fun hall => ?_, fun e he => ?_⟩
  · have hfirst : (∃ e, evaluate formula v = .error e ∧ e.defect = .disallowed c) ↔
        (substituteText formula.toList v).find? (!isAllowed ·) = some c := by
      simp only [evaluate_eq_error_iff, ← compileText_eq_disallowed_iff]
      exact ⟨fun ⟨_, ⟨d, hd, he⟩, hc⟩ => by rw [hd, ← hc, he], fun h => ⟨_, ⟨_, h, rfl⟩, rfl⟩⟩
    rw [hfirst, List.find?_eq_some_iff_append, htext]
    simp only [Bool.not_eq_true', Bool.not_not]
    exact ⟨fun ⟨hc, a, b, hs, ha⟩ => ⟨a, b, hs, ha, hc⟩, fun ⟨a, b, hs, ha, hc⟩ => ⟨hc, a, b, hs, ha⟩⟩
  · rw [compile_substitute_eq]
    cases hread : compileText (substituteText formula.toList v) with
    | ok f =>
      refine .inl ⟨f, f.eval id, rfl, f.value?_overKinds, ?_⟩
      rw [evaluate, hread]
      rfl
    | error d =>
      cases d with
      | malformed r => exact .inr ⟨r, rfl, evaluate_eq_error_iff.mpr ⟨_, hread, rfl⟩⟩
      | disallowed c =>
        have hfind := compileText_eq_disallowed_iff.mp hread
        have hc := hall c (htext ▸ List.mem_of_find?_eq_some hfind)
        have hnot := List.find?_some hfind
        simp [hc] at hnot
  · obtain ⟨d, hd, rfl⟩ := evaluate_eq_error_iff.mp he
    refine ⟨rfl, fun r hr => ?_⟩
    obtain rfl : d = .malformed r := hr
    have hallowed := isOfAllowed_of_compileText hd
    exact ⟨hallowed.not_prefix (by decide), hallowed.not_prefix (by decide)⟩

/-- The text `AB` of one variable is replaced as a whole, and the empty one puts its value around every character: `AB` becomes
`010`, which is no formula. And of the characters of `Z + Y`, where `Z` has a value, `+` is the first that may not stay. -/
theorem evaluate_classified_odd_keys :
    (∃ r, compile "010" = .error ⟨"010", .malformed r⟩ ∧
      evaluate "AB" [("AB", true), ("", false)] = .error ⟨"AB", .malformed r⟩) ∧
    ∃ e, evaluate "Z + Y" [("Z", false)] = .error e ∧ e.formula = "Z + Y" ∧ e.defect = .disallowed '+' := by
  constructor
  · have htext : substitute "AB" [("AB", true), ("", false)] = "010" := by decide
    obtain ⟨-, houtcome, -⟩ := evaluate_classified "AB" [("AB", true), ("", false)]
    rw [htext] at houtcome
    have hnone : compile "010" = .error ⟨"010", .malformed (.parse (.leftover (.leaf true) 1))⟩ := by decide
    refine (houtcome (by decide)).resolve_left ?_
    rintro ⟨f, b, hread, -⟩
    rw [hnone] at hread
    cases hread
  · obtain ⟨hfirst, -, herror⟩ := evaluate_classified "Z + Y" [("Z", false)]
    obtain ⟨e, he, hdefect⟩ := (hfirst '+').mpr ⟨"0 ".toList, " Y".toList, by decide, by decide, by decide⟩
    exact ⟨e, he, (herror e he).1, hdefect⟩

end Propositional
