import Propositional.Proofs.Formula.Grammar
import Propositional.Proofs.Formula.ReadOnce
import Propositional.Proofs.Latex.Rendering
import Propositional.Proofs.Results
import Propositional.Proofs.Token.Renaming
import Propositional.Proofs.Valuation.Keys

/-!
# Formulas with variables

A formula can be read before values are put in, with its letters as leaves. Writing values into the text and reading it then is
the same as reading it first and putting the values into the leaves (`compileText_write_eq_ok_iff`): writing a value changes
neither how the text is cut nor how the tokens are grouped. So a formula has a value exactly when all its letters have one and it
is read as a tree, and the value is that of the tree (`evaluateLetters_eq_ok_iff_reads`); and which values the letters have makes
no difference for whether there is a value and for what is wrong otherwise (`evaluateLetters_variables`).
-/

namespace Propositional

open Text

/-! ## Reading letters as leaves -/

/-- What a character is as a leaf while no values are written, if it is one: a letter, `0` or `1`. -/
def atom? (c : Char) : Option Char := if Latex.isAtom c then some c else none

/-- A text is read as a formula with letters and constants as leaves. -/
def Formula.Reads (formula : String) (f : Formula Char) : Prop :=
  ∃ ts, Token.scan atom? formula.toList = .ok ts ∧ Formula.parse ts = .ok f

/-- The alphabet has the upper-case letters. -/
theorem mem_alphabet {c : Char} : c ∈ alphabet ↔ c.isUpper := by
  constructor
  · have h : ∀ c ∈ alphabet, c.isUpper := by decide
    exact h c
  · intro h
    obtain ⟨hlow, hhigh⟩ := Text.isUpper_iff.mp h
    have htable : ∀ n, n < 91 → 65 ≤ n → Char.ofNat n ∈ alphabet := by decide
    have hc := htable c.toNat (by omega) hlow
    rwa [Char.ofNat_toNat] at hc

/-- The letters of a formula are the upper-case letters in it. -/
theorem mem_letters {formula : String} {c : Char} : c ∈ letters formula ↔ c.isUpper ∧ c ∈ formula.toList := by
  simp [letters, lettersIn, mem_alphabet]

/-! ## What a reading says about the text -/

/-- What is neither letter nor digit is no atom. -/
theorem atom?_eq_none {c : Char} (h : c.isAlphanum = false) : atom? c = none := by
  rw [atom?, if_neg]
  intro ha
  rw [Latex.isAlphanum_of_isAtom ha] at h
  cases h

/-- A character is an atom only as itself. -/
theorem atom?_eq_some {c d : Char} : atom? c = some d ↔ Latex.isAtom c ∧ c = d := by
  unfold atom?
  split <;> simp_all

/-- An atom is a digit that is allowed, or a letter. -/
theorem isAllowed_or_isUpper_of_isAtom {c : Char} (h : Latex.isAtom c) : isAllowed c ∨ c.isUpper := by
  simp only [Latex.isAtom, Bool.or_eq_true, decide_eq_true_eq] at h
  rcases h with (h | rfl) | rfl
  · exact .inr h
  · exact .inl (by decide)
  · exact .inl (by decide)

/-- A letter or digit is a token only as a leaf. -/
theorem Token.ofChar?_of_isAlphanum {α : Type} {leaf? : Char → Option α} {c : Char} (h : c.isAlphanum) :
    ofChar? leaf? c = (leaf? c).map .leaf := by
  have hne : ∀ d, d.isAlphanum = false → c ≠ d := fun d hd => ne_of_holds h hd
  unfold ofChar?
  split
  all_goals first | exact absurd rfl (hne _ (by decide)) | rfl

/-- The leaf that a token is, if it is one. -/
def Token.leaf? {α : Type} : Token α → Option α
  | leaf a => some a
  | _ => none

/-- A character that is a token of its own is a parenthesis or an operator, or else a leaf. -/
theorem Token.ofChar?_eq_some {α : Type} {leaf? : Char → Option α} {c : Char} {t : Token α} (h : ofChar? leaf? c = some t) :
    (isAllowed c ∧ c.isAlphanum = false ∧ t.leaf? = none) ∨ ∃ a, leaf? c = some a ∧ t = .leaf a := by
  unfold ofChar? at h
  split at h
  case h_5 =>
    obtain ⟨a, ha, rfl⟩ := Option.map_eq_some_iff.mp h
    exact .inr ⟨a, ha, rfl⟩
  all_goals
    obtain rfl := Option.some.inj h
    exact .inl ⟨by decide, by decide, rfl⟩

/-- The leaf that a piece is, if it is one. -/
def Piece.atom? : Piece → Option Char
  | other c => Propositional.atom? c
  | _ => none

/-- The atoms of pieces with one more character before them. -/
theorem Piece.filterMap_atom?_push (c : Char) (ps : List Piece) :
    (push c ps).filterMap atom? = (Propositional.atom? c).toList ++ ps.filterMap atom? := by
  unfold push
  by_cases hc : c = '='
  · rw [if_pos hc, hc, atom?_eq_none (by decide)]
    rcases ps with _ | ⟨p | p | p, ps⟩ <;> rfl
  · rw [if_neg hc]
    by_cases hc' : c = '!'
    · rw [if_pos hc', hc', atom?_eq_none (by decide)]
      rcases ps with _ | ⟨p | p | p, ps⟩ <;> rfl
    · rw [if_neg hc']
      cases h : Propositional.atom? c <;> simp [atom?, h]

/-- The atoms of the pieces of a text are those of the text. -/
theorem filterMap_atom?_pieces (s : List Char) : (pieces s).filterMap Piece.atom? = s.filter Latex.isAtom := by
  induction s with
  | nil => rfl
  | cons c s ih =>
    show (Piece.push c (pieces s)).filterMap Piece.atom? = _
    rw [Piece.filterMap_atom?_push, ih, List.filter_cons, atom?]
    split <;> rfl

/-- The characters of a text that has tokens are those that a formula may hold, and letters. The leaves of the tokens are its
letters and constants, in their order. Each piece is skipped or gives one token. -/
theorem of_ofPieces_atom? {ps : List Piece} : ∀ {p : Nat} {ts : List (Token Char)}, Token.ofPieces atom? p ps = .ok ts →
    (∀ c, .other c ∈ ps → isAllowed c ∨ c.isUpper) ∧ ts.filterMap Token.leaf? = ps.filterMap Piece.atom? := by
  induction ps with
  | nil =>
    intro p ts h
    obtain rfl := Except.ok.inj h
    simp
  | cons q ps ih =>
    intro p ts h
    have hcons : ∀ {p : Nat} {t : Token Char}, (Token.ofPieces atom? p ps).map (t :: ·) = .ok ts →
        (∀ c, q = .other c → isAllowed c ∨ c.isUpper) → Token.leaf? t = q.atom? →
        (∀ c, .other c ∈ q :: ps → isAllowed c ∨ c.isUpper) ∧ ts.filterMap Token.leaf? = (q :: ps).filterMap Piece.atom? := by
      intro p t h hq hleaf
      cases hr : Token.ofPieces atom? p ps with
      | error e =>
        rw [hr] at h
        cases h
      | ok us =>
        rw [hr] at h
        obtain rfl := Except.ok.inj h
        obtain ⟨hall, hleaves⟩ := ih hr
        refine ⟨fun c hc => (List.mem_cons.mp hc).elim (fun he => hq c he.symm) (hall c), ?_⟩
        rw [List.filterMap_cons, List.filterMap_cons, hleaf, hleaves]
    cases q with
    | equals n =>
      simp only [Token.ofPieces] at h
      split at h
      · exact hcons h (by simp) rfl
      · cases h
    | bang n =>
      simp only [Token.ofPieces] at h
      split at h
      · exact hcons h (by simp) rfl
      · split at h
        · exact hcons h (by simp) rfl
        · cases h
    | other c =>
      simp only [Token.ofPieces] at h
      split at h
      · rename_i hb
        obtain ⟨hall, hleaves⟩ := ih h
        have hnone : Piece.atom? (.other c) = none := by
          apply atom?_eq_none
          by_contra ha
          rw [isBlank_eq_false_of_isAlphanum (by simpa using ha)] at hb
          cases hb
        refine ⟨fun d hd => (List.mem_cons.mp hd).elim (fun he => ?_) (hall d), ?_⟩
        · obtain rfl : d = c := by simpa using he
          exact Or.inl (by simp [isAllowed, hb])
        · rw [List.filterMap_cons, hnone, hleaves]
      · split at h
        · rename_i t ht
          rcases Token.ofChar?_eq_some ht with ⟨hc, halnum, hleaf⟩ | ⟨a, ha, rfl⟩
          · exact hcons h (by rintro d ⟨⟩; exact .inl hc) (hleaf.trans (atom?_eq_none halnum).symm)
          · refine hcons h ?_ ha.symm
            rintro d ⟨⟩
            obtain ⟨hc, -⟩ := atom?_eq_some.mp ha
            exact isAllowed_or_isUpper_of_isAtom hc
        · cases h

/-- The leaves of a tree are those of the tokens it is written with. -/
theorem Grammar.Writes.leaves {α : Type} {n : Nonterminal} {f : Formula α} {ts : List (Token α)} (h : Writes n f ts) :
    Tree.leaves f = ts.filterMap Token.leaf? := by
  induction h with
  | leaf a => rfl
  | not _ ih => exact ih
  | group _ ih => simp [ih, List.filterMap_cons, Token.leaf?]
  | ofUnary _ ih => exact ih
  | and _ _ ihl ihr => simp [Tree.leaves, ihl, ihr, List.filterMap_cons, Token.leaf?]
  | ofConjunction _ ih => exact ih
  | or _ _ ihl ihr => simp [Tree.leaves, ihl, ihr, List.filterMap_cons, Token.leaf?]
  | ofDisjunction _ ih => exact ih
  | @equivalence l r ts us t c hc _ _ ihl ihr =>
    have ht : t.leaf? = none := by cases t <;> first | rfl | cases hc
    simp [Tree.leaves, ihl, ihr, ht]

namespace Formula.Reads

variable {formula : String} {f : Formula Char}

/-- A text that is read holds what is allowed in a formula, and letters. -/
theorem isAllowed_or_isUpper (h : Reads formula f) : ∀ c ∈ formula.toList, isAllowed c ∨ c.isUpper := by
  obtain ⟨ts, hts, -⟩ := h
  intro c hc
  by_cases hrun : c = '=' ∨ c = '!'
  · left
    rcases hrun with rfl | rfl <;> decide
  · rw [not_or] at hrun
    exact (of_ofPieces_atom? hts).1 c (other_mem_pieces_iff.mpr ⟨hc, hrun⟩)

/-- The leaves of the tree are the letters and constants of the text, in their order. -/
theorem leaves (h : Reads formula f) : Tree.leaves f = formula.toList.filter Latex.isAtom := by
  obtain ⟨ts, hts, hf⟩ := h
  rw [(Grammar.parse_eq_ok_iff_writes.mp hf).leaves, (of_ofPieces_atom? hts).2, filterMap_atom?_pieces]

end Formula.Reads

/-- A formula is well formed if its text can be cut into tokens with letters and constants as leaves, and the grammar derives
these tokens. -/
def WellFormed (formula : String) : Prop :=
  ∃ ts, Token.scan atom? formula.toList = .ok ts ∧ Grammar.Derives .biconditional ts

/-- A formula is well formed exactly if it is read as some tree. -/
theorem wellFormed_iff {formula : String} : WellFormed formula ↔ ∃ f, Formula.Reads formula f := by
  constructor
  · rintro ⟨ts, hts, h⟩
    obtain ⟨f, hf⟩ := h.exists_writes
    exact ⟨f, ts, hts, Grammar.parse_eq_ok_iff_writes.mpr hf⟩
  · rintro ⟨f, ts, hts, hf⟩
    exact ⟨ts, hts, (Grammar.parse_eq_ok_iff_writes.mp hf).derives⟩

/-! ## Writing values and reading -/

/-- A character whose value can stand in a formula keeps its part when the value is written. -/
theorem renames_write {v : Valuation Char} (hv : v.OfLetters) {c : Char} (hc : isAllowed (v.write c)) :
    Renames atom? bit? v.truth v.write c := by
  by_cases ha : Latex.isAtom c
  · have hval := (Latex.isAllowed_write_iff ha).mp hc
    have halnum := Latex.isAlphanum_of_isAtom ha
    have hwrite : (v.write c).isAlphanum := by
      rcases Latex.write_eq_or_isAlphanum hv c with h | h
      · rwa [h]
      · exact h.2
    have hne : ∀ d, d.isAlphanum = false → (v.write c = d ↔ c = d) := fun d hd =>
      ⟨fun h => absurd h (ne_of_holds hwrite hd), fun h => absurd h (ne_of_holds halnum hd)⟩
    refine ⟨hne _ (by decide), hne _ (by decide), ?_, ?_⟩
    · rw [isBlank_eq_false_of_isAlphanum hwrite, isBlank_eq_false_of_isAlphanum halnum]
    · rw [Token.ofChar?_of_isAlphanum hwrite, Token.ofChar?_of_isAlphanum halnum, Latex.bit?_write ha hval, atom?, if_pos ha]
      rfl
  · have hu : c.isUpper = false := by
      by_contra hu
      exact ha (by simp [Latex.isAtom, hu])
    have hnone : atom? c = none := if_neg ha
    have hbit : bit? c = none := by
      unfold bit?
      split
      · exact absurd (by decide) ha
      · exact absurd (by decide) ha
      · rfl
    rw [hv.write_eq_self hu] at hc
    refine ⟨?_, ?_, ?_, ?_⟩ <;> rw [hv.write_eq_self hu]
    unfold Token.ofChar?
    split <;> simp [hnone, hbit, Token.map]

/-- What a value is written with may stand in a formula. -/
theorem isAllowed_write (v : Valuation Char) (c : Char) : isAllowed (v.write c) = ((v.lookup c).isSome || isAllowed c) := by
  unfold Valuation.write
  cases v.lookup c with
  | none => rfl
  | some b => cases b <;> rfl

/-- Writing the values and reading then is reading first and putting the values into the leaves. -/
theorem compileText_write_eq_ok_iff {formula : String} {v : Valuation Char} (hv : v.OfLetters) {g : Formula Bool} :
    compileText (formula.toList.map v.write) = .ok g ↔
      (∀ c ∈ formula.toList, isAllowed (v.write c)) ∧ ∃ f, Formula.Reads formula f ∧ f.map v.truth = g := by
  rw [compileText_eq_ok_iff, List.forall_mem_map]
  refine and_congr_right fun hall => ?_
  have hscan := Token.scan_map fun c hc => renames_write hv (hall c hc)
  rw [hscan]
  unfold Formula.Reads
  cases hts : Token.scan atom? formula.toList with
  | error e => simp [Except.map]
  | ok ts =>
    simp [Except.map, Formula.parse_map_eq_ok_iff]

/-- Where all its letters have values, every character of a text that is read can stand in a formula with the values written. -/
theorem Formula.Reads.isAllowed_write {formula : String} {f : Formula Char} (h : Reads formula f) {v : Valuation Char}
    (hkeys : ∀ c ∈ letters formula, c ∈ v.keys) : ∀ c ∈ formula.toList, isAllowed (v.write c) := by
  intro c hc
  rw [Propositional.isAllowed_write]
  rcases h.isAllowed_or_isUpper c hc with hallowed | hu
  · rw [hallowed, Bool.or_true]
  · rw [Valuation.isSome_lookup_iff.mpr (hkeys c (mem_letters.mpr ⟨hu, hc⟩)), Bool.true_or]

/-- A formula has a value exactly when all its letters have one and it is read as a tree, and the value is that of the tree. -/
theorem evaluateLetters_eq_ok_iff_reads {formula : String} {v : Valuation Char} (hv : v.OfLetters) {b : Bool} :
    evaluateLetters formula v = .ok b ↔
      (∀ c ∈ letters formula, c ∈ v.keys) ∧ ∃ f, Formula.Reads formula f ∧ f.eval v.truth = b := by
  have heval : ∀ f : Formula Char, (f.map v.truth).eval id = f.eval v.truth := Formula.eval_map v.truth id
  simp only [evaluateLetters_eq_ok_iff_compileText hv, compileText_write_eq_ok_iff hv]
  constructor
  · rintro ⟨_, ⟨hall, f, hf, rfl⟩, rfl⟩
    refine ⟨fun c hc => ?_, f, hf, (heval f).symm⟩
    obtain ⟨hu, hc⟩ := mem_letters.mp hc
    rw [← Valuation.isSome_lookup_iff]
    exact (Latex.isAllowed_write_iff (by simp [Latex.isAtom, hu])).mp (hall c hc) hu
  · rintro ⟨hkeys, f, hf, rfl⟩
    exact ⟨_, ⟨hf.isAllowed_write hkeys, f, hf, rfl⟩, heval f⟩

/-- A formula that has a value is well formed. -/
theorem wellFormed_of_evaluateLetters {formula : String} {v : Valuation Char} (hv : v.OfLetters) {b : Bool}
    (h : evaluateLetters formula v = .ok b) : WellFormed formula := by
  obtain ⟨-, f, hf, -⟩ := (evaluateLetters_eq_ok_iff_reads hv).mp h
  exact wellFormed_iff.mpr ⟨f, hf⟩

/-- A well formed formula has a value when all its letters have one. -/
theorem WellFormed.exists_value {formula : String} (h : WellFormed formula) {v : Valuation Char} (hv : v.OfLetters)
    (hkeys : ∀ c ∈ letters formula, c ∈ v.keys) : ∃ b, evaluateLetters formula v = .ok b := by
  obtain ⟨f, hf⟩ := wellFormed_iff.mp h
  exact ⟨_, (evaluateLetters_eq_ok_iff_reads hv).mpr ⟨hkeys, f, hf, rfl⟩⟩

/-! ## Other values for the same letters -/

/-- Evaluating a formula twice comes out alike: a value both times, or the same kind of error about the formula both times, and
about the same character if it is about one. -/
inductive Alike (formula : String) : Except FormulaError Bool → Except FormulaError Bool → Prop where
  | value (b b' : Bool) : Alike formula (.ok b) (.ok b')
  | disallowed (c : Char) : Alike formula (.error ⟨formula, .disallowed c⟩) (.error ⟨formula, .disallowed c⟩)
  | malformed (r r' : Malformation) : Alike formula (.error ⟨formula, .malformed r⟩) (.error ⟨formula, .malformed r'⟩)

/-- The first character that no formula may hold is one without a value, so it stands in the formula itself. -/
theorem find?_map_write (v : Valuation Char) (s : List Char) :
    (s.map v.write).find? (!isAllowed ·) = s.find? fun c => !((v.lookup c).isSome || isAllowed c) := by
  have hfun : (fun c => !isAllowed c) ∘ v.write = fun c => !((v.lookup c).isSome || isAllowed c) :=
    funext fun c => congrArg (! ·) (isAllowed_write v c)
  rw [List.find?_map, hfun]
  cases hc : s.find? fun c => !((v.lookup c).isSome || isAllowed c) with
  | none => rfl
  | some c =>
    obtain ⟨hnone, -⟩ : v.lookup c = none ∧ _ := by simpa using List.find?_some hc
    rw [Option.map_some, Valuation.write_eq_self hnone]

/-- Whether letters have values decides how an evaluation comes out, but for the value. -/
theorem evaluateLetters_alike (formula : String) {v w : Valuation Char} (hv : v.OfLetters) (hw : w.OfLetters)
    (hkeys : ∀ c, c ∈ w.keys ↔ c ∈ v.keys) : Alike formula (evaluateLetters formula v) (evaluateLetters formula w) := by
  have hsome : ∀ c, (w.lookup c).isSome = (v.lookup c).isSome := fun c => by
    rw [Bool.eq_iff_iff, Valuation.isSome_lookup_iff, Valuation.isSome_lookup_iff, hkeys]
  have hfind := find?_map_write w formula.toList
  simp only [hsome, ← find?_map_write v] at hfind
  have hok : (∃ b, evaluateLetters formula v = .ok b) ↔ ∃ b, evaluateLetters formula w = .ok b := by
    simp only [evaluateLetters_eq_ok_iff_reads hv, evaluateLetters_eq_ok_iff_reads hw, hkeys]
    constructor
    · rintro ⟨_, hall, f, hf, -⟩
      exact ⟨_, hall, f, hf, rfl⟩
    · rintro ⟨_, hall, f, hf, -⟩
      exact ⟨_, hall, f, hf, rfl⟩
  revert hok
  rw [evaluateLetters_eq hv, evaluateLetters_eq hw]
  unfold compileText
  rw [hfind]
  cases (formula.toList.map v.write).find? (!isAllowed ·) with
  | some c => exact fun _ => .disallowed c
  | none =>
    cases parseText (formula.toList.map v.write) <;> cases parseText (formula.toList.map w.write) <;>
      simp only [Except.map, mapError_ok, mapError_error, reduceCtorEq, exists_false, Except.ok.injEq, exists_eq', iff_true,
        iff_false, not_true_eq_false, IsEmpty.forall_iff, forall_const]
    · exact .malformed _ _
    · exact .value _ _

/-- Only the values of the letters of a formula count. -/
theorem evaluateLetters_congr {formula : String} {v w : Valuation Char} (hv : v.OfLetters) (hw : w.OfLetters)
    (h : ∀ c ∈ letters formula, w.lookup c = v.lookup c) : evaluateLetters formula w = evaluateLetters formula v := by
  have hwrite : formula.toList.map w.write = formula.toList.map v.write := by
    refine List.map_congr_left fun c hc => ?_
    cases hu : c.isUpper with
    | true => rw [Valuation.write, h c (mem_letters.mpr ⟨hu, hc⟩), Valuation.write]
    | false => rw [hv.write_eq_self hu, hw.write_eq_self hu]
  rw [evaluateLetters_eq hv, evaluateLetters_eq hw, hwrite]

/-- Values that differ at a leaf of a formula differ for one of its letters. -/
theorem Formula.Reads.mem_letters {formula : String} {f : Formula Char} (h : Reads formula f) {v w : Valuation Char}
    (hv : v.OfLetters) (hw : w.OfLetters) {c : Char} (hc : c ∈ Tree.leaves f) (hne : v.truth c ≠ w.truth c) :
    c ∈ letters formula := by
  rw [h.leaves] at hc
  refine Propositional.mem_letters.mpr ⟨?_, List.mem_of_mem_filter hc⟩
  by_contra hu
  have hu : c.isUpper = false := by simpa using hu
  rw [Valuation.truth, Valuation.truth, hv.write_eq_self hu, hw.write_eq_self hu] at hne
  exact hne rfl

/-! ## Values of variables -/

/-- Values for letters are written in place of each letter by itself. -/
theorem substitute_byText {v : Valuation Char} (hv : v.OfLetters) (formula : String) :
    substitute formula v.byText = String.ofList (formula.toList.map v.write) := by
  rw [substitute, substituteText_byText hv]

/-- The tree that is read once the values are written is the tree with letters, and the values in its leaves. -/
theorem Formula.Reads.compile_substitute {formula : String} {f : Formula Char} (h : Reads formula f) {v : Valuation Char}
    (hv : v.OfLetters) (hkeys : ∀ c ∈ letters formula, c ∈ v.keys) :
    compile (substitute formula v.byText) = .ok (f.map v.truth) := by
  rw [compile, substitute_byText hv, String.toList_ofList,
    (compileText_write_eq_ok_iff hv).mpr ⟨h.isAllowed_write hkeys, f, h, rfl⟩]
  rfl

/-- What the values of variables do to a formula. They are written into its text character by character, in whatever order.
Other values for the same variables come out alike, and the trees that are read differ in leaves only that stand for variables.
And a formula whose variables all have values has the value of the tree that it is with variables as leaves, so that nothing
counts but the values of these variables. -/
theorem evaluateLetters_variables (formula : String) {v : Valuation Char} (hv : v.OfLetters) :
    ((substitute formula v.byText).toList = formula.toList.map v.write ∧
      (substitute formula v.byText).length = formula.length ∧
      (v.keys.Nodup → ∀ w : Valuation Char, w.Perm v → substitute formula w.byText = substitute formula v.byText)) ∧
    (∀ w : Valuation Char, w.OfLetters → (∀ c, c ∈ w.keys ↔ c ∈ v.keys) →
      Alike formula (evaluateLetters formula v) (evaluateLetters formula w) ∧
      ∀ b, evaluateLetters formula v = .ok b → ∃ f : Formula Char,
        compile (substitute formula v.byText) = .ok (f.map v.truth) ∧
        compile (substitute formula w.byText) = .ok (f.map w.truth) ∧
        Tree.leaves f = formula.toList.filter Latex.isAtom ∧
        ∀ c ∈ Tree.leaves f, v.truth c ≠ w.truth c → c ∈ letters formula) ∧
    ((∀ c ∈ letters formula, c ∈ v.keys) →
      (∀ b, evaluateLetters formula v = .ok b ↔ ∃ f, Formula.Reads formula f ∧ f.eval v.truth = b) ∧
      ∀ w : Valuation Char, w.OfLetters → (∀ c ∈ letters formula, w.lookup c = v.lookup c) →
        evaluateLetters formula w = evaluateLetters formula v) := by
  refine ⟨⟨?_, ?_, fun hnodup w hperm => ?_⟩, fun w hw hkeys => ⟨evaluateLetters_alike formula hv hw hkeys, fun b hb => ?_⟩,
    fun hkeys => ⟨fun b => ?_, fun w hw => evaluateLetters_congr hv hw⟩⟩
  · rw [substitute_byText hv, String.toList_ofList]
  · rw [substitute_byText hv, String.length_ofList, List.length_map, String.length_toList]
  · have hw : w.OfLetters := fun p hp => hv p (hperm.mem_iff.mp hp)
    have hwrite : w.write = v.write := funext fun c => by
      rw [Valuation.write, Valuation.write, Valuation.lookup_eq_of_perm hnodup hperm]
    rw [substitute_byText hw, substitute_byText hv, hwrite]
  · obtain ⟨hall, f, hf, -⟩ := (evaluateLetters_eq_ok_iff_reads hv).mp hb
    have hallw : ∀ c ∈ letters formula, c ∈ w.keys := fun c hc => (hkeys c).mpr (hall c hc)
    exact ⟨f, hf.compile_substitute hv hall, hf.compile_substitute hw hallw, hf.leaves, fun c => hf.mem_letters hv hw⟩
  · rw [evaluateLetters_eq_ok_iff_reads hv]
    exact and_iff_right hkeys

/-- `A & !B == 1` with values given for `B` and then for `A`, with other values, and as a tree. -/
theorem evaluateLetters_variables_iff_one :
    substitute "A & !B == 1" (Valuation.byText [('A', true), ('B', false)]) =
        substitute "A & !B == 1" (Valuation.byText [('B', false), ('A', true)]) ∧
      Alike "A & !B == 1" (evaluateLetters "A & !B == 1" [('B', false), ('A', true)])
        (evaluateLetters "A & !B == 1" [('A', false), ('B', false)]) ∧
      ∃ f, Formula.Reads "A & !B == 1" f ∧ f.eval (Valuation.truth [('B', false), ('A', true)]) = true := by
  obtain ⟨⟨-, -, hperm⟩, halike, htree⟩ :=
    evaluateLetters_variables "A & !B == 1" (v := [('B', false), ('A', true)]) (by simp [Valuation.OfLetters])
  refine ⟨hperm (by decide) _ (by decide), (halike _ (by simp [Valuation.OfLetters]) (by simp [or_comm])).1, ?_⟩
  exact ((htree (by decide)).1 true).mp (by decide)

end Propositional
