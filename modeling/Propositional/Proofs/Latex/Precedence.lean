import Propositional.Proofs.Formula.ArrowBehindAnd
import Propositional.Proofs.Latex.Acceptance
import Propositional.Proofs.Valuation.Keys

/-!
# Eliminated arrows in their surroundings

The elimination writes `!L |` for the left operand `L` of an arrow and puts no parentheses around it and what follows. Between
`|`, `==`, `!=` and parentheses this does no harm: the text has the value of a bracketing of the original list in which every
arrow is a material implication. Directly behind `&` it does: `A & B -> C` becomes `A & !B | C`, in which `C` alone is enough.
These are all the cases: a list whose atoms are different letters keeps the value of one of its bracketings exactly if the left
operand of none of its arrows stands directly behind `&` (`faithful_eliminate`).
-/

namespace Propositional.Latex

open Reading

/-- The left operand of an arrow stands directly behind `&`. -/
def ArrowBehindAnd (ts : List Lexeme) : Prop :=
  ∃ before n core after, IsCore core ∧ ts = before ++ .and :: (List.replicate n .not ++ (core ++ .arrow :: after))

/-- The atom that a lexeme is, if it is one. -/
def Lexeme.atom? : Lexeme → Option Char
  | atom c => some c
  | _ => none

/-- The text of some lexemes has the truth value of one full bracketing of other lexemes, in which arrows are material
implications, whatever values the letters have. If `tight` is true, a negation stands before an operand only. -/
def Faithful (tight : Bool) (ts result : List Lexeme) : Prop :=
  ∃ ms t, ts.map Lexeme.mark? = ms.map some ∧ Brackets tight ms t ∧ ∀ v : Valuation Char, v.OfLetters →
    (∀ c, .atom c ∈ ts → HasValue v c) → evaluateLetters (String.ofList (Lexeme.render result)) v = .ok (t.eval v.truth)

/-! ## Lexemes and marks -/

section Marks

variable {ts : List Lexeme} {ms : List (Mark Char)}

/-- The leaves of marks are the atoms of their lexemes. -/
theorem filterMap_leaf?_marks (h : ts.map Lexeme.mark? = ms.map some) : ms.filterMap Mark.leaf? = ts.filterMap Lexeme.atom? := by
  have hk := forall₂_of_map_some h
  clear h
  induction hk with
  | nil => rfl
  | @cons t m ts ms hm _ ih =>
    have hleaf : m.leaf? = t.atom? := by cases t <;> cases hm <;> rfl
    rw [List.filterMap_cons, List.filterMap_cons, ih, hleaf]

/-- An operand of an arrow directly behind `&` is one among the marks too. -/
theorem ArrowBehindAnd.marks (hb : ArrowBehindAnd ts) (h : ts.map Lexeme.mark? = ms.map some) : Mark.ArrowBehindAnd ms := by
  obtain ⟨before, n, core, after, hcore, rfl⟩ := hb
  simp only [List.map_append, List.map_cons, List.map_replicate] at h
  obtain ⟨ms₁, rest, rfl, -, h⟩ := List.map_eq_append_iff.mp h.symm
  obtain ⟨m, rest, rfl, hand, h⟩ := List.map_eq_cons_iff.mp h
  obtain ⟨ns, rest, rfl, hns, h⟩ := List.map_eq_append_iff.mp h
  obtain ⟨ks, rest, rfl, hks, h⟩ := List.map_eq_append_iff.mp h
  obtain ⟨m', ms₂, rfl, harrow, -⟩ := List.map_eq_cons_iff.mp h
  obtain rfl := Option.some.inj hand
  obtain rfl := Option.some.inj harrow
  have hnots : ns = List.replicate n (.token .not) := by
    rw [← List.map_inj_right (f := some) fun _ _ => Option.some.inj, hns, List.map_replicate]
    rfl
  exact ⟨ms₁, n, ks, ms₂, hcore.marks hks.symm, by rw [hnots]⟩

end Marks

/-! ## What stands before an arrow -/

/-- Where a conjunction waits for the operand that is due, and no negation was read, the last lexeme is `&`. -/
theorem exists_eq_concat_and {done : List Lexeme} {r : Reading Char} (h : ({} : Reading Char).through done = some r)
    (hdue : r.operand = none) (hc : r.group.conjunction ≠ none) (hlast : done.getLast? ≠ some .not) :
    ∃ before, done = before ++ [.and] := by
  rcases List.eq_nil_or_concat done with rfl | ⟨before, t, rfl⟩
  · obtain rfl := Option.some.inj h
    exact absurd rfl hc
  · rw [List.concat_eq_append] at h hlast ⊢
    rw [through_append] at h
    obtain ⟨q, -, hq⟩ := Option.bind_eq_some_iff.mp h
    rw [through_singleton] at hq
    have hand : t = .and := by
      cases t with
      | and => rfl
      | not => simp at hlast
      | _ => rcases q with ⟨_ | ⟨p, gs⟩, g, _ | f⟩ <;> cases hq <;> first | exact absurd rfl hc | cases hdue
    exact ⟨before, by rw [hand]⟩

/-- Where an operand was read and a conjunction waits for what follows it, the operand stands directly behind `&`. -/
theorem arrowBehindAnd_of_conjunction {done rest : List Lexeme} {r : Reading Char}
    (h : ({} : Reading Char).through done = some r) (hop : r.operand ≠ none) (hc : r.group.conjunction ≠ none) :
    ArrowBehindAnd (done ++ .arrow :: rest) := by
  obtain ⟨k, hk⟩ : ∃ k, operandLength? done.reverse = some k := by
    refine Option.ne_none_iff_exists'.mp fun hnone => hop ?_
    exact operand_eq_none_of_operandLength? hnone (by rwa [List.reverse_reverse])
  obtain ⟨m, core, hcore, htake, hdrop⟩ := operandLength?_eq_some hk
  obtain ⟨before, hbefore⟩ : ∃ before, before = (done.reverse.drop k).reverse := ⟨_, rfl⟩
  have hdone : done = before ++ (List.replicate m .not ++ core) := by
    rw [hbefore, ← htake, ← List.reverse_append, List.take_append_drop, List.reverse_reverse]
  rw [hdone, through_append] at h
  obtain ⟨⟨gs, g, o⟩, hq, h⟩ := Option.bind_eq_some_iff.mp h
  obtain ⟨o', hdue, hnot⟩ := through_operand hcore
  cases o with
  | some f =>
    rw [hnot] at h
    cases h
  | none =>
    rw [hdue] at h
    obtain ⟨f, rfl, rfl⟩ := Option.map_eq_some_iff.mp h
    have hlast : before.getLast? ≠ some .not := by rwa [hbefore, List.getLast?_reverse]
    obtain ⟨before', rfl⟩ := exists_eq_concat_and hq rfl hc hlast
    exact ⟨before', m, core, rest, hcore, by simp [hdone]⟩

/-! ## The value of what the elimination leaves -/

/-- The values of some letters, as a valuation. -/
def lettersOf (cs : List Char) (val : Char → Bool) : Valuation Char := cs.map fun c => (c, val c)

/-- A letter that has a value has it. -/
theorem lookup_lettersOf {cs : List Char} {val : Char → Bool} {c : Char} (h : c ∈ cs) :
    (lettersOf cs val).lookup c = some (val c) := Valuation.lookup_assign h val

/-- The truth value of a letter that has one. -/
theorem truth_lettersOf {cs : List Char} {val : Char → Bool} {c : Char} (h : c ∈ cs) : (lettersOf cs val).truth c = val c := by
  rw [Valuation.truth, Valuation.write_eq_of_lookup (lookup_lettersOf h)]
  cases val c <;> rfl

section Value

/-- If what the elimination leaves is a formula, it is the one that the lexemes are read as. -/
theorem through_of_parse {strict : Bool} {ts : List Lexeme} {e : Elimination} (he : eliminate strict ts = .ok e)
    {us : List (Token Char)} {f : Formula Char} (hus : e.lexemes.map Lexeme.token? = us.map some)
    (hp : Formula.parse us = .ok f) :
    ∃ s, ({} : Reading Char).through ts = some s ∧ s.formula? = some f := by
  obtain ⟨s, hs, hf⟩ := Option.bind_eq_some_iff.mp (Formula.parse_eq_ok_iff.mp hp)
  rw [← through_eq_after hus, through_eliminate he] at hs
  exact ⟨s, hs, hf⟩

variable {strict : Bool} {ts : List Lexeme} {e : Elimination} {s : Reading Char} {f : Formula Char}

/-- Without an arrow whose left operand stands directly behind `&`, the elimination is faithful to a bracketing. -/
theorem faithful_of_not_arrowBehindAnd (tight : Bool) (hts : ∀ t ∈ ts, t.FromText) (he : eliminate strict ts = .ok e)
    (hs : ({} : Reading Char).through ts = some s) (hf : s.formula? = some f) (hb : ¬ArrowBehindAnd ts) :
    Faithful tight ts e.lexemes := by
  obtain ⟨ms, hms⟩ := exists_map_some fun t ht => mark?_ne_none_of_through ht hs
  have hread : ({} : Reading Char).afterMarks ms = some s := by rw [← through_eq_afterMarks hms, hs]
  have harrow : ∀ done rest r, ms = done ++ .arrow :: rest → ({} : Reading Char).afterMarks done = some r →
      r.group.conjunction = none := by
    rintro done rest r rfl hr
    by_contra hc
    rw [List.map_append, List.map_cons] at hms
    obtain ⟨ds, ts', rfl, hds, hrest⟩ := List.map_eq_append_iff.mp hms
    obtain ⟨t, rs, rfl, ht, -⟩ := List.map_eq_cons_iff.mp hrest
    obtain rfl : t = .arrow := by cases t <;> cases ht; rfl
    refine hb (arrowBehindAnd_of_conjunction (by rw [through_eq_afterMarks hds, hr]) (fun hnone => ?_) hc)
    have himply : r.mark .arrow = none := imply_eq_none hnone
    rw [afterMarks_append, hr, Option.bind_some, afterMarks_cons, himply] at hread
    cases hread
  obtain ⟨t, ht, heval⟩ := hasBracketing_of_afterMarks hread hf harrow tight
  refine ⟨ms, t, hms, ht, fun v hv hval => ?_⟩
  exact (evaluateLetters_eliminate_eq_ok_iff hts he hv).mpr ⟨s, f, hs, hf, hval, (heval v.truth).symm⟩

/-- With such an arrow, and a letter of its own in every place, the elimination is faithful to no bracketing. -/
theorem not_faithful_of_arrowBehindAnd (tight : Bool) (hts : ∀ t ∈ ts, t.FromText) (he : eliminate strict ts = .ok e)
    (hs : ({} : Reading Char).through ts = some s) (hf : s.formula? = some f) (hd : (ts.filterMap Lexeme.atom?).Nodup)
    (hu : ∀ c ∈ ts.filterMap Lexeme.atom?, c.isUpper) (hb : ArrowBehindAnd ts) : ¬Faithful tight ts e.lexemes := by
  rintro ⟨ms, t, hms, ht, hmean⟩
  have hleaves := filterMap_leaf?_marks hms
  have hread : ({} : Reading Char).afterMarks ms = some s := by rw [← through_eq_afterMarks hms, hs]
  refine not_brackets_of_arrowBehindAnd (hb.marks hms) (hleaves ▸ hd) hread hf ht fun val => ?_
  obtain ⟨v, hv⟩ : ∃ v, v = lettersOf (ts.filterMap Lexeme.atom?) val := ⟨_, rfl⟩
  have hletters : v.OfLetters := by
    intro p hp
    rw [hv] at hp
    obtain ⟨c, hc, rfl⟩ := List.mem_map.mp hp
    exact hu c hc
  have hval : ∀ c, .atom c ∈ ts → HasValue v c := by
    intro c hc _
    rw [hv, lookup_lettersOf (List.mem_filterMap.mpr ⟨Lexeme.atom c, hc, rfl⟩)]
    rfl
  obtain ⟨s', f', hs', hf', -, heq⟩ := (evaluateLetters_eliminate_eq_ok_iff hts he hletters).mp (hmean v hletters hval)
  obtain rfl := Option.some.inj (hs.symm.trans hs')
  obtain rfl := Option.some.inj (hf.symm.trans hf')
  have htruth : ∀ c ∈ ts.filterMap Lexeme.atom?, val c = v.truth c := fun c hc => by rw [hv, truth_lettersOf hc]
  rw [Bracketing.eval_congr fun c hc => htruth c (by rwa [← hleaves, ← ht.leaves]), ← heq,
    Formula.eval_congr fun c hc => htruth c (by rwa [← hleaves, ← leaves_formula? hread hf])]

end Value

/-- Lexemes whose arrows are eliminated and leave a formula: where the left operand of no arrow stands directly behind `&`, the
result has the truth value of a bracketing of the lexemes, and if their atoms are different letters it has so only there. -/
theorem faithful_eliminate {strict : Bool} (tight : Bool) {ts : List Lexeme} (hts : ∀ t ∈ ts, t.IsNative ∨ t = .arrow)
    {e : Elimination} (he : eliminate strict ts = .ok e) {us : List (Token Char)} {f : Formula Char}
    (hus : e.lexemes.map Lexeme.token? = us.map some) (hp : Formula.parse us = .ok f) :
    (¬ArrowBehindAnd ts → Faithful tight ts e.lexemes) ∧
      ((ts.filterMap Lexeme.atom?).Nodup → (∀ c ∈ ts.filterMap Lexeme.atom?, c.isUpper) →
        (Faithful tight ts e.lexemes ↔ ¬ArrowBehindAnd ts)) := by
  have hfrom : ∀ t ∈ ts, t.FromText := fun t ht => Lexeme.fromText_of_isNative (hts t ht)
  obtain ⟨s, hs, hf⟩ := through_of_parse he hus hp
  have hkeep := faithful_of_not_arrowBehindAnd tight hfrom he hs hf
  exact ⟨hkeep, fun hd hu => ⟨fun hr hb => not_faithful_of_arrowBehindAnd tight hfrom he hs hf hd hu hb hr, hkeep⟩⟩

/-- `A | B -> C` becomes `A | !B | C`, which is `A | (B -> C)`. -/
theorem faithful_eliminate_or_arrow :
    (∀ t ∈ [Lexeme.atom 'A', .or, .atom 'B', .arrow, .atom 'C'], t.IsNative ∨ t = .arrow) ∧
    eliminate true [.atom 'A', .or, .atom 'B', .arrow, .atom 'C'] =
      .ok ⟨[.atom 'A', .or, .not, .atom 'B', .or, .atom 'C'], []⟩ ∧
    Faithful true [.atom 'A', .or, .atom 'B', .arrow, .atom 'C'] [.atom 'A', .or, .not, .atom 'B', .or, .atom 'C'] := by
  have hts : ∀ t ∈ [Lexeme.atom 'A', .or, .atom 'B', .arrow, .atom 'C'], t.IsNative ∨ t = .arrow := by
    simp [Lexeme.IsNative]
  have he : eliminate true [.atom 'A', .or, .atom 'B', .arrow, .atom 'C'] =
      .ok ⟨[.atom 'A', .or, .not, .atom 'B', .or, .atom 'C'], []⟩ := by decide
  have hp : Formula.parse [.leaf 'A', .or, .not, .leaf 'B', .or, .leaf 'C'] =
      .ok (.binary .or (.binary .or (.leaf 'A') (.not (.leaf 'B'))) (.leaf 'C')) := rfl
  have hb : ¬ArrowBehindAnd [.atom 'A', .or, .atom 'B', .arrow, .atom 'C'] := by
    rintro ⟨before, n, core, after, -, h⟩
    have hmem : Lexeme.and ∈ [Lexeme.atom 'A', .or, .atom 'B', .arrow, .atom 'C'] := by
      rw [h]
      simp
    simp at hmem
  exact ⟨hts, he, (faithful_eliminate true hts he rfl hp).1 hb⟩

/-- `A & B -> C` becomes `A & !B | C`, which is neither `A & (B -> C)` nor `(A & B) -> C`. -/
theorem not_faithful_and_arrow :
    eliminate true [.atom 'A', .and, .atom 'B', .arrow, .atom 'C'] =
      .ok ⟨[.atom 'A', .and, .not, .atom 'B', .or, .atom 'C'], []⟩ ∧
    Formula.parse [.leaf 'A', .and, .not, .leaf 'B', .or, .leaf 'C'] =
      .ok (.binary .or (.binary .and (.leaf 'A') (.not (.leaf 'B'))) (.leaf 'C')) ∧
    ¬Faithful false [.atom 'A', .and, .atom 'B', .arrow, .atom 'C'] [.atom 'A', .and, .not, .atom 'B', .or, .atom 'C'] := by
  have he : eliminate true [.atom 'A', .and, .atom 'B', .arrow, .atom 'C'] =
      .ok ⟨[.atom 'A', .and, .not, .atom 'B', .or, .atom 'C'], []⟩ := by decide
  have hp : Formula.parse [.leaf 'A', .and, .not, .leaf 'B', .or, .leaf 'C'] =
      .ok (.binary .or (.binary .and (.leaf 'A') (.not (.leaf 'B'))) (.leaf 'C')) := rfl
  refine ⟨he, hp, ?_⟩
  have hts : ∀ t ∈ [Lexeme.atom 'A', .and, .atom 'B', .arrow, .atom 'C'], t.FromText := by
    simp [Lexeme.FromText]
    decide
  have hb : ArrowBehindAnd [.atom 'A', .and, .atom 'B', .arrow, .atom 'C'] :=
    ⟨[.atom 'A'], 0, [.atom 'B'], [.atom 'C'], .inl ⟨'B', rfl⟩, rfl⟩
  obtain ⟨s, hs, hf⟩ := through_of_parse he rfl hp
  have hatoms : [Lexeme.atom 'A', .and, .atom 'B', .arrow, .atom 'C'].filterMap Lexeme.atom? = ['A', 'B', 'C'] := rfl
  have hnot := not_faithful_of_arrowBehindAnd false hts he hs hf (by rw [hatoms]; decide) (by rw [hatoms]; decide) hb
  exact hnot

end Propositional.Latex
