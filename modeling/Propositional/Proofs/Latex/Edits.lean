import Mathlib.Data.List.Basic
import Propositional.Proofs.Latex.Scope

/-!
# All arrows at once

The elimination looks for the operand of an arrow in what the arrows before it have left. Its result is the one of a single pass
in which each arrow finds its operand in the lexemes as they were given, and the edits of all arrows are made together
(`eliminate_eq_edits`). An arrow inside an operand has its own operand inside too (`IsOperand.operandLength?_inside`), so the
edits of a list are those of the operand between those of what stands before it and those of the last arrow (`edits_induction`),
and the elimination holds its lexemes in the same parts.
-/

namespace Propositional.Latex

/-! ## The edits of a list -/

/-- A lexeme of an edited list: one that was there, or one that was put in. -/
inductive Edited where
  | kept (t : Lexeme)
  | added (t : Lexeme)
  deriving DecidableEq, Repr

namespace Edited

/-- The lexeme that stands in the list. -/
def lexeme : Edited → Lexeme
  | kept t | added t => t

/-- The lexeme if it was there. -/
def kept? : Edited → Option Lexeme
  | kept t => some t
  | added _ => none

/-- The lexeme if it was put in. -/
def added? : Edited → Option Lexeme
  | kept _ => none
  | added t => some t

end Edited

/-- A lexeme as it is kept: an arrow as `|`. -/
def Lexeme.plain (t : Lexeme) : Lexeme := if t = .arrow then .or else t

/-- An operand that has to stand in parentheses behind a `!`: it does not start with one, and is no atom with negations. -/
def NeedsGroup (operand : List Lexeme) : Prop :=
  operand.head? ≠ some .lparen ∧ ∀ m c, operand ≠ List.replicate m .not ++ [.atom c]

/-- The left operand of the arrow at place `k` starts at place `s`. -/
def OperandAt (ts : List Lexeme) (k s : Nat) : Prop := ts[k]? = some .arrow ∧ findLeftOperand? ts k = .ok (some s)

/-- The arrow at place `k` has no left operand. -/
def LacksOperand (ts : List Lexeme) (k : Nat) : Prop := ts[k]? = some .arrow ∧ findLeftOperand? ts k = .ok none

instance (ts : List Lexeme) (k s : Nat) : Decidable (OperandAt ts k s) := inferInstanceAs (Decidable (_ ∧ _))

instance (ts : List Lexeme) (k : Nat) : Decidable (LacksOperand ts k) := inferInstanceAs (Decidable (_ ∧ _))

/-- An operand is an atom with negations exactly if it is written so. -/
theorem isNegatedAtom_iff {op : List Lexeme} : isNegatedAtom op = true ↔ ∃ m c, op = List.replicate m .not ++ [.atom c] := by
  constructor
  · intro h
    induction op with
    | nil => cases h
    | cons t op ih =>
      cases t with
      | not =>
        obtain ⟨m, c, rfl⟩ := ih h
        exact ⟨m + 1, c, rfl⟩
      | atom c =>
        cases op with
        | nil => exact ⟨0, c, rfl⟩
        | cons u op => cases h
      | _ => cases h
  · rintro ⟨m, c, rfl⟩
    induction m with
    | zero => rfl
    | succ m ih => exact ih

instance (operand : List Lexeme) : Decidable (NeedsGroup operand) :=
  decidable_of_iff (operand.head? ≠ some .lparen ∧ isNegatedAtom operand = false) <| by
    rw [NeedsGroup, ← Bool.not_eq_true, isNegatedAtom_iff]
    push Not
    rfl

/-- What is put in where an operand starts. -/
def opening (operand : List Lexeme) : List Edited :=
  .added .not :: if NeedsGroup operand then [.added .lparen] else []

/-- What is put in where an operand ends. -/
def closing (operand : List Lexeme) : List Edited := if NeedsGroup operand then [.added .rparen] else []

/-- The lexemes from one place up to another. -/
def between (ts : List Lexeme) (s k : Nat) : List Lexeme := (ts.take k).drop s

/-- What the places `i` and `j` have put in at `i`: an opening if one is the start of the operand of the other, a closing if it is
the other way around. -/
def insertion (ts : List Lexeme) (i j : Nat) : List Edited :=
  (if OperandAt ts j i then opening (between ts i j) else []) ++ if OperandAt ts i j then closing (between ts j i) else []

/-- What is put in at a place. -/
def insertions (ts : List Lexeme) (i : Nat) : List Edited := (List.range ts.length).flatMap (insertion ts i)

/-- A list with the edits of all its arrows, each of which finds its operand in the list itself. -/
def edits (ts : List Lexeme) : List Edited :=
  (List.range ts.length).flatMap fun i => insertions ts i ++ (ts[i]?.map (.kept ·.plain)).toList

/-! ## Operands by their places -/

/-- An operand starts where the search from the arrow backwards ends. -/
theorem operandAt_iff {ts : List Lexeme} {k s : Nat} :
    OperandAt ts k s ↔ ts[k]? = some .arrow ∧ s ≤ k ∧ operandLength? (ts.take k).reverse = some (k - s) :=
  and_congr_right fun harrow => findLeftOperand?_eq_some_iff (Nat.le_of_lt (List.getElem?_eq_some_iff.mp harrow).1)

/-- An arrow lacks an operand where the search from it backwards fails. -/
theorem lacksOperand_iff {ts : List Lexeme} {k : Nat} :
    LacksOperand ts k ↔ ts[k]? = some .arrow ∧ operandLength? (ts.take k).reverse = none := by
  refine and_congr_right fun harrow => ?_
  rw [findLeftOperand?_eq (Nat.le_of_lt (List.getElem?_eq_some_iff.mp harrow).1), Except.ok.injEq, Option.map_eq_none_iff,
    readBack]

/-- An operand starts before its arrow. -/
theorem OperandAt.lt {ts : List Lexeme} {k s : Nat} (h : OperandAt ts k s) : s < k := by
  obtain ⟨-, hle, hn⟩ := operandAt_iff.mp h
  have := (operandLength?_le hn).1
  omega

/-- What follows an arrow has no part in its operand. -/
theorem operandAt_append_left {a : List Lexeme} (b : List Lexeme) {k s : Nat} (hk : k < a.length) :
    OperandAt (a ++ b) k s ↔ OperandAt a k s := by
  rw [operandAt_iff, operandAt_iff, List.getElem?_append_left hk, List.take_append_of_le_length (Nat.le_of_lt hk)]

/-- The arrows of the second list have their operands in the second list. -/
def IsLocal (a b : List Lexeme) : Prop :=
  ∀ k, b[k]? = some .arrow → operandLength? ((b.take k).reverse ++ a.reverse) = operandLength? (b.take k).reverse

/-- The operands of arrows that have them in the second list are those in the second list alone. -/
theorem IsLocal.operandAt {a b : List Lexeme} (h : IsLocal a b) {k s : Nat} :
    OperandAt (a ++ b) (a.length + k) s ↔ a.length ≤ s ∧ OperandAt b k (s - a.length) := by
  have harrow : (a ++ b)[a.length + k]? = b[k]? := by rw [List.getElem?_append_right (by omega), Nat.add_sub_cancel_left]
  have htake : ((a ++ b).take (a.length + k)).reverse = (b.take k).reverse ++ a.reverse := by
    rw [List.take_length_add_append, List.reverse_append]
  rw [operandAt_iff, operandAt_iff, harrow, htake]
  constructor
  · rintro ⟨hk, hle, hn⟩
    rw [h k hk] at hn
    have hlen := (operandLength?_le hn).2
    rw [List.length_reverse, List.length_take] at hlen
    exact ⟨by omega, hk, by omega, by rw [hn]; congr 1; omega⟩
  · rintro ⟨has, hk, hle, hn⟩
    exact ⟨hk, by omega, by rw [h k hk, hn]; congr 1; omega⟩

/-- What stands between places of the first list. -/
theorem between_append_left {a : List Lexeme} (b : List Lexeme) {s k : Nat} (hk : k ≤ a.length) :
    between (a ++ b) s k = between a s k := by
  rw [between, between, List.take_append_of_le_length hk]

/-- What stands between places of the second list. -/
theorem between_append_right (a b : List Lexeme) (s k : Nat) :
    between (a ++ b) (a.length + s) (a.length + k) = between b s k := by
  rw [between, between, List.take_length_add_append, ← List.drop_drop, List.drop_left]

/-! ## The edits of two parts -/

/-- Places that are not those of an operand and its arrow have nothing put in. -/
theorem insertion_eq_nil {ts : List Lexeme} {i j : Nat} (h : ¬OperandAt ts j i) (h' : ¬OperandAt ts i j) :
    insertion ts i j = [] := by
  rw [insertion, if_neg h, if_neg h', List.append_nil]

/-- What places of the first list have put in does not depend on the second. -/
theorem insertion_append_left {a : List Lexeme} (b : List Lexeme) {i j : Nat} (hi : i < a.length) (hj : j < a.length) :
    insertion (a ++ b) i j = insertion a i j := by
  rw [insertion, between_append_left b (Nat.le_of_lt hi), between_append_left b (Nat.le_of_lt hj)]
  exact congrArg₂ _ (if_congr (operandAt_append_left b hj) rfl rfl) (if_congr (operandAt_append_left b hi) rfl rfl)

/-- What places of the second list have put in does not depend on the first, if its arrows have their operands there. -/
theorem insertion_append_right {a b : List Lexeme} (h : IsLocal a b) (i j : Nat) :
    insertion (a ++ b) (a.length + i) (a.length + j) = insertion b i j := by
  have hop : ∀ {k s}, OperandAt (a ++ b) (a.length + k) (a.length + s) ↔ OperandAt b k s := fun {k s} => by
    rw [h.operandAt, Nat.add_sub_cancel_left]
    exact and_iff_right (Nat.le_add_right _ _)
  rw [insertion, between_append_right, between_append_right]
  exact congrArg₂ _ (if_congr hop rfl rfl) (if_congr hop rfl rfl)

/-- What is put in at a place of the first list does not depend on the second, if the arrows of that have their operands there. -/
theorem insertions_append_left {a b : List Lexeme} (h : IsLocal a b) {i : Nat} (hi : i < a.length) :
    insertions (a ++ b) i = insertions a i := by
  have hcross : ((List.range b.length).flatMap fun j => insertion (a ++ b) i (a.length + j)) = [] :=
    List.flatMap_eq_nil_iff.mpr fun j _ => insertion_eq_nil
      (fun hop => by have := (h.operandAt.mp hop).1; omega) (fun hop => by have := hop.lt; omega)
  rw [insertions, List.length_append, List.range_add, List.flatMap_append, List.flatMap_map, hcross, List.append_nil]
  exact List.flatMap_congr fun j hj => insertion_append_left b hi (List.mem_range.mp hj)

/-- What is put in at a place of the second list does not depend on the first, if its arrows have their operands there. -/
theorem insertions_append_right {a b : List Lexeme} (h : IsLocal a b) (i : Nat) :
    insertions (a ++ b) (a.length + i) = insertions b i := by
  have hcross : (List.range a.length).flatMap (insertion (a ++ b) (a.length + i)) = [] :=
    List.flatMap_eq_nil_iff.mpr fun j hj => by
      have hj := List.mem_range.mp hj
      exact insertion_eq_nil (fun hop => by have := hop.lt; omega) (fun hop => by have := (h.operandAt.mp hop).1; omega)
  rw [insertions, List.length_append, List.range_add, List.flatMap_append, List.flatMap_map, hcross, List.nil_append]
  exact List.flatMap_congr fun j _ => insertion_append_right h i j

/-- No edit of the one part concerns the other. -/
theorem edits_append {a b : List Lexeme} (h : IsLocal a b) : edits (a ++ b) = edits a ++ edits b := by
  unfold edits
  rw [List.length_append, List.range_add, List.flatMap_append, List.flatMap_map]
  congr 1
  · refine List.flatMap_congr fun i hi => ?_
    rw [List.mem_range] at hi
    rw [insertions_append_left h hi, List.getElem?_append_left hi]
  · refine List.flatMap_congr fun i _ => ?_
    rw [insertions_append_right h, List.getElem?_append_right (Nat.le_add_right _ _), Nat.add_sub_cancel_left]

/-! ## The edits inside an operand -/

/-- A core with the negations before it. -/
def IsOperand (b : List Lexeme) : Prop := ∃ m core, IsCore core ∧ b = List.replicate m .not ++ core

namespace IsOperand

/-- An arrow inside an operand has its operand inside too, if it has one. What stands before the arrow in the group leaves the
group open. -/
theorem operandLength?_inside {b : List Lexeme} (h : IsOperand b) {k : Nat} (hk : b[k]? = some .arrow) :
    ∃ y : List Lexeme, y.length < k ∧ ∀ us, operandLength? ((b.take k).reverse ++ us) = operandLength? y := by
  obtain ⟨m, core, hcore, rfl⟩ := h
  have hmk : m ≤ k := by
    by_contra hlt
    rw [List.getElem?_append_left (by simpa using hlt), List.getElem?_replicate] at hk
    split at hk <;> cases hk
  rw [List.getElem?_append_right (by simpa using hmk), List.length_replicate] at hk
  obtain ⟨j, rfl⟩ := Nat.exists_eq_add_of_le hmk
  rw [Nat.add_sub_cancel_left] at hk
  rcases hcore with ⟨c, rfl⟩ | ⟨vs, rfl, hd⟩
  · cases j <;> simp at hk
  · cases j with
    | zero => cases hk
    | succ j =>
      rw [List.getElem?_cons_succ] at hk
      have hj : j < vs.length := by
        by_contra hge
        rw [List.getElem?_append_right (by omega)] at hk
        cases hn : j - vs.length <;> simp [hn] at hk
      refine ⟨(vs.take j).reverse, by rw [List.length_reverse, List.length_take]; omega, fun us => ?_⟩
      obtain ⟨e, he⟩ : ∃ e, depthAfter? Lexeme.paren? 0 (vs.take j).reverse.reverse = some e := by
        rw [← List.take_append_drop j vs, depthAfter?_append] at hd
        obtain ⟨e, he, -⟩ := Option.bind_eq_some_iff.mp hd
        exact ⟨e, by rw [List.reverse_reverse, he]⟩
      have htake : ((List.replicate m Lexeme.not ++ Lexeme.lparen :: (vs ++ [.rparen])).take (m + (j + 1))).reverse ++ us =
          (vs.take j).reverse ++ .lparen :: (List.replicate m .not ++ us) := by
        rw [List.take_append, List.length_replicate, Nat.add_sub_cancel_left, List.take_of_length_le (by simp),
          List.take_succ_cons, List.take_append_of_le_length (Nat.le_of_lt hj)]
        simp
      rw [htake, operandLength?_append_lparen he]

section

variable {b : List Lexeme} (h : IsOperand b)

include h

/-- An operand has a lexeme. -/
theorem length_pos : 0 < b.length := by
  obtain ⟨m, core, hcore, rfl⟩ := h
  refine List.length_pos_iff.mpr (List.append_ne_nil_of_right_ne_nil _ ?_)
  rcases hcore with ⟨c, rfl⟩ | ⟨us, rfl, -⟩ <;> exact nofun

/-- Behind an operand and what stands before it, the operand is found. -/
theorem operandLength?_append {us : List Lexeme} (hus : us.head? ≠ some .not) :
    operandLength? (b.reverse ++ us) = some b.length := by
  obtain ⟨m, core, hcore, rfl⟩ := h
  rw [List.reverse_append, List.reverse_replicate, List.append_assoc, hcore.operandLength?_append hus, List.length_append,
    List.length_replicate, Nat.add_comm]

/-- The search backwards from the end of an operand finds all of it. -/
theorem operandLength?_reverse : operandLength? b.reverse = some b.length := by
  have := h.operandLength?_append (List.head?_nil.trans_ne nofun)
  rwa [List.append_nil] at this

/-- No arrow inside an operand has an operand that starts where this one does. -/
theorem pos_of_operandAt {k s : Nat} (hk : OperandAt b k s) : 0 < s := by
  obtain ⟨harrow, hle, hn⟩ := operandAt_iff.mp hk
  obtain ⟨y, hy, hop⟩ := h.operandLength?_inside harrow
  have hinside := hop []
  rw [List.append_nil, hn] at hinside
  have := (operandLength?_le hinside.symm).2
  omega

/-- The operand of an arrow behind it starts at its first lexeme. -/
theorem operandAt_arrow {s : Nat} : OperandAt (b ++ [.arrow]) b.length s ↔ s = 0 := by
  have hpos := h.length_pos
  rw [operandAt_iff, List.getElem?_append_right (Nat.le_refl _), List.take_left, h.operandLength?_reverse, Nat.sub_self]
  constructor
  · rintro ⟨-, hle, hn⟩
    have := Option.some.inj hn
    omega
  · rintro rfl
    exact ⟨rfl, Nat.zero_le _, rfl⟩

/-- An operand and its arrow have no part in what stands before them, unless that ends with a negation. -/
theorem isLocal {a : List Lexeme} (ha : a.reverse.head? ≠ some .not) : IsLocal a (b ++ [.arrow]) := by
  intro k hk
  rcases Nat.lt_or_ge k b.length with hlt | hge
  · rw [List.getElem?_append_left hlt] at hk
    rw [List.take_append_of_le_length (Nat.le_of_lt hlt)]
    obtain ⟨y, -, hop⟩ := h.operandLength?_inside hk
    have hinside := hop []
    rw [List.append_nil] at hinside
    rw [hop, hinside]
  · obtain rfl : k = b.length := by
      have := (List.getElem?_eq_some_iff.mp hk).1
      rw [List.length_append, List.length_singleton] at this
      omega
    rw [List.take_left, h.operandLength?_append ha, h.operandLength?_reverse]

/-- At each place of an operand, the arrow behind it adds its opening if the operand starts there. -/
theorem insertions_inside {i : Nat} (hi : i < b.length) :
    insertions (b ++ [.arrow]) i = insertions b i ++ if i = 0 then opening b else [] := by
  have hlast : insertion (b ++ [.arrow]) i b.length = if i = 0 then opening b else [] := by
    have hnot : ¬OperandAt (b ++ [.arrow]) i b.length := fun hop => Nat.lt_asymm hi hop.lt
    rw [insertion, if_neg hnot, List.append_nil]
    refine (if_congr h.operandAt_arrow rfl rfl).trans (ite_congr rfl (fun h0 => ?_) fun _ => rfl)
    rw [h0, between, List.take_left, List.drop_zero]
  rw [insertions, List.length_append, List.length_singleton, List.range_succ, List.flatMap_append, List.flatMap_singleton, hlast]
  congr 1
  exact List.flatMap_congr fun j hj => insertion_append_left _ hi (List.mem_range.mp hj)

/-- What is put in at the first place of an operand is put in for the arrow behind it. -/
theorem insertions_zero : insertions b 0 = [] :=
  List.flatMap_eq_nil_iff.mpr fun _ _ => insertion_eq_nil
    (fun hop => absurd (h.pos_of_operandAt hop) (Nat.lt_irrefl 0)) (fun hop => absurd hop.lt (Nat.not_lt_zero _))

/-- At the arrow behind an operand, the closing of the operand is put in. -/
theorem insertions_arrow : insertions (b ++ [.arrow]) b.length = closing b := by
  obtain ⟨n, hn⟩ := Nat.exists_eq_add_of_lt h.length_pos
  have hfirst : insertion (b ++ [.arrow]) b.length 0 = closing b := by
    rw [insertion, if_neg fun hop => absurd hop.lt (Nat.not_lt_zero _), if_pos (h.operandAt_arrow.mpr rfl), between,
      List.take_left, List.drop_zero, List.nil_append]
  have hrest : ((List.range b.length).map Nat.succ).flatMap (insertion (b ++ [.arrow]) b.length) = [] :=
    List.flatMap_eq_nil_iff.mpr fun j hj => by
      obtain ⟨i, hi, rfl⟩ := List.mem_map.mp hj
      rw [List.mem_range] at hi
      exact insertion_eq_nil (fun hop => absurd hop.lt (by omega)) fun hop => absurd (h.operandAt_arrow.mp hop) (by omega)
  rw [insertions, List.length_append, List.length_singleton, List.range_succ_eq_map, List.flatMap_cons, hfirst, hrest,
    List.append_nil]

/-- The edits of an operand and its arrow are those of the operand between those of the arrow. -/
theorem edits_arrow : edits (b ++ [.arrow]) = opening b ++ (edits b ++ (closing b ++ [.kept .or])) := by
  obtain ⟨n, hn⟩ := Nat.exists_eq_add_of_lt h.length_pos
  have hpiece : ∀ i < b.length, insertions (b ++ [.arrow]) i ++ ((b ++ [.arrow])[i]?.map (Edited.kept ·.plain)).toList =
      insertions b i ++ ((if i = 0 then opening b else []) ++ (b[i]?.map (Edited.kept ·.plain)).toList) := fun i hi => by
    rw [h.insertions_inside hi, List.getElem?_append_left hi, List.append_assoc]
  have hlast : ((b ++ [.arrow])[b.length]?.map (Edited.kept ·.plain)).toList = [.kept .or] := by simp [Lexeme.plain]
  have hrange : List.range b.length = 0 :: (List.range n).map Nat.succ := by rw [hn, Nat.zero_add, List.range_succ_eq_map]
  have hinner : ((List.range b.length).flatMap fun i =>
      insertions (b ++ [.arrow]) i ++ ((b ++ [.arrow])[i]?.map (Edited.kept ·.plain)).toList) = opening b ++ edits b := by
    rw [List.flatMap_congr fun i hi => hpiece i (List.mem_range.mp hi), edits, hrange, List.flatMap_cons, List.flatMap_cons,
      h.insertions_zero, if_pos rfl, List.nil_append, List.nil_append, List.append_assoc]
    congr 2
    exact List.flatMap_congr fun i hi => by
      obtain ⟨j, -, rfl⟩ := List.mem_map.mp hi
      rw [if_neg (Nat.succ_ne_zero j), List.nil_append]
  rw [edits, List.length_append, List.length_singleton, List.range_succ, List.flatMap_append, hinner, List.flatMap_singleton,
    h.insertions_arrow, hlast, List.append_assoc]

end

end IsOperand

/-! ## Lists by their last arrow -/

/-- What stands before an arrow with an operand ends with this operand. -/
theorem exists_operand {us : List Lexeme} {n : Nat} (h : operandLength? us.reverse = some n) :
    ∃ a b, us = a ++ b ∧ IsOperand b ∧ a.reverse.head? ≠ some .not ∧ b.length = n := by
  obtain ⟨m, core, hcore, hop, hrest⟩ := operandLength?_eq_some h
  refine ⟨(us.reverse.drop n).reverse, (us.reverse.take n).reverse, ?_, ⟨m, core, hcore, hop⟩, by rwa [List.reverse_reverse], ?_⟩
  · rw [← List.reverse_append, List.take_append_drop, List.reverse_reverse]
  · rw [List.length_reverse, List.length_take, Nat.min_eq_left (operandLength?_le h).2]

/-- No two operands start at the same place. The earlier of two arrows would be inside the operand of the other one, and so would
be the whole of its own operand. -/
theorem operandAt_unique {ts : List Lexeme} {k k' s : Nat} (h : OperandAt ts k s) (h' : OperandAt ts k' s) : k = k' := by
  have key : ∀ {k k'}, OperandAt ts k s → OperandAt ts k' s → ¬k < k' := fun {k k'} h h' hlt => by
    obtain ⟨harrow, hle, hn⟩ := operandAt_iff.mp h'
    obtain ⟨a, b, htake, hb, ha, hlen⟩ := exists_operand hn
    have hts : ts = a ++ b ++ ts.drop k' := by rw [← htake, List.take_append_drop]
    have hk' : a.length + b.length = k' := by
      rw [← List.length_append, ← htake, List.length_take,
        Nat.min_eq_left (Nat.le_of_lt (List.getElem?_eq_some_iff.mp harrow).1)]
    have has : a.length = s := by omega
    have hstart := h.lt
    rw [hts] at h
    have hbefore := (operandAt_append_left _ (by rw [List.length_append]; omega)).mp h
    have hwhole := (operandAt_append_left [.arrow] (by rw [List.length_append]; omega)).mpr hbefore
    rw [List.append_assoc, ← Nat.add_sub_cancel' (Nat.le_of_lt hstart), ← has, (hb.isLocal ha).operandAt] at hwhole
    have := hb.pos_of_operandAt ((operandAt_append_left _ (by omega)).mp hwhole.2)
    omega
  exact Nat.le_antisymm (Nat.not_lt.mp (key h' h)) (Nat.not_lt.mp (key h h'))

/-- A lexeme alone has no part in what stands before it, unless it is an arrow with an operand. -/
theorem isLocal_singleton {a : List Lexeme} {t : Lexeme} (h : t = .arrow → operandLength? a.reverse = none) : IsLocal a [t] := by
  intro k hk
  cases k with
  | zero => exact h (Option.some.inj hk)
  | succ k => cases hk

/-- A lexeme alone is kept. -/
theorem edits_singleton (t : Lexeme) : edits [t] = [.kept t.plain] := by
  have hnone : insertions [t] 0 = [] := List.flatMap_eq_nil_iff.mpr fun j hj => by
    obtain rfl : j = 0 := by simpa using hj
    exact insertion_eq_nil (fun h => absurd h.lt (Nat.lt_irrefl 0)) fun h => absurd h.lt (Nat.lt_irrefl 0)
  show insertions [t] 0 ++ [.kept t.plain] ++ [] = _
  rw [hnone]
  rfl

/-- A list is empty, or ends with a lexeme that has no operand, or with an operand and its arrow; and so are its edits. The parts
before an arrow are shorter lists, but none of them is the list without its end, so the induction is on the length. -/
theorem edits_induction {P : List Lexeme → List Edited → Prop} (nil : P [] [])
    (concat : ∀ us t, (t = .arrow → operandLength? us.reverse = none) → P us (edits us) →
      P (us ++ [t]) (edits us ++ [.kept t.plain]))
    (arrow : ∀ a b, IsOperand b → a.reverse.head? ≠ some .not → P a (edits a) → P b (edits b) →
      P (a ++ (b ++ [.arrow])) (edits a ++ (opening b ++ (edits b ++ (closing b ++ [.kept .or])))))
    (ts : List Lexeme) : P ts (edits ts) := by
  induction hlen : ts.length using Nat.strongRecOn generalizing ts with
  | ind len ih =>
    subst hlen
    have ih : ∀ us : List Lexeme, us.length < ts.length → P us (edits us) := fun us hus => ih us.length hus us rfl
    rcases List.eq_nil_or_concat ts with rfl | ⟨us, t, rfl⟩
    · exact nil
    · rw [List.concat_eq_append] at ih ⊢
      by_cases hop : t = .arrow ∧ operandLength? us.reverse ≠ none
      · obtain ⟨rfl, hsome⟩ := hop
        obtain ⟨n, hn⟩ := Option.ne_none_iff_exists'.mp hsome
        obtain ⟨a, b, rfl, hb, ha, -⟩ := exists_operand hn
        rw [List.append_assoc] at ih ⊢
        rw [edits_append (hb.isLocal ha), hb.edits_arrow]
        refine arrow a b hb ha (ih a ?_) (ih b ?_)
        · simp only [List.length_append, List.length_singleton]
          omega
        · simp only [List.length_append, List.length_singleton]
          omega
      · have hnone : t = .arrow → operandLength? us.reverse = none := fun ht => by
          by_contra h
          exact hop ⟨ht, h⟩
        rw [edits_append (isLocal_singleton hnone), edits_singleton]
        exact concat us t hnone (ih us (by simp))

/-! ## The parts of the edits -/

/-- Nothing of what is put in where an operand starts was there before. -/
theorem kept?_opening (op : List Lexeme) : (opening op).filterMap Edited.kept? = [] := by
  unfold opening
  split <;> rfl

/-- Nothing of what is put in where an operand ends was there before. -/
theorem kept?_closing (op : List Lexeme) : (closing op).filterMap Edited.kept? = [] := by
  unfold closing
  split <;> rfl

/-- The lexemes are kept in their order, the arrows as `|`. -/
theorem kept?_edits (ts : List Lexeme) : (edits ts).filterMap Edited.kept? = ts.map Lexeme.plain := by
  refine edits_induction (P := fun ts es => es.filterMap Edited.kept? = ts.map Lexeme.plain) rfl
    (fun us t _ ih => ?concat) (fun a b _ _ iha ihb => ?arrow) ts
  case concat =>
    rw [List.filterMap_append, ih, List.map_append]
    rfl
  case arrow =>
    simp only [List.filterMap_append, List.map_append, iha, ihb, kept?_opening, kept?_closing, List.nil_append]
    rfl

/-- Only negations and parentheses are put in. -/
theorem added?_edits (ts : List Lexeme) : ∀ t ∈ (edits ts).filterMap Edited.added?, t ∈ [Lexeme.not, .lparen, .rparen] := by
  have hopening : ∀ op, ∀ t ∈ (opening op).filterMap Edited.added?, t ∈ [Lexeme.not, .lparen, .rparen] := fun op => by
    unfold opening
    split <;> decide
  have hclosing : ∀ op, ∀ t ∈ (closing op).filterMap Edited.added?, t ∈ [Lexeme.not, .lparen, .rparen] := fun op => by
    unfold closing
    split <;> decide
  refine edits_induction (P := fun _ es => ∀ t ∈ es.filterMap Edited.added?, t ∈ [Lexeme.not, .lparen, .rparen]) (by simp)
    (fun us t _ ih => ?concat) (fun a b _ _ iha ihb => ?arrow) ts
  case concat => simpa [Edited.added?] using ih
  case arrow =>
    intro t ht
    simp only [List.filterMap_append, List.mem_append] at ht
    rcases ht with ht | ht | ht | ht | ht
    · exact iha t ht
    · exact hopening b t ht
    · exact ihb t ht
    · exact hclosing b t ht
    · cases ht

/-- What is put in around an operand is a negation, and a pair of parentheses or nothing. -/
theorem added?_around (b : List Lexeme) (es : List Edited) :
    (opening b ++ (es ++ (closing b ++ [Edited.kept .or]))).filterMap Edited.added? =
      .not :: if NeedsGroup b then .lparen :: (es.filterMap Edited.added? ++ [.rparen]) else es.filterMap Edited.added? := by
  unfold opening closing
  split <;> simp [List.filterMap_cons, Edited.added?]

/-- The parentheses that are put in are balanced. -/
theorem depthAfter?_added (ts : List Lexeme) : depthAfter? Lexeme.paren? 0 ((edits ts).filterMap Edited.added?) = some 0 := by
  refine edits_induction (P := fun _ es => depthAfter? Lexeme.paren? 0 (es.filterMap Edited.added?) = some 0) rfl
    (fun us t _ ih => ?concat) (fun a b _ _ iha ihb => ?arrow) ts
  case concat =>
    rw [List.filterMap_append, show [Edited.kept t.plain].filterMap Edited.added? = [] from rfl, List.append_nil, ih]
  case arrow =>
    rw [List.filterMap_append, depthAfter?_append, iha, Option.bind_some, added?_around, depthAfter?_cons]
    show depthAfter? Lexeme.paren? 0 _ = _
    split
    · exact depthAfter?_group ihb 0
    · exact ihb

/-! ## What the elimination holds -/

/-- An operand is guarded by parentheses if it needs them. -/
theorem guardOperand_eq (op : List Lexeme) :
    guardOperand op = if NeedsGroup op then .lparen :: (op ++ [.rparen]) else op := by
  unfold guardOperand
  split
  · rw [if_neg fun h : NeedsGroup _ => h.1 rfl]
  · rename_i hhead
    split
    · rename_i hatom
      obtain ⟨m, c, hop⟩ := isNegatedAtom_iff.mp hatom
      rw [if_neg fun h : NeedsGroup op => h.2 m c hop]
    · rename_i hatom
      refine (if_pos ⟨fun h => ?_, fun m c hop => hatom (isNegatedAtom_iff.mpr ⟨m, c, hop⟩)⟩).symm
      obtain ⟨us, hus⟩ := List.head?_eq_some_iff.mp h
      exact hhead us hus

/-- Behind negations, a core has to stand in parentheses if it is a group. A group ends with a parenthesis, and an atom with
itself. -/
theorem needsGroup_iff {core : List Lexeme} (h : IsCore core) (m : Nat) :
    NeedsGroup (List.replicate m .not ++ core) ↔ m ≠ 0 ∧ core.head? = some .lparen := by
  rcases h with ⟨c, rfl⟩ | ⟨us, rfl, -⟩
  · exact iff_of_false (fun h => h.2 m c rfl) (by simp)
  · cases m with
    | zero => exact iff_of_false (fun h => h.1 rfl) (by simp)
    | succ m =>
      refine iff_of_true ⟨by simp [List.replicate_succ], fun n c hop => ?_⟩ (by simp)
      have := congrArg List.getLast? hop
      rw [← List.cons_append, ← List.append_assoc, List.getLast?_concat, List.getLast?_concat] at this
      cases this

/-- The lexemes that the elimination holds are those of the edits. The operand as it is held has the negations it had, and its
core starts as it did. -/
theorem map_lexeme_edits (ts : List Lexeme) : (edits ts).map Edited.lexeme = (held ts.reverse).reverse := by
  refine edits_induction (P := fun ts es => es.map Edited.lexeme = (held ts.reverse).reverse) rfl
    (fun us t hnone ih => ?concat) (fun a b hb ha iha ihb => ?arrow) ts
  case concat =>
    rw [List.map_append, ih, List.reverse_append, List.reverse_singleton, List.singleton_append]
    by_cases ht : t = .arrow
    · rw [ht, held_arrow_of_none (operandLength?_held_of_none (hnone ht)), List.reverse_cons]
      rfl
    · rw [held_cons ht, List.reverse_cons, List.map_singleton, Edited.lexeme, Lexeme.plain, if_neg ht]
  case arrow =>
    obtain ⟨n, core, core', hcore, hcore', hhead, hop, hheld, hsplit, hlen⟩ := held_eq_append (hb.operandLength?_append ha)
    rw [List.take_left' List.length_reverse] at hop hheld hsplit hlen
    rw [List.drop_left' List.length_reverse] at hsplit
    rw [List.reverse_reverse] at hop
    have hgroup : NeedsGroup b ↔ NeedsGroup (held b.reverse).reverse := by
      rw [hheld, needsGroup_iff hcore', hhead, hop, needsGroup_iff hcore]
    have hreverse : (a ++ (b ++ [Lexeme.arrow])).reverse = .arrow :: (b.reverse ++ a.reverse) := by simp
    rw [hreverse, held_arrow_of_some hlen, rewritten, hsplit, List.take_left, List.drop_left, guardOperand_eq,
      ← if_congr hgroup rfl rfl, ← ihb]
    simp only [List.map_append, iha]
    unfold opening closing
    split <;> simp [Edited.lexeme]

/-! ## The run of the elimination -/

/-- The arrows of the rest of a list that have no operand before them, `us` being what was read, last lexeme first. -/
def lacking (us ts : List Lexeme) : Nat :=
  (List.range ts.length).countP fun k => ts[k]? = some .arrow ∧ operandLength? ((ts.take k).reverse ++ us) = none

/-- One more lexeme is one more arrow without an operand if it is one. -/
theorem lacking_cons (us ts : List Lexeme) (t : Lexeme) :
    lacking us (t :: ts) = lacking (t :: us) ts + if t = .arrow ∧ operandLength? us = none then 1 else 0 := by
  rw [lacking, List.length_cons, List.range_succ_eq_map, List.countP_cons, List.countP_map, lacking]
  congr 1
  · refine List.countP_congr fun k _ => ?_
    simp
  · simp

/-- One lexeme more is read, and what is held is that of the longer list. -/
theorem eliminateFrom_held_cons {us ts : List Lexeme} {t : Lexeme} {e : Elimination}
    (h : eliminateFrom false (held us) (t :: ts) = .ok e) :
    ∃ e', eliminateFrom false (held (t :: us)) ts = .ok e' ∧ e.lexemes = e'.lexemes ∧
      e.degraded.length = e'.degraded.length + if t = .arrow ∧ operandLength? us = none then 1 else 0 := by
  rcases eliminateFrom_cons h with ⟨ht, h⟩ | ⟨rfl, n, hn, h⟩ | ⟨rfl, hn, c, e', he', rfl⟩
  · exact ⟨e, by rw [held_cons ht, h], rfl, by rw [if_neg fun h => ht h.1, Nat.add_zero]⟩
  · have hsome : operandLength? us ≠ none := fun hnone => by
      rw [operandLength?_held_of_none hnone] at hn
      cases hn
    exact ⟨e, by rw [held_arrow_of_some hn, h], rfl, by rw [if_neg fun h => hsome h.2, Nat.add_zero]⟩
  · have hnone := operandLength?_held_eq_none_iff.mp hn
    exact ⟨e', by rw [held_arrow_of_none hn, he'], rfl, by rw [if_pos ⟨rfl, hnone⟩]; rfl⟩

/-- The elimination goes on with what it holds, and puts on record each arrow that has no operand in the lexemes as they were. -/
theorem eliminateFrom_held {ts : List Lexeme} :
    ∀ {us : List Lexeme} {e : Elimination}, eliminateFrom false (held us) ts = .ok e →
      e.lexemes = (held (ts.reverse ++ us)).reverse ∧ e.degraded.length = lacking us ts := by
  induction ts with
  | nil =>
    intro us e h
    obtain rfl := Except.ok.inj h
    exact ⟨rfl, rfl⟩
  | cons t ts ih =>
    intro us e h
    obtain ⟨e', he', hlexemes, hdegraded⟩ := eliminateFrom_held_cons h
    obtain ⟨ihlexemes, ihdegraded⟩ := ih he'
    rw [hlexemes, ihlexemes, hdegraded, ihdegraded, lacking_cons]
    simp

/-- The elimination gives the lexemes that a single pass over the original list gives, in which every arrow has the operand that
is found for it there. No arrow is left, the other lexemes are kept in their order, the parentheses that are put in are
balanced, and no two arrows have something put in before the same place. -/
theorem eliminate_eq_edits (ts : List Lexeme) :
    ∃ e, eliminate false ts = .ok e ∧
      e.lexemes = (edits ts).map Edited.lexeme ∧
      e.degraded.length = (List.range ts.length).countP (LacksOperand ts ·) ∧
      .arrow ∉ e.lexemes ∧
      (edits ts).filterMap Edited.kept? = ts.map Lexeme.plain ∧
      (∀ t ∈ (edits ts).filterMap Edited.added?, t ∈ [Lexeme.not, .lparen, .rparen]) ∧
      depthAfter? Lexeme.paren? 0 ((edits ts).filterMap Edited.added?) = some 0 ∧
      ∀ k k' s, OperandAt ts k s → OperandAt ts k' s → k = k' := by
  obtain ⟨e, he⟩ := exists_eliminateFrom ts (held [])
  obtain ⟨hlexemes, hdegraded⟩ := eliminateFrom_held he
  refine ⟨e, he, ?_, ?_, arrow_not_mem_eliminate he, kept?_edits ts, added?_edits ts, depthAfter?_added ts,
    fun _ _ _ => operandAt_unique⟩
  · rw [hlexemes, List.append_nil, map_lexeme_edits]
  · rw [hdegraded]
    refine List.countP_congr fun k _ => ?_
    rw [decide_eq_true_iff, decide_eq_true_iff, lacksOperand_iff, List.append_nil]

/-- The arrow in the group finds `A`, the one behind it the group, the last one nothing. -/
example : (edits [.lparen, .atom 'A', .arrow, .atom 'B', .rparen, .arrow, .arrow]).map Edited.lexeme =
    [.not, .lparen, .not, .atom 'A', .or, .atom 'B', .rparen, .or, .or] := by decide

end Propositional.Latex
