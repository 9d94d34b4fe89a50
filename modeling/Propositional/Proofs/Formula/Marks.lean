import Propositional.Proofs.Formula.Renaming

/-!
# Reading formulas with arrows

The reader of formulas takes an arrow as well if it takes it for `|` with one more negation before the last operand. A mark is a
token or an arrow, and `Reading.afterMarks` is the state of the reader behind some marks.

The values of what a group waits with come to the value of the whole one level of binding after the other (`eval_conjoin`,
`eval_disjoin`, `eval_close`). The groups around the innermost one have no part in what is read inside a group
(`afterMarks_lift`), so an operand can be read in any group, and what it is does not depend on the group (`afterMarks_operand`).
-/

namespace Propositional

variable {α β : Type}

/-- A token, or an arrow of implication. -/
inductive Mark (α : Type) where
  | token (t : Token α)
  | arrow
  deriving DecidableEq, Repr

namespace Reading

/-- The state after an arrow: what a `|` would lead to with one more negation before the operand. -/
def imply (s : Reading α) : Option (Reading α) :=
  { s with group := { s.group with negations := s.group.negations + 1 } }.step .or

/-- The state after one more mark. -/
def mark (s : Reading α) : Mark α → Option (Reading α)
  | .token t => s.step t
  | .arrow => s.imply

/-- The state after some marks. -/
def afterMarks (s : Reading α) (ms : List (Mark α)) : Option (Reading α) := ms.foldlM mark s

@[simp] theorem afterMarks_nil (s : Reading α) : s.afterMarks [] = some s := rfl

@[simp] theorem afterMarks_cons (s : Reading α) (m : Mark α) (ms : List (Mark α)) :
    s.afterMarks (m :: ms) = (s.mark m).bind (·.afterMarks ms) := rfl

theorem afterMarks_append (s : Reading α) (ms ns : List (Mark α)) :
    s.afterMarks (ms ++ ns) = (s.afterMarks ms).bind (·.afterMarks ns) := by
  simp [afterMarks, List.foldlM_append]

/-- An arrow needs an operand before it. -/
theorem imply_eq_none {s : Reading α} (h : s.operand = none) : s.imply = none := by
  obtain ⟨gs, g, o⟩ := s
  obtain rfl : o = none := h
  rfl

end Reading

/-! ## Values -/

namespace Pending

variable (p : Pending α) (f : Formula α) (val : α → Bool)

theorem eval_conjoin : (p.conjoin f).eval val = (p.conjunction.all (·.eval val) && (p.unary f).eval val) := by
  unfold conjoin
  cases p.conjunction <;> rfl

theorem eval_disjoin : (p.disjoin f).eval val = (p.disjunction.any (·.eval val) || (p.conjoin f).eval val) := by
  unfold disjoin
  cases p.disjunction <;> rfl

/-- What a chain of equivalences makes of the value of its last member. -/
def equate (val : α → Bool) (b : Bool) : Bool :=
  match p.equivalence with
  | some (c, l) => c.apply (l.eval val) b
  | none => b

theorem eval_close : (p.close f).eval val = p.equate val ((p.disjoin f).eval val) := by
  unfold close equate
  cases p.equivalence <;> rfl

end Pending

/-! ## Depth -/

/-- The depth behind a symbol that opens a group (`some true`), closes one (`some false`) or does neither, none if no group is
open that it could close. -/
def nextDepth? (d : Nat) : Option Bool → Option Nat
  | none => some d
  | some true => some (d + 1)
  | some false =>
    match d with
    | 0 => none
    | d + 1 => some d

/-- The depth of parentheses behind some symbols that start at a given depth, none if a parenthesis closes more than is open.
`paren?` says whether a symbol opens a group or closes one. -/
def depthAfter? {σ : Type} (paren? : σ → Option Bool) (d : Nat) (ts : List σ) : Option Nat :=
  ts.foldlM (fun d t => nextDepth? d (paren? t)) d

section Depth

variable {σ : Type} (paren? : σ → Option Bool)

theorem depthAfter?_cons (d : Nat) (t : σ) (ts : List σ) :
    depthAfter? paren? d (t :: ts) = (nextDepth? d (paren? t)).bind (depthAfter? paren? · ts) := rfl

/-- The depth behind some symbols goes on from the depth behind those before. -/
theorem depthAfter?_append (ts us : List σ) (d : Nat) :
    depthAfter? paren? d (ts ++ us) = (depthAfter? paren? d ts).bind (depthAfter? paren? · us) := by
  simp [depthAfter?, List.foldlM_append]

variable {paren?}

/-- A symbol does the same at a greater depth. -/
theorem nextDepth?_add {d e : Nat} {b : Option Bool} (h : nextDepth? d b = some e) (c : Nat) :
    nextDepth? (d + c) b = some (e + c) := by
  rcases b with _ | _ | _
  · obtain rfl := Option.some.inj h
    rfl
  · cases d with
    | zero => cases h
    | succ d =>
      obtain rfl := Option.some.inj h
      rw [Nat.add_right_comm]
      rfl
  · obtain rfl := Option.some.inj h
    rw [Nat.add_right_comm]
    rfl

/-- What closes only what it opens does so in more groups too. -/
theorem depthAfter?_add {ts : List σ} :
    ∀ {d e : Nat}, depthAfter? paren? d ts = some e → ∀ c, depthAfter? paren? (d + c) ts = some (e + c) := by
  induction ts with
  | nil =>
    intro d e h c
    obtain rfl := Option.some.inj h
    rfl
  | cons t ts ih =>
    intro d e h c
    rw [depthAfter?_cons] at h ⊢
    obtain ⟨k, hk, h⟩ := Option.bind_eq_some_iff.mp h
    rw [nextDepth?_add hk, Option.bind_some, ih h]

/-- A part that closes what it opens, and no more, leaves any depth as it is. -/
theorem depthAfter?_of_closed {ts : List σ} (h : depthAfter? paren? 0 ts = some 0) (d : Nat) :
    depthAfter? paren? d ts = some d := by
  simpa using depthAfter?_add h d

end Depth

/-- Whether a mark opens a group or closes one. -/
def Mark.paren? : Mark α → Option Bool
  | .token .lparen => some true
  | .token .rparen => some false
  | _ => none

/-- An operand without the negations before it: a leaf, or a group in parentheses that close only what they open. -/
def Mark.IsCore (ms : List (Mark α)) : Prop :=
  (∃ a, ms = [.token (.leaf a)]) ∨
    ∃ ns, ms = .token .lparen :: (ns ++ [.token .rparen]) ∧ depthAfter? Mark.paren? 0 ns = some 0

namespace Reading

/-- The depth of parentheses is the number of groups around. -/
theorem depthAfter?_of_afterMarks {ms : List (Mark α)} :
    ∀ {s s' : Reading α}, s.afterMarks ms = some s' → depthAfter? Mark.paren? s.outer.length ms = some s'.outer.length := by
  induction ms with
  | nil => intro s s' h; obtain rfl := Option.some.inj h; rfl
  | cons m ms ih =>
    intro s s' h
    obtain ⟨r, hr, h⟩ := Option.bind_eq_some_iff.mp h
    have hr' := ih h
    rcases s with ⟨_ | ⟨p, gs⟩, g, _ | f⟩ <;> rcases m with (_ | _ | _ | _ | _ | _ | _ | _) | _ <;> cases hr <;> exact hr'

/-- The state inside more groups. -/
def lift (gs : List (Pending α)) (s : Reading α) : Reading α := { s with outer := s.outer ++ gs }

/-- A mark does the same inside more groups, unless it closes a group that is not there. -/
theorem mark_lift (gs : List (Pending α)) (s : Reading α) {m : Mark α} (h : m = .token .rparen → s.outer ≠ []) :
    (s.lift gs).mark m = (s.mark m).map (lift gs) := by
  rcases s with ⟨_ | ⟨p, ps⟩, g, _ | f⟩ <;> rcases m with (_ | _ | _ | _ | _ | _ | _ | _) | _ <;>
    first | rfl | exact absurd rfl (h rfl)

/-- Marks that close only what they open are read in any groups alike. -/
theorem afterMarks_lift (gs : List (Pending α)) {ms : List (Mark α)} :
    ∀ {s : Reading α} {d : Nat}, depthAfter? Mark.paren? s.outer.length ms = some d →
      (s.lift gs).afterMarks ms = (s.afterMarks ms).map (lift gs) := by
  induction ms with
  | nil => intro s d _; rfl
  | cons m ms ih =>
    intro s d hd
    have hm : m = .token .rparen → s.outer ≠ [] := by
      rintro rfl h
      simp [h, depthAfter?_cons, Mark.paren?, nextDepth?] at hd
    rw [afterMarks_cons, afterMarks_cons, mark_lift gs s hm]
    cases hr : s.mark m with
    | none => rfl
    | some r =>
      have hl : depthAfter? Mark.paren? s.outer.length [m] = some r.outer.length :=
        depthAfter?_of_afterMarks (by rw [afterMarks_cons, hr]; rfl)
      have hd' : depthAfter? Mark.paren? r.outer.length ms = some d := by
        have happ := depthAfter?_append Mark.paren? [m] ms s.outer.length
        rw [hl] at happ
        exact happ.symm.trans hd
      simpa using ih hd'

/-- What a core is read as does not depend on where it stands, and it is read only where an operand is due. -/
theorem afterMarks_core {core : List (Mark α)} (h : Mark.IsCore core) :
    ∃ o : Option (Formula α), (∀ gs g, (⟨gs, g, none⟩ : Reading α).afterMarks core = o.map fun f => ⟨gs, g, some f⟩) ∧
      ∀ gs g f, (⟨gs, g, some f⟩ : Reading α).afterMarks core = none := by
  rcases h with ⟨a, rfl⟩ | ⟨ms, rfl, hd⟩
  · exact ⟨some (.leaf a), fun gs g => rfl, fun gs g f => rfl⟩
  · refine ⟨(({} : Reading α).afterMarks ms).bind fun r => r.operand.map r.group.close, fun gs g => ?_, fun gs g f => rfl⟩
    have hl : (⟨g :: gs, {}, none⟩ : Reading α).afterMarks ms = (({} : Reading α).afterMarks ms).map (lift (g :: gs)) :=
      afterMarks_lift (g :: gs) (show depthAfter? Mark.paren? ({} : Reading α).outer.length ms = some 0 from hd)
    have hopen : (⟨gs, g, none⟩ : Reading α).mark (.token .lparen) = some ⟨g :: gs, {}, none⟩ := rfl
    rw [afterMarks_cons, hopen, Option.bind_some, afterMarks_append, hl]
    cases hr : ({} : Reading α).afterMarks ms with
    | none => rfl
    | some r =>
      have ho : r.outer = [] := by
        have := depthAfter?_of_afterMarks hr
        rw [show ({} : Reading α).outer.length = 0 from rfl, hd] at this
        exact List.length_eq_zero_iff.mp (Option.some.inj this).symm
      obtain ⟨ps, p, o⟩ := r
      obtain rfl : ps = [] := ho
      cases o <;> rfl

/-- Negations before an operand that is due. -/
theorem afterMarks_replicate_not (gs : List (Pending α)) (g : Pending α) (n : Nat) :
    (⟨gs, g, none⟩ : Reading α).afterMarks (List.replicate n (.token .not)) =
      some ⟨gs, { g with negations := g.negations + n }, none⟩ := by
  induction n generalizing g with
  | zero => rfl
  | succ n ih =>
    have hnot : (⟨gs, g, none⟩ : Reading α).mark (.token .not) = some ⟨gs, { g with negations := g.negations + 1 }, none⟩ := rfl
    rw [List.replicate_succ, afterMarks_cons, hnot, Option.bind_some, ih]
    simp [Nat.add_assoc, Nat.add_comm 1]

/-- What an operand is read as does not depend on where it stands, and it is read only where an operand is due. -/
theorem afterMarks_operand {core : List (Mark α)} (h : Mark.IsCore core) : ∃ o : Option (Formula α),
    (∀ n gs g, (⟨gs, g, none⟩ : Reading α).afterMarks (List.replicate n (.token .not) ++ core) =
      o.map fun f => ⟨gs, { g with negations := g.negations + n }, some f⟩) ∧
    ∀ n gs g f, (⟨gs, g, some f⟩ : Reading α).afterMarks (List.replicate n (.token .not) ++ core) = none := by
  obtain ⟨o, hdue, hnot⟩ := afterMarks_core h
  refine ⟨o, fun n gs g => ?_, fun n gs g f => ?_⟩
  · rw [afterMarks_append, afterMarks_replicate_not, Option.bind_some, hdue]
  · cases n with
    | zero => exact hnot gs g f
    | succ n => rfl

end Reading

end Propositional
