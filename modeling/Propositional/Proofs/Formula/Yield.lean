import Propositional.Proofs.Formula.ReadOnce

/-!
# What the reader keeps of the marks

Nothing of the marks is lost on the way to the formula that they are read as. It has their leaves, in their order
(`leaves_of_afterMarks`). Its weight is the product of theirs, whatever stands before an arrow, as a negation and a disjunction
weigh as much as an arrow does (`weight_of_afterMarks`). And what waits on the left side of a disjunction stands there in the end
(`Reading.AwaitsDisjunction.afterMarks`).
-/

namespace Propositional

variable {α : Type}

/-- A formula as a bracketing without arrows. -/
def Formula.toBracketing : Formula α → Bracketing α
  | .leaf a => .leaf a
  | .not f => .not (toBracketing f)
  | .binary c f g => .binary (.connective c) (toBracketing f) (toBracketing g)

namespace Formula

/-- A formula has the value of its bracketing. -/
theorem eval_toBracketing (f : Formula α) (val : α → Bool) : f.toBracketing.eval val = f.eval val := by
  induction f with
  | leaf a => rfl
  | not f ih => rw [toBracketing, Bracketing.eval, eval, ih]
  | binary c f g ihf ihg => rw [toBracketing, Bracketing.eval, eval, ihf, ihg, Link.apply]

/-- A formula has the leaves of its bracketing. -/
theorem leaves_toBracketing (f : Formula α) : f.toBracketing.leaves = Tree.leaves f := by
  induction f with
  | leaf a => rfl
  | not f ih => exact ih
  | binary c f g ihf ihg => rw [toBracketing, Tree.leaves, Tree.leaves, ihf, ihg]

/-- Only the values of the leaves count. -/
theorem eval_congr {f : Formula α} {val val' : α → Bool} (h : ∀ a ∈ Tree.leaves f, val a = val' a) :
    f.eval val = f.eval val' := by
  rw [← eval_toBracketing, ← eval_toBracketing]
  exact Bracketing.eval_congr (by rwa [leaves_toBracketing])

/-- The parts of a formula are parts of its bracketing. -/
theorem isPart_toBracketing {f g : Formula α} (h : Tree.IsPart f g) : f.toBracketing.IsPart g.toBracketing := by
  induction h with
  | refl => exact .refl
  | not _ ih => exact .not ih
  | left _ ih => exact .left ih
  | right _ ih => exact .right ih

/-- Negations have no leaves. -/
theorem leaves_negate (n : Nat) (f : Formula α) : Tree.leaves (f.negate n) = Tree.leaves f := by
  induction n with
  | zero => rfl
  | succ n ih => exact ih

/-- The product over the nodes of a formula that its slope comes to. -/
def weight (f : Formula α) : Int := f.toBracketing.weight

@[simp] theorem weight_leaf (a : α) : weight (.leaf a) = 1 := rfl

@[simp] theorem weight_not (f : Formula α) : weight (.not f) = -f.weight := rfl

@[simp] theorem weight_binary (c : Connective) (f g : Formula α) :
    weight (.binary c f g) = (Link.connective c).weight * f.weight * g.weight := rfl

/-- Negations change the sign of the weight, each once. -/
theorem weight_negate (n : Nat) (f : Formula α) : (f.negate n).weight = (-1) ^ n * f.weight := by
  induction n with
  | zero => simp [negate]
  | succ n ih =>
    rw [negate, weight_not, ih]
    ring

end Formula

/-- The leaf that a mark is, if it is one. -/
def Mark.leaf? : Mark α → Option α
  | .token (.leaf a) => some a
  | _ => none

/-- The slope of what a mark writes. -/
def Mark.weight : Mark α → Int
  | .token .not => -1
  | m => (m.link?.map Link.weight).getD 1

/-! ## Leaves -/

/-- The leaves of what a group waits with, from left to right. -/
def Pending.leaves (p : Pending α) : List α :=
  p.equivalence.toList.flatMap (Tree.leaves ·.2) ++ (p.disjunction.toList.flatMap Tree.leaves ++
    p.conjunction.toList.flatMap Tree.leaves)

theorem Pending.leaves_conjoin (p : Pending α) (f : Formula α) :
    Tree.leaves (p.conjoin f) = p.conjunction.toList.flatMap Tree.leaves ++ Tree.leaves f := by
  cases h : p.conjunction <;> simp [conjoin, h, unary, Formula.leaves_negate, Tree.leaves]

theorem Pending.leaves_disjoin (p : Pending α) (f : Formula α) :
    Tree.leaves (p.disjoin f) = p.disjunction.toList.flatMap Tree.leaves ++ Tree.leaves (p.conjoin f) := by
  cases h : p.disjunction <;> simp [disjoin, h, Tree.leaves]

/-- The leaves of a group are those that it waits with, and those of the operand. -/
theorem Pending.leaves_close (p : Pending α) (f : Formula α) : Tree.leaves (p.close f) = p.leaves ++ Tree.leaves f := by
  cases h : p.equivalence <;> simp [close, h, Tree.leaves, Pending.leaves, leaves_disjoin, leaves_conjoin]

namespace Reading

/-- The leaves of all that was read, from left to right. -/
def leaves (s : Reading α) : List α :=
  s.outer.reverse.flatMap Pending.leaves ++ (s.group.leaves ++ s.operand.toList.flatMap Tree.leaves)

/-- One more mark adds its leaf behind those that were read. -/
theorem leaves_mark {s s' : Reading α} {m : Mark α} (h : s.mark m = some s') : s'.leaves = s.leaves ++ m.leaf?.toList := by
  rcases s with ⟨_ | ⟨q, gs⟩, p, _ | f⟩ <;> rcases m with (_ | _ | _ | _ | _ | _ | _ | _) | _ <;> cases h <;>
    simp [leaves, Pending.leaves, Mark.leaf?, Tree.leaves, Pending.leaves_conjoin, Pending.leaves_disjoin, Pending.leaves_close]

/-- The leaves of what is read are those of the marks. -/
theorem leaves_of_afterMarks {ms : List (Mark α)} :
    ∀ {s s' : Reading α}, s.afterMarks ms = some s' → s'.leaves = s.leaves ++ ms.filterMap Mark.leaf? := by
  induction ms with
  | nil =>
    intro s s' h
    obtain rfl := Option.some.inj h
    simp
  | cons m ms ih =>
    intro s s' h
    obtain ⟨r, hr, h⟩ := Option.bind_eq_some_iff.mp h
    rw [ih h, leaves_mark hr, List.append_assoc, List.filterMap_cons]
    cases m.leaf? <;> rfl

end Reading

/-! ## Weights -/

/-- The weight of what a group waits with. -/
def Pending.weight (p : Pending α) : Int :=
  (p.equivalence.map fun q => (Link.connective q.1).weight * q.2.weight).getD 1 *
    (p.disjunction.map fun f => (Link.connective .or).weight * f.weight).getD 1 *
    (p.conjunction.map fun f => (Link.connective .and).weight * f.weight).getD 1 * (-1) ^ p.negations

namespace Pending

variable (p : Pending α) (f : Formula α)

theorem weight_conjoin : (p.conjoin f).weight =
    (p.conjunction.map fun f => (Link.connective .and).weight * f.weight).getD 1 * ((-1) ^ p.negations * f.weight) := by
  unfold conjoin unary
  cases p.conjunction with
  | none => simp [Formula.weight_negate]
  | some l => simp only [Formula.weight_binary, Formula.weight_negate, Option.map_some, Option.getD_some]

theorem weight_disjoin : (p.disjoin f).weight =
    (p.disjunction.map fun f => (Link.connective .or).weight * f.weight).getD 1 * (p.conjoin f).weight := by
  unfold disjoin
  cases p.disjunction with
  | none => exact (one_mul _).symm
  | some l => rfl

/-- The weight of a group is that of what it waits with, and of the operand. -/
theorem weight_close : (p.close f).weight = p.weight * f.weight := by
  have hd := p.weight_disjoin f
  rw [weight_conjoin] at hd
  unfold close weight
  cases p.equivalence with
  | none =>
    simp only [hd, Option.map_none, Option.getD_none]
    ring
  | some q =>
    simp only [Formula.weight_binary, hd, Option.map_some, Option.getD_some]
    ring

end Pending

namespace Reading

/-- The weight of all that was read. -/
def weight (s : Reading α) : Int :=
  (s.outer.map Pending.weight).prod * s.group.weight * (s.operand.map Formula.weight).getD 1

/-- One more mark multiplies the weight of what was read by its own. -/
theorem weight_mark {s s' : Reading α} {m : Mark α} (h : s.mark m = some s') : s'.weight = s.weight * m.weight := by
  have hor : (Link.connective .or).weight = -1 := rfl
  have hand : (Link.connective .and).weight = 1 := rfl
  have himp : Link.implies.weight = 1 := rfl
  obtain ⟨gs, p, o⟩ := s
  cases o with
  | none =>
    rcases m with (a | _ | _ | _ | _ | _ | _ | _) | _ <;> cases h
    · simp [weight, Mark.weight, Mark.link?]
    · simp only [weight, Pending.weight, Mark.weight, Option.map_none, Option.getD_none]
      ring
    · simp [weight, Pending.weight, Mark.weight, Mark.link?]
      ring
  | some f =>
    rcases m with (_ | _ | _ | _ | _ | _ | _ | _) | _ <;> first | cases h | skip
    case token.rparen =>
      cases gs with
      | nil => cases h
      | cons q gs =>
        cases h
        simp only [weight, Mark.weight, Mark.link?, List.map_cons, List.prod_cons, Pending.weight_close, Option.map_some,
          Option.map_none, Option.getD_some, Option.getD_none]
        ring
    all_goals
      simp only [weight, Pending.weight, Mark.weight, Mark.link?, Pending.weight_conjoin, Pending.weight_disjoin,
        Pending.weight_close, Option.map_some, Option.map_none, Option.getD_some, Option.getD_none, hor, hand, himp]
      ring

/-- The weight of what is read is the product over the marks. -/
theorem weight_of_afterMarks {ms : List (Mark α)} :
    ∀ {s s' : Reading α}, s.afterMarks ms = some s' → s'.weight = s.weight * (ms.map Mark.weight).prod := by
  induction ms with
  | nil =>
    intro s s' h
    obtain rfl := Option.some.inj h
    simp
  | cons m ms ih =>
    intro s s' h
    obtain ⟨r, hr, h⟩ := Option.bind_eq_some_iff.mp h
    rw [ih h, weight_mark hr, List.map_cons, List.prod_cons, mul_assoc]

end Reading

/-! ## The left side of a disjunction -/

/-- A formula has a disjunction in it whose left side is `d`. -/
def Formula.Disjoins (d f : Formula α) : Prop := ∃ r, Tree.IsPart (.binary .or d r) f

namespace Formula.Disjoins

variable {d f g : Formula α}

/-- What stands in a formula stands in its negation. -/
theorem not (h : d.Disjoins f) : d.Disjoins (.not f) := h.imp fun _ => .not

/-- What stands in the left operand stands in a formula. -/
theorem left (c : Connective) (h : d.Disjoins f) : d.Disjoins (.binary c f g) := h.imp fun _ => .left

/-- What stands in the right operand stands in a formula. -/
theorem right (c : Connective) (h : d.Disjoins g) : d.Disjoins (.binary c f g) := h.imp fun _ => .right

/-- What stands in a formula stands in it behind negations. -/
theorem negate (h : d.Disjoins f) (n : Nat) : d.Disjoins (f.negate n) := by
  induction n with
  | zero => exact h
  | succ n ih => exact ih.not

end Formula.Disjoins

/-- A group waits with a disjunction of left side `d`, or with a formula that has one in it. -/
def Pending.AwaitsDisjunction (d : Formula α) (p : Pending α) : Prop :=
  (∃ q ∈ p.equivalence, d.Disjoins q.2) ∨ p.disjunction = some d ∨ (∃ l ∈ p.disjunction, d.Disjoins l) ∨
    ∃ l ∈ p.conjunction, d.Disjoins l

namespace Pending

variable {d f : Formula α} {p : Pending α}

/-- A disjunction in the conjunction that waits or in the operand stands in the conjunction that ends with it. -/
theorem disjoins_conjoin (h : (∃ l ∈ p.conjunction, d.Disjoins l) ∨ d.Disjoins f) : d.Disjoins (p.conjoin f) := by
  unfold conjoin
  rcases h with ⟨l, hl, h⟩ | h
  · rw [Option.mem_def.mp hl]
    exact h.left .and
  · have hu : d.Disjoins (p.unary f) := h.negate _
    cases p.conjunction with
    | none => exact hu
    | some l => exact hu.right .and

/-- Only what the equivalences wait with has no part in the disjunction. -/
theorem disjoins_disjoin (h : p.AwaitsDisjunction d ∨ d.Disjoins f) :
    (∃ q ∈ p.equivalence, d.Disjoins q.2) ∨ d.Disjoins (p.disjoin f) := by
  have hright : d.Disjoins (p.conjoin f) → d.Disjoins (p.disjoin f) := by
    intro h
    unfold disjoin
    cases p.disjunction with
    | none => exact h
    | some l => exact h.right .or
  rcases h with (h | h | ⟨l, hl, h⟩ | h) | h
  · exact .inl h
  · refine .inr ⟨p.conjoin f, ?_⟩
    unfold disjoin
    rw [h]
    exact .refl
  · refine .inr ?_
    unfold disjoin
    rw [Option.mem_def.mp hl]
    exact h.left .or
  · exact .inr (hright (disjoins_conjoin (.inl h)))
  · exact .inr (hright (disjoins_conjoin (.inr h)))

/-- A disjunction that a group waits with, or in the operand, stands in the whole of the group. -/
theorem disjoins_close (h : p.AwaitsDisjunction d ∨ d.Disjoins f) : d.Disjoins (p.close f) := by
  unfold close
  rcases disjoins_disjoin h with ⟨q, hq, h⟩ | h
  · rw [Option.mem_def.mp hq]
    exact h.left q.1
  · cases p.equivalence with
    | none => exact h
    | some q => exact h.right q.1

/-- A disjunction that waits, or stands in the operand, is still there behind an `&`. -/
theorem AwaitsDisjunction.and (h : p.AwaitsDisjunction d ∨ d.Disjoins f) :
    AwaitsDisjunction d { p with conjunction := some (p.conjoin f), negations := 0 } := by
  rcases h with (h | h | h | h) | h
  · exact .inl h
  · exact .inr (.inl h)
  · exact .inr (.inr (.inl h))
  · exact .inr (.inr (.inr ⟨_, rfl, disjoins_conjoin (.inl h)⟩))
  · exact .inr (.inr (.inr ⟨_, rfl, disjoins_conjoin (.inr h)⟩))

/-- A disjunction that waits, or stands in the operand, is still there behind a `|`. -/
theorem AwaitsDisjunction.or (h : p.AwaitsDisjunction d ∨ d.Disjoins f) :
    AwaitsDisjunction d { equivalence := p.equivalence, disjunction := some (p.disjoin f) } := by
  rcases disjoins_disjoin h with h | h
  · exact .inl h
  · exact .inr (.inr (.inl ⟨_, rfl, h⟩))

end Pending

namespace Reading

/-- Somewhere in what was read a disjunction with left side `d` stands, or waits for its right side. -/
def AwaitsDisjunction (d : Formula α) (s : Reading α) : Prop :=
  (∃ p ∈ s.outer, p.AwaitsDisjunction d) ∨ s.group.AwaitsDisjunction d ∨ ∃ f ∈ s.operand, d.Disjoins f

/-- No mark takes away a disjunction that waits or stands somewhere. -/
theorem AwaitsDisjunction.mark {d : Formula α} {s s' : Reading α} (h : s.AwaitsDisjunction d) {m : Mark α}
    (hm : s.mark m = some s') : s'.AwaitsDisjunction d := by
  obtain ⟨gs, p, o⟩ := s
  cases o with
  | none =>
    have h : (∃ q ∈ gs, q.AwaitsDisjunction d) ∨ p.AwaitsDisjunction d := by
      rcases h with h | h | ⟨f, hf, -⟩
      · exact .inl h
      · exact .inr h
      · cases hf
    rcases m with (a | _ | _ | _ | _ | _ | _ | _) | _ <;> cases hm
    · exact h.imp_right .inl
    · exact h.imp_right .inl
    · refine .inl ?_
      rcases h with ⟨q, hq, h⟩ | h
      · exact ⟨q, List.mem_cons_of_mem _ hq, h⟩
      · exact ⟨p, List.mem_cons_self, h⟩
  | some f =>
    have h : (∃ q ∈ gs, q.AwaitsDisjunction d) ∨ (p.AwaitsDisjunction d ∨ d.Disjoins f) := by
      rcases h with h | h | ⟨g, hg, h⟩
      · exact .inl h
      · exact .inr (.inl h)
      · obtain rfl := Option.some.inj hg
        exact .inr (.inr h)
    cases m with
    | arrow =>
      cases hm
      exact h.imp_right fun h => .inl (Pending.AwaitsDisjunction.or (p := { p with negations := p.negations + 1 }) h)
    | token t =>
      cases t with
      | and => cases hm; exact h.imp_right fun h => .inl (Pending.AwaitsDisjunction.and h)
      | or => cases hm; exact h.imp_right fun h => .inl (Pending.AwaitsDisjunction.or h)
      | equiv n => cases hm; exact h.imp_right fun h => .inl (.inl ⟨_, rfl, Pending.disjoins_close h⟩)
      | xor n => cases hm; exact h.imp_right fun h => .inl (.inl ⟨_, rfl, Pending.disjoins_close h⟩)
      | rparen =>
        cases gs with
        | nil => cases hm
        | cons q gs =>
          cases hm
          rcases h with ⟨r, hr, hk⟩ | h
          · rcases List.mem_cons.mp hr with he | hr
            · exact .inr (.inl (he ▸ hk))
            · exact .inl ⟨r, hr, hk⟩
          · exact .inr (.inr ⟨_, rfl, Pending.disjoins_close h⟩)
      | _ => cases hm

/-- No marks take away a disjunction that waits or stands somewhere. -/
theorem AwaitsDisjunction.afterMarks {d : Formula α} {ms : List (Mark α)} :
    ∀ {s s' : Reading α}, s.AwaitsDisjunction d → s.afterMarks ms = some s' → s'.AwaitsDisjunction d := by
  induction ms with
  | nil =>
    intro s s' h hs
    obtain rfl := Option.some.inj hs
    exact h
  | cons m ms ih =>
    intro s s' h hs
    obtain ⟨r, hr, hs⟩ := Option.bind_eq_some_iff.mp hs
    exact ih (h.mark hr) hs

end Reading

end Propositional
