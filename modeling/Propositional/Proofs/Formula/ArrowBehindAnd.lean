import Propositional.Proofs.Formula.Yield

/-!
# Arrows behind a conjunction

The reader takes an arrow for a disjunction. Where the left operand of an arrow stands directly behind `&`, the conjunction ends
with this operand, and what follows the arrow is a member of a disjunction around it. No bracketing says that: in a bracketing the
`&` stands over the arrow, or else the operand is in the conjunction as it is and not negated. So with a different leaf in every
place no bracketing has the value of the formula read (`not_brackets_of_arrowBehindAnd`).
-/

namespace Propositional

variable {α : Type}

/-- The left operand of an arrow stands directly behind `&`. -/
def Mark.ArrowBehindAnd (ms : List (Mark α)) : Prop :=
  ∃ before n core after, IsCore core ∧
    ms = before ++ .token .and :: (List.replicate n (.token .not) ++ (core ++ .arrow :: after))

/-! ## What a bracketing has of its marks -/

/-- A mark in a list of two parts is in one of them. -/
theorem append_eq_append_cons {σ : Type} {xs ys before after : List σ} {m : σ} (h : xs ++ ys = before ++ m :: after) :
    (∃ rest, xs = before ++ m :: rest ∧ after = rest ++ ys) ∨ ∃ rest, before = xs ++ rest ∧ ys = rest ++ m :: after := by
  rcases List.append_eq_append_iff.mp h with ⟨rest, hb, hy⟩ | ⟨rest, hx, ha⟩
  · exact .inr ⟨rest, hb, hy⟩
  · cases rest with
    | nil => exact .inr ⟨[], by simp [hx], by simpa using ha.symm⟩
    | cons c rest =>
      obtain ⟨rfl, hr⟩ := List.cons.inj ha
      exact .inl ⟨rest, hx, hr⟩

/-- A list is cut at a member behind its first one, if that is another. -/
theorem cons_eq_append_cons {σ : Type} {x m : σ} {ys before after : List σ} (h : x :: ys = before ++ m :: after) (hne : x ≠ m) :
    ∃ rest, before = x :: rest ∧ ys = rest ++ m :: after := by
  cases before with
  | nil => exact absurd (List.cons.inj h).1 hne
  | cons b rest =>
    obtain ⟨rfl, hy⟩ := List.cons.inj h
    exact ⟨rest, rfl, hy⟩

/-- A mark that writes an operation is no leaf. -/
theorem Mark.leaf?_of_link? {m : Mark α} {k : Link} (h : m.link? = some k) : m.leaf? = none := by
  rcases m with (_ | _ | _ | _ | _ | _ | _ | _) | _ <;> first | rfl | cases h

/-- A mark that writes an operation has its weight. -/
theorem Mark.weight_of_link? {m : Mark α} {k : Link} (h : m.link? = some k) : m.weight = k.weight := by
  rcases m with (_ | _ | _ | _ | _ | _ | _ | _) | _ <;> cases h <;> rfl

namespace Brackets

variable {tight : Bool} {ms : List (Mark α)} {t : Bracketing α}

/-- A bracketing has the leaves of the marks, in their order. -/
theorem leaves (h : Brackets tight ms t) : t.leaves = ms.filterMap Mark.leaf? := by
  induction h with
  | leaf a => rfl
  | not _ _ ih => exact ih
  | group _ ih =>
    rw [ih, List.filterMap_cons, List.filterMap_append]
    exact (List.append_nil _).symm
  | binary hm _ _ iht ihu => simp [Tree.leaves, iht, ihu, Mark.leaf?_of_link? hm]

/-- The weight of a bracketing is the product of those of the marks. -/
theorem weight (h : Brackets tight ms t) : t.weight = (ms.map Mark.weight).prod := by
  induction h with
  | leaf a => rfl
  | not _ _ ih => simp [Bracketing.weight, ih, Mark.weight]
  | group _ ih => simp [ih, Mark.weight, Mark.link?]
  | @binary ms ns t u m k hm _ _ iht ihu =>
    rw [Bracketing.weight, iht, ihu, List.map_append, List.map_cons, List.prod_append, List.prod_cons, Mark.weight_of_link? hm]
    ring

/-- Marks that are bracketed have a leaf among them. -/
theorem filterMap_leaf?_ne_nil (h : Brackets tight ms t) : ms.filterMap Mark.leaf? ≠ [] := by
  rw [← h.leaves]
  exact t.leaves_ne_nil

/-- The operation that a mark writes stands in the tree, and its operands bracket what stands next to the mark. The mark looked
for is one with an operation, so it is none of those that go with a bracketing without one. -/
theorem exists_isPart (h : Brackets tight ms t) : ∀ {before after : List (Mark α)} {m : Mark α} {k : Link},
    ms = before ++ m :: after → m.link? = some k → ∃ before' ls rs after' l r, before = before' ++ ls ∧ after = rs ++ after' ∧
      Brackets tight ls l ∧ Brackets tight rs r ∧ (Tree.binary k l r).IsPart t := by
  have hother : ∀ {x m : Mark α} {k : Link}, x.link? = none → m.link? = some k → x ≠ m := by
    rintro x _ k hx hm rfl
    rw [hx] at hm
    cases hm
  induction h with
  | leaf a =>
    intro before after m k he hm
    obtain ⟨rest, -, hr⟩ := cons_eq_append_cons he (hother rfl hm)
    simp at hr
  | not _ _ ih =>
    intro before after m k he hm
    obtain ⟨rest, rfl, hr⟩ := cons_eq_append_cons he (hother rfl hm)
    obtain ⟨before', ls, rs, after', l, r, rfl, ha, hl, hr, hp⟩ := ih hr hm
    exact ⟨_ :: before', ls, rs, after', l, r, rfl, ha, hl, hr, .not hp⟩
  | group _ ih =>
    intro before after m k he hm
    obtain ⟨rest, rfl, hr⟩ := cons_eq_append_cons he (hother rfl hm)
    rcases append_eq_append_cons hr with ⟨rest', hms, rfl⟩ | ⟨rest', -, hr⟩
    · obtain ⟨before', ls, rs, after', l, r, rfl, rfl, hl, hr, hp⟩ := ih hms hm
      exact ⟨_ :: before', ls, rs, after' ++ [.token .rparen], l, r, rfl, by simp, hl, hr, hp⟩
    · obtain ⟨_, -, hr⟩ := cons_eq_append_cons hr (hother rfl hm)
      simp at hr
  | @binary ms ns t u m' k' hm' ht hu iht ihu =>
    intro before after m k he hm
    rcases append_eq_append_cons he with ⟨rest, hms, rfl⟩ | ⟨rest, rfl, hr⟩
    · obtain ⟨before', ls, rs, after', l, r, hb, rfl, hl, hr, hp⟩ := iht hms hm
      exact ⟨before', ls, rs, after' ++ m' :: ns, l, r, hb, by simp, hl, hr, .left hp⟩
    · cases rest with
      | nil =>
        obtain ⟨rfl, rfl⟩ := List.cons.inj hr
        obtain rfl := Option.some.inj (hm'.symm.trans hm)
        exact ⟨[], ms, ns, [], t, u, by simp, by simp, ht, hu, .refl⟩
      | cons c rest =>
        obtain ⟨rfl, hns⟩ := List.cons.inj hr
        obtain ⟨before', ls, rs, after', l, r, rfl, ha, hl, hr, hp⟩ := ihu hns hm
        exact ⟨ms ++ m' :: before', ls, rs, after', l, r, by simp, ha, hl, hr, .right hp⟩

/-- What is bracketed starts with an operand. -/
theorem exists_operand (h : Brackets tight ms t) :
    ∃ n core rest, ms = List.replicate n (.token .not) ++ (core ++ rest) ∧ Mark.IsCore core := by
  induction h with
  | leaf a => exact ⟨0, [.token (.leaf a)], [], rfl, .inl ⟨a, rfl⟩⟩
  | not _ _ ih =>
    obtain ⟨n, core, rest, rfl, hc⟩ := ih
    exact ⟨n + 1, core, rest, rfl, hc⟩
  | @group ms t hb _ => exact ⟨0, _, [], by simp, .inr ⟨ms, rfl, hb.depthAfter? 0⟩⟩
  | @binary ms ns t u m k _ _ _ iht _ =>
    obtain ⟨n, core, rest, rfl, hc⟩ := iht
    exact ⟨n, core, rest ++ m :: ns, by simp, hc⟩

end Brackets

/-- The marks of a group up to the `)` that closes it are the same, wherever the list is cut. What goes on behind a `)` that
closes nothing has no depth. -/
theorem eq_of_closed {ms ns rest rest' : List (Mark α)} (hm : depthAfter? Mark.paren? 0 ms = some 0)
    (hn : depthAfter? Mark.paren? 0 ns = some 0) (h : ms ++ .token .rparen :: rest = ns ++ .token .rparen :: rest') :
    ms = ns := by
  have hclosed : ∀ {ms ks : List (Mark α)}, depthAfter? Mark.paren? 0 ms = some 0 →
      depthAfter? Mark.paren? 0 (ms ++ .token .rparen :: ks) = none := by
    intro ms ks hms
    rw [depthAfter?_append, hms]
    rfl
  rcases append_eq_append_cons h with ⟨ks, hms, -⟩ | ⟨ks, hns, hr⟩
  · rw [hms, hclosed hn] at hm
    cases hm
  · cases ks with
    | nil => simpa using hns.symm
    | cons k ks =>
      obtain ⟨rfl, -⟩ := List.cons.inj hr
      rw [hns, hclosed hm] at hn
      cases hn

/-- The operand that a list starts with is unique. No core starts with a negation, so the negations before it are as many as there
are. -/
theorem Mark.IsCore.operand_unique {core core' rest rest' : List (Mark α)} (hc : IsCore core) (hc' : IsCore core') :
    ∀ {n n' : Nat}, List.replicate n (.token .not) ++ (core ++ rest) = List.replicate n' (.token .not) ++ (core' ++ rest') →
      n = n' ∧ core = core' := by
  have hnot : ∀ {core rest ks : List (Mark α)}, IsCore core → core ++ rest ≠ .token .not :: ks := by
    rintro core rest ks (⟨a, rfl⟩ | ⟨ms, rfl, -⟩) h <;> cases h
  intro n
  induction n with
  | zero =>
    intro n' h
    cases n' with
    | succ n' => exact absurd (show core ++ rest = _ from h) (hnot hc)
    | zero =>
      refine ⟨rfl, ?_⟩
      simp only [List.replicate_zero, List.nil_append] at h
      rcases hc with ⟨a, rfl⟩ | ⟨ms, rfl, hms⟩ <;> rcases hc' with ⟨a', rfl⟩ | ⟨ns, rfl, hns⟩
      · rw [(List.cons.inj h).1]
      · cases h
      · cases h
      · have he : ms ++ .token .rparen :: rest = ns ++ .token .rparen :: rest' := by simpa using h
        rw [eq_of_closed hms hns he]
  | succ n ih =>
    intro n' h
    cases n' with
    | zero => exact absurd (show core' ++ rest' = _ from h.symm) (hnot hc')
    | succ n' =>
      obtain ⟨rfl, rfl⟩ := ih (List.cons.inj h).2
      exact ⟨rfl, rfl⟩

/-! ## What the reader makes of the marks -/

namespace Reading

variable {ms : List (Mark α)} {s : Reading α} {f : Formula α}

/-- The formula read from marks has their leaves, in their order. -/
theorem leaves_formula? (hs : ({} : Reading α).afterMarks ms = some s) (hf : s.formula? = some f) :
    Tree.leaves f = ms.filterMap Mark.leaf? := by
  have h := leaves_of_afterMarks hs
  obtain ⟨g, c, rfl, rfl⟩ := formula?_eq_some.mp hf
  rw [Pending.leaves_close]
  simpa [leaves, Pending.leaves] using h

/-- The weight of the formula read from marks is the product of theirs. -/
theorem weight_formula? (hs : ({} : Reading α).afterMarks ms = some s) (hf : s.formula? = some f) :
    f.weight = (ms.map Mark.weight).prod := by
  have h := weight_of_afterMarks hs
  obtain ⟨g, c, rfl, rfl⟩ := formula?_eq_some.mp hf
  rw [Pending.weight_close]
  simpa [weight, Pending.weight] using h

/-- An arrow behind a conjunction: what is read is a disjunction in some place, and its left side ends with the conjunction whose
last member is the negated operand. Read by itself, the operand is the formula that is negated. -/
theorem exists_isPart_of_arrowBehindAnd {before core after : List (Mark α)} {n : Nat} (hcore : Mark.IsCore core)
    (hs : ({} : Reading α).afterMarks
      (before ++ .token .and :: (List.replicate n (.token .not) ++ (core ++ .arrow :: after))) = some s)
    (hf : s.formula? = some f) :
    ∃ c g d r : Formula α, (d = .binary .and c (.not g) ∨ ∃ l, d = .binary .or l (.binary .and c (.not g))) ∧
      Tree.IsPart (.binary .or d r) f ∧
      Tree.leaves g = (List.replicate n (.token .not) ++ core : List (Mark α)).filterMap Mark.leaf? ∧
      g.weight = ((List.replicate n (.token .not) ++ core : List (Mark α)).map Mark.weight).prod := by
  rw [← List.append_assoc, afterMarks_append] at hs
  obtain ⟨⟨gs, p, o⟩, -, hread⟩ := Option.bind_eq_some_iff.mp hs
  rw [afterMarks_cons] at hread
  obtain ⟨s₁, hand, hread⟩ := Option.bind_eq_some_iff.mp hread
  rw [afterMarks_append] at hread
  obtain ⟨s₂, hop, hread⟩ := Option.bind_eq_some_iff.mp hread
  obtain ⟨s₃, harrow, hread⟩ := Option.bind_eq_some_iff.mp hread
  cases o with
  | none => cases hand
  | some x =>
    obtain rfl := Option.some.inj hand
    obtain ⟨o, hdue, -⟩ := afterMarks_operand hcore
    rw [hdue] at hop
    cases o with
    | none => cases hop
    | some y =>
      obtain rfl := Option.some.inj hop
      obtain rfl := Option.some.inj harrow
      have hself := hdue n [] {}
      have hform : (⟨[], { negations := 0 + n }, some y⟩ : Reading α).formula? = some (y.negate (0 + n)) := rfl
      obtain ⟨g, c, rfl, rfl⟩ := formula?_eq_some.mp hf
      have hkeeps := AwaitsDisjunction.afterMarks (.inr (.inl (.inr (.inl rfl)))) hread
      obtain ⟨r, hpart⟩ : Formula.Disjoins _ (g.close c) := by
        rcases hkeeps with ⟨q, hq, -⟩ | h | ⟨l, hl, h⟩
        · cases hq
        · exact Pending.disjoins_close (.inl h)
        · obtain rfl := Option.some.inj hl
          exact Pending.disjoins_close (.inr h)
      refine ⟨p.conjoin x, y.negate (0 + n), _, r, ?_, hpart, leaves_formula? hself hform, weight_formula? hself hform⟩
      unfold Pending.disjoin
      cases p.disjunction with
      | none => exact .inl rfl
      | some l => exact .inr ⟨l, rfl⟩

end Reading

/-! ## Two shapes of truth functions -/

/-- A function that takes two values takes each. -/
theorem exists_eq_of_ne {f : Bool → Bool} (h : f true ≠ f false) (b : Bool) : ∃ x, f x = b := by
  by_cases ht : f true = b
  · exact ⟨true, ht⟩
  · refine ⟨false, ?_⟩
    cases b <;> cases hf : f false <;> simp_all

/-- A function of one Boolean that takes two values takes both. -/
theorem ne_of_apply_ne_apply {f : Bool → Bool} {a b : Bool} (h : f a ≠ f b) : f true ≠ f false := by
  intro hf
  cases a <;> cases b <;> simp_all

section Shapes

variable {φ τ c e l : Bool → Bool}

/-- A conjunction that stands under a disjunction, and one that stands over everything: if every operand counts, they differ. With
a second member of the first conjunction that is false the last operand still counts, so `l` would be true throughout. -/
theorem not_conjunction_of_disjunction {g : Bool → Bool} {r : Bool → Bool → Bool}
    (h : ∀ x y z, φ ((c x && g y) || e z) = τ (l x && r y z))
    (hx : ∃ x x' y z, φ ((c x && g y) || e z) ≠ φ ((c x' && g y) || e z))
    (hy : ∃ x y y' z, φ ((c x && g y) || e z) ≠ φ ((c x && g y') || e z))
    (hz : ∃ x y z z', φ ((c x && g y) || e z) ≠ φ ((c x && g y) || e z')) : False := by
  have hc : c true ≠ c false := by
    obtain ⟨x, x', y, z, hne⟩ := hx
    exact ne_of_apply_ne_apply fun he => hne (by rw [he])
  have hg : g true ≠ g false := by
    obtain ⟨x, y, y', z, hne⟩ := hy
    exact ne_of_apply_ne_apply fun he => hne (by rw [he])
  have he : e true ≠ e false := by
    obtain ⟨x, y, z, z', hne⟩ := hz
    exact ne_of_apply_ne_apply fun he => hne (by rw [he])
  have hφ : φ true ≠ φ false := by
    obtain ⟨x, x', y, z, hne⟩ := hx
    exact ne_of_apply_ne_apply hne
  obtain ⟨x₀, hx₀⟩ := exists_eq_of_ne hc false
  obtain ⟨x₁, hx₁⟩ := exists_eq_of_ne hc true
  obtain ⟨y₀, hy₀⟩ := exists_eq_of_ne hg false
  obtain ⟨y₁, hy₁⟩ := exists_eq_of_ne hg true
  obtain ⟨z₀, hz₀⟩ := exists_eq_of_ne he false
  obtain ⟨z₁, hz₁⟩ := exists_eq_of_ne he true
  have hl : ∀ x, l x = true := by
    intro x
    by_contra hl
    have hl : l x = false := by simpa using hl
    have h0 := h x y₀ z₀
    have h1 := h x y₀ z₁
    simp only [hy₀, hz₀, hz₁, hl, Bool.and_false, Bool.false_and, Bool.or_false, Bool.or_true] at h0 h1
    exact hφ (h1.trans h0.symm)
  have h0 := h x₀ y₁ z₀
  have h1 := h x₁ y₁ z₀
  simp only [hx₀, hx₁, hy₁, hz₀, hl, Bool.and_true, Bool.true_and, Bool.or_false] at h0 h1
  exact hφ (h1.trans h0.symm)

/-- If a conjunction under one function is another conjunction under another function, and both operands of the first one count,
the second operands are the same. If the first operand of the other conjunction were the same throughout, the second operand
would not count where the first one is true. -/
theorem second_eq_of_conjunctions {W : Type} {g r : W → Bool} (h : ∀ x w, φ (c x && g w) = τ (l x && r w))
    (hx : ∃ x x' w, φ (c x && g w) ≠ φ (c x' && g w)) (hw : ∃ x w w', φ (c x && g w) ≠ φ (c x && g w')) (w : W) : r w = g w := by
  have hc : c true ≠ c false := by
    obtain ⟨x, x', w, hne⟩ := hx
    exact ne_of_apply_ne_apply fun he => hne (by rw [he])
  have hφ : φ true ≠ φ false := by
    obtain ⟨x, x', w, hne⟩ := hx
    exact ne_of_apply_ne_apply hne
  obtain ⟨x₀, hx₀⟩ := exists_eq_of_ne hc false
  obtain ⟨x₁, hx₁⟩ := exists_eq_of_ne hc true
  have h0 : ∀ w, φ false = τ (l x₀ && r w) := fun w => by rw [← h, hx₀, Bool.false_and]
  have h1 : ∀ w, φ (g w) = τ (l x₁ && r w) := fun w => by rw [← h, hx₁, Bool.true_and]
  obtain ⟨x, w₀, w₁, hne⟩ := hw
  have hg : g w₀ ≠ g w₁ := fun he => hne (by rw [he])
  have hφg : φ (g w₀) ≠ φ (g w₁) := fun he => by cases h₀ : g w₀ <;> cases h₁ : g w₁ <;> simp_all
  cases hl₁ : l x₁ with
  | false =>
    simp only [hl₁, Bool.false_and] at h1
    exact absurd ((h1 w₀).trans (h1 w₁).symm) hφg
  | true =>
    simp only [hl₁, Bool.true_and] at h1
    cases hl₀ : l x₀ with
    | true =>
      simp only [hl₀, Bool.true_and] at h0
      have hconst : ∀ w, φ (g w) = φ false := fun w => by rw [h1, h0]
      exact absurd ((hconst w₀).trans (hconst w₁).symm) hφg
    | false =>
      simp only [hl₀, Bool.false_and] at h0
      have hτ : τ true ≠ τ false := by
        rw [h1, h1] at hφg
        exact ne_of_apply_ne_apply hφg
      have hw := h1 w
      have hfalse := h0 w
      cases hr : r w <;> cases hg : g w <;> simp_all

end Shapes

/-! ## The formula read and the bracketings -/

/-- A disjunction in a formula, the left side of which ends with a conjunction: what stands around these three operands does not
look at their leaves, which follow each other. The other members of the disjunction have leaves of their own. -/
theorem Formula.exists_context {f c g d r : Formula α} (hd : (Tree.leaves f).Nodup) (hpart : Tree.IsPart (.binary .or d r) f)
    (hor : d = .binary .and c (.not g) ∨ ∃ l, d = .binary .or l (.binary .and c (.not g))) :
    ∃ φ : (α → Bool) → Bool → Bool, (∀ val, f.eval val = φ val ((c.eval val && !g.eval val) || r.eval val)) ∧
      Ignores (Tree.leaves c ++ (Tree.leaves g ++ Tree.leaves r)) φ ∧
      ∃ before after, Tree.leaves f = before ++ (Tree.leaves c ++ (Tree.leaves g ++ (Tree.leaves r ++ after))) := by
  obtain ⟨before, after, hl⟩ := hpart.isInfix
  obtain ⟨φ, heval, hi⟩ := Bracketing.exists_context (isPart_toBracketing hpart) (by rwa [leaves_toBracketing])
  simp only [eval_toBracketing, leaves_toBracketing] at heval hi
  rcases hor with rfl | ⟨l, rfl⟩
  · refine ⟨φ, heval, ?_, before, after, ?_⟩
    · simpa [Tree.leaves] using hi
    · simpa [Tree.leaves] using hl.symm
  · simp only [Tree.leaves, List.append_assoc] at hi hl
    refine ⟨fun val b => φ val (eval val l || b), fun val => ?_, fun val val' heq => ?_, before ++ Tree.leaves l, after, ?_⟩
    · rw [heval]
      simp [eval, Connective.apply, Bool.or_assoc]
    · have hdis : ∀ a ∈ Tree.leaves l, a ∉ Tree.leaves c ++ (Tree.leaves g ++ Tree.leaves r) := by
        rw [← hl] at hd
        obtain ⟨-, hd, -⟩ := List.nodup_append'.mp hd
        obtain ⟨-, -, hdis⟩ := List.nodup_append'.mp hd
        intro a ha hm
        refine hdis ha ?_
        rw [← List.append_assoc, ← List.append_assoc, List.append_assoc (Tree.leaves c)]
        exact List.mem_append_left _ hm
      have hφ : φ val = φ val' := hi val val' fun a ha => heq a fun hm => ha (List.mem_append_right _ hm)
      have hleft : eval val l = eval val' l := eval_congr fun a ha => heq a (hdis a ha)
      simp only [hφ, hleft]
    · rw [← hl]
      simp

section Conflict

variable [DecidableEq α]

/-- Values for some leaves, all others being fixed. -/
def override (ls : List α) (val base : α → Bool) (v : α) : Bool := if v ∈ ls then val v else base v

/-- A leaf that is overridden has its new value. -/
theorem override_of_mem {ls : List α} {val base : α → Bool} {v : α} (h : v ∈ ls) : override ls val base v = val v := if_pos h

/-- A leaf that is not overridden has its fixed value. -/
theorem override_of_notMem {ls : List α} {val base : α → Bool} {v : α} (h : v ∉ ls) : override ls val base v = base v := if_neg h

/-- Values that differ from the fixed ones for some leaves only override them there. -/
theorem eq_override {ls : List α} {val base : α → Bool} (h : ∀ v, v ∉ ls → val v = base v) : val = override ls val base := by
  funext v
  by_cases hv : v ∈ ls
  · rw [override_of_mem hv]
  · rw [override_of_notMem hv, h v hv]

/-- What has only one of the free leaves depends on the value of this one alone. -/
theorem override_eq_of_single {ls ks : List α} {a : α} (val base : α → Bool) (h : ∀ v ∈ ks, v ∈ ls → v = a) :
    ∀ v ∈ ks, override ls val base v = override ls (fun _ => val a) base v := by
  intro v hk
  by_cases hv : v ∈ ls
  · rw [override_of_mem hv, override_of_mem hv, h v hk hv]
  · rw [override_of_notMem hv, override_of_notMem hv]

/-- A formula and a bracketing that have the same value, and one conjunction in each: of `c` and the negation of `g` under a
disjunction with `r` in the formula, of `u` and `w` in the bracketing, with the leaf `a` in both first operands. What stands
around does not look at the leaves of these operands. -/
structure Rivals (f c g r : Formula α) (t u w : Bracketing α) (φ τ : (α → Bool) → Bool → Bool) (a : α) : Prop where
  eval_eq : ∀ val, t.eval val = f.eval val
  eval_formula : ∀ val, f.eval val = φ val ((c.eval val && !g.eval val) || r.eval val)
  eval_bracketing : ∀ val, t.eval val = τ val (u.eval val && w.eval val)
  ignores_formula : Ignores (Tree.leaves c ++ (Tree.leaves g ++ Tree.leaves r)) φ
  ignores_bracketing : Ignores (u.leaves ++ w.leaves) τ
  nodup : (Tree.leaves f).Nodup
  nodup_operands : (Tree.leaves c ++ (Tree.leaves g ++ Tree.leaves r)).Nodup
  subset : Tree.leaves c ++ (Tree.leaves g ++ Tree.leaves r) ⊆ Tree.leaves f
  disjoint : u.leaves.Disjoint w.leaves
  mem_formula : a ∈ Tree.leaves c
  mem_bracketing : a ∈ u.leaves

namespace Rivals

variable {f c g r : Formula α} {t u w : Bracketing α} {φ τ : (α → Bool) → Bool → Bool} {a : α}

/-- Some leaves of the first conjunction and of what follows can be made free, and each of them counts. -/
theorem exists_sensitive (h : Rivals f c g r t u w φ τ a) {ls : List α} (hls : ls.Nodup)
    (hs : ls ⊆ Tree.leaves c ++ (Tree.leaves g ++ Tree.leaves r)) : ∃ base : α → Bool, ∀ v ∈ ls, ∃ val val' : α → Bool,
      (∀ v', v' ≠ v → val v' = val' v') ∧ f.eval (override ls val base) ≠ f.eval (override ls val' base) := by
  obtain ⟨base, hbase⟩ := Bracketing.exists_sensitive (t := f.toBracketing) (by rw [Formula.leaves_toBracketing]; exact h.nodup)
    hls (by rw [Formula.leaves_toBracketing]; exact fun v hv => h.subset (hs hv))
  refine ⟨base, fun v hv => ?_⟩
  obtain ⟨val, val', hval, hoff, hne⟩ := hbase v hv
  have hval' : ∀ v', v' ∉ ls → val' v' = base v' := fun v' hm => by rw [← hval v' hm, hoff v' fun he => hm (he ▸ hv)]
  rw [Formula.eval_toBracketing, Formula.eval_toBracketing, eq_override hval, eq_override hval'] at hne
  exact ⟨val, val', hoff, hne⟩

omit [DecidableEq α] in
/-- The three operands in the formula have no leaf in common. -/
theorem disjoint_operands (h : Rivals f c g r t u w φ τ a) : (Tree.leaves c).Disjoint (Tree.leaves g) ∧
    (Tree.leaves c).Disjoint (Tree.leaves r) ∧ (Tree.leaves g).Disjoint (Tree.leaves r) := by
  obtain ⟨-, hgr, hcdis⟩ := List.nodup_append'.mp h.nodup_operands
  obtain ⟨-, -, hgdis⟩ := List.nodup_append'.mp hgr
  exact ⟨fun _ hc hg => hcdis hc (List.mem_append_left _ hg), fun _ hc hr => hcdis hc (List.mem_append_right _ hr), hgdis⟩

/-- What stands around the operands in the formula is fixed while only leaves of theirs are free. -/
theorem eval_formula_override (h : Rivals f c g r t u w φ τ a) {ls : List α}
    (hls : ls ⊆ Tree.leaves c ++ (Tree.leaves g ++ Tree.leaves r)) (val base : α → Bool) :
    f.eval (override ls val base) = φ base
      ((c.eval (override ls val base) && !g.eval (override ls val base)) || r.eval (override ls val base)) := by
  have hφ : φ (override ls val base) = φ base := h.ignores_formula _ _ fun v hv => override_of_notMem fun hm => hv (hls hm)
  rw [h.eval_formula, hφ]

/-- What stands around the operands in the bracketing is fixed while only leaves of theirs are free. -/
theorem eval_bracketing_override (h : Rivals f c g r t u w φ τ a) {ls : List α} (hls : ls ⊆ u.leaves ++ w.leaves)
    (val base : α → Bool) :
    f.eval (override ls val base) = τ base (u.eval (override ls val base) && w.eval (override ls val base)) := by
  have hτ : τ (override ls val base) = τ base := h.ignores_bracketing _ _ fun v hv => override_of_notMem fun hm => hv (hls hm)
  rw [← h.eval_eq, h.eval_bracketing, hτ]

/-- The second operand of the conjunction in the bracketing cannot have leaves of both the operands that follow in the formula.
Every operand has one of three leaves, but for `w`, which would have two of them. -/
theorem not_mem (h : Rivals f c g r t u w φ τ a) {b e : α} (hbg : b ∈ Tree.leaves g) (hbw : b ∈ w.leaves)
    (her : e ∈ Tree.leaves r) : e ∉ w.leaves := by
  intro hew
  obtain ⟨hcg, hcr, hgr⟩ := h.disjoint_operands
  have hac := h.mem_formula
  have hau := h.mem_bracketing
  have hbc : b ∉ Tree.leaves c := fun hm => hcg hm hbg
  have hec : e ∉ Tree.leaves c := fun hm => hcr hm her
  have hag : a ∉ Tree.leaves g := fun hm => hcg hac hm
  have heg : e ∉ Tree.leaves g := fun hm => hgr hm her
  have har : a ∉ Tree.leaves r := fun hm => hcr hac hm
  have hbr : b ∉ Tree.leaves r := fun hm => hgr hbg hm
  have hbu : b ∉ u.leaves := fun hm => h.disjoint hm hbw
  have heu : e ∉ u.leaves := fun hm => h.disjoint hm hew
  have haw : a ∉ w.leaves := fun hm => h.disjoint hau hm
  have hab : a ≠ b := fun he => hbc (he ▸ hac)
  have hae : a ≠ e := fun he => hec (he ▸ hac)
  have hbe : b ≠ e := fun he => heg (he ▸ hbg)
  have hcs : ∀ v ∈ Tree.leaves c, v ∈ [a, b, e] → v = a := by grind
  have hgs : ∀ v ∈ Tree.leaves g, v ∈ [a, b, e] → v = b := by grind
  have hrs : ∀ v ∈ Tree.leaves r, v ∈ [a, b, e] → v = e := by grind
  have hus : ∀ v ∈ u.leaves, v ∈ [a, b, e] → v = a := by grind
  have hsub : [a, b, e] ⊆ Tree.leaves c ++ (Tree.leaves g ++ Tree.leaves r) := by simp [hac, hbg, her]
  have hsub' : [a, b, e] ⊆ u.leaves ++ w.leaves := by simp [hau, hbw, hew]
  have hnodup : [a, b, e].Nodup := by simp [hab, hae, hbe]
  obtain ⟨base, hbase⟩ := h.exists_sensitive hnodup hsub
  have hvalue : ∀ val, f.eval (override [a, b, e] val base) = φ base ((c.eval (override [a, b, e] (fun _ => val a) base) &&
      !g.eval (override [a, b, e] (fun _ => val b) base)) || r.eval (override [a, b, e] (fun _ => val e) base)) := by
    intro val
    rw [h.eval_formula_override hsub, Formula.eval_congr (override_eq_of_single val base hcs),
      Formula.eval_congr (override_eq_of_single val base hgs), Formula.eval_congr (override_eq_of_single val base hrs)]
  have hsame : ∀ x y z, φ base ((c.eval (override [a, b, e] (fun _ => x) base) &&
      !g.eval (override [a, b, e] (fun _ => y) base)) || r.eval (override [a, b, e] (fun _ => z) base)) =
      τ base (u.eval (override [a, b, e] (fun _ => x) base) &&
        w.eval (override [a, b, e] (fun v => if v = b then y else z) base)) := by
    intro x y z
    obtain ⟨val, hval⟩ : ∃ val : α → Bool, val = fun v => if v = a then x else if v = b then y else z := ⟨_, rfl⟩
    have hva : val a = x := by simp [hval]
    have hvb : val b = y := by simp [hval, hab.symm]
    have hve : val e = z := by simp [hval, hae.symm, hbe.symm]
    have hw : w.eval (override [a, b, e] val base) = w.eval (override [a, b, e] (fun v => if v = b then y else z) base) := by
      refine Bracketing.eval_congr fun v hv => ?_
      have hva : v ≠ a := fun he => haw (he ▸ hv)
      simp [override, hval, hva]
    rw [← hva, ← hvb, ← hve, ← hvalue, h.eval_bracketing_override hsub', hw, hvb, hve,
      Bracketing.eval_congr (override_eq_of_single val base hus)]
  simp only [hvalue] at hbase
  obtain ⟨val₁, val₁', hoff₁, hx⟩ := hbase a (by simp)
  obtain ⟨val₂, val₂', hoff₂, hy⟩ := hbase b (by simp)
  obtain ⟨val₃, val₃', hoff₃, hz⟩ := hbase e (by simp)
  rw [hoff₁ b hab.symm, hoff₁ e hae.symm] at hx
  rw [hoff₂ a hab, hoff₂ e hbe.symm] at hy
  rw [hoff₃ a hae, hoff₃ b hbe] at hz
  exact not_conjunction_of_disjunction hsame ⟨_, _, _, _, hx⟩ ⟨_, _, _, _, hy⟩ ⟨_, _, _, _, hz⟩

/-- If the second operands have the same leaves, they have opposite values. The disjunction with `r`, whose leaves are fixed, is
part of what stands around. -/
theorem eval_eq_not (h : Rivals f c g r t u w φ τ a) (hl : w.leaves = Tree.leaves g) (val : α → Bool) :
    w.eval val = !g.eval val := by
  obtain ⟨hcg, hcr, hgr⟩ := h.disjoint_operands
  have hgd : (Tree.leaves g).Nodup := (List.nodup_append'.mp (List.nodup_append'.mp h.nodup_operands).2.1).1
  have hug : ∀ v ∈ u.leaves, v ∉ Tree.leaves g := fun v hv hm => h.disjoint hv (hl ▸ hm)
  have hag : a ∉ Tree.leaves g := fun hm => hcg h.mem_formula hm
  have har : a ∉ Tree.leaves r := fun hm => hcr h.mem_formula hm
  have hsub : a :: Tree.leaves g ⊆ Tree.leaves c ++ (Tree.leaves g ++ Tree.leaves r) :=
    List.cons_subset.mpr ⟨List.mem_append_left _ h.mem_formula, fun v hv => List.mem_append_right _ (List.mem_append_left _ hv)⟩
  obtain ⟨base, hbase⟩ := h.exists_sensitive (List.nodup_cons.mpr ⟨hag, hgd⟩) hsub
  obtain ⟨ls, hls⟩ : ∃ ls, ls = a :: Tree.leaves g := ⟨_, rfl⟩
  rw [← hls] at hbase hsub
  have hmem : ∀ v, v ∈ ls ↔ v = a ∨ v ∈ Tree.leaves g := by simp [hls]
  have hsub' : ls ⊆ u.leaves ++ w.leaves := by
    intro v hm
    rw [hl]
    rcases (hmem v).mp hm with rfl | hm
    · exact List.mem_append_left _ h.mem_bracketing
    · exact List.mem_append_right _ hm
  have hcs : ∀ v ∈ Tree.leaves c, v ∈ ls → v = a := fun v hv hm => ((hmem v).mp hm).resolve_right (hcg hv)
  have hus : ∀ v ∈ u.leaves, v ∈ ls → v = a := fun v hv hm => ((hmem v).mp hm).resolve_right (hug v hv)
  obtain ⟨ψ, hψ⟩ : ∃ ψ : Bool → Bool, ψ = fun b => φ base (b || r.eval base) := ⟨_, rfl⟩
  have hvalue : ∀ val, f.eval (override ls val base) =
      ψ (c.eval (override ls (fun _ => val a) base) && !g.eval val) := by
    intro val
    have hg : g.eval (override ls val base) = g.eval val := Formula.eval_congr fun v hv => override_of_mem (by simp [hmem, hv])
    have hr : r.eval (override ls val base) = r.eval base := by
      refine Formula.eval_congr fun v hv => override_of_notMem fun hm => ?_
      rcases (hmem v).mp hm with rfl | hm
      · exact har hv
      · exact hgr hm hv
    rw [h.eval_formula_override hsub, hg, hr, Formula.eval_congr (override_eq_of_single val base hcs), hψ]
  have hsame : ∀ x val, ψ (c.eval (override ls (fun _ => x) base) && !g.eval val) =
      τ base (u.eval (override ls (fun _ => x) base) && w.eval val) := by
    intro x val
    have hself : (Function.update val a x) a = x := Function.update_self _ _ _
    have hother : ∀ v ∈ Tree.leaves g, Function.update val a x v = val v := by
      intro v hv
      have hva : v ≠ a := fun he => hag (he ▸ hv)
      exact Function.update_of_ne hva _ _
    have hw : w.eval (override ls (Function.update val a x) base) = w.eval val := by
      refine Bracketing.eval_congr fun v hv => ?_
      rw [hl] at hv
      rw [override_of_mem (by simp [hmem, hv]), hother v hv]
    have h' := hvalue (Function.update val a x)
    rw [hself, Formula.eval_congr hother] at h'
    rw [← h', h.eval_bracketing_override hsub', hw, Bracketing.eval_congr (override_eq_of_single _ base hus), hself]
  simp only [hvalue] at hbase
  obtain ⟨b, hb⟩ := List.exists_mem_of_ne_nil _ (Tree.leaves_ne_nil g)
  obtain ⟨val₁, val₁', hoff₁, hx⟩ := hbase a (by simp [hmem])
  obtain ⟨val₂, val₂', hoff₂, hw⟩ := hbase b (by simp [hmem, hb])
  have hg₁ : g.eval val₁ = g.eval val₁' := Formula.eval_congr fun v hv => hoff₁ v fun he => hag (he ▸ hv)
  rw [hg₁] at hx
  rw [hoff₂ a fun he => hag (he ▸ hb)] at hw
  exact second_eq_of_conjunctions hsame ⟨_, _, _, hx⟩ ⟨_, _, _, hw⟩ val

end Rivals

end Conflict

/-- Where a block of distinct elements stands in a list of distinct elements, what is before it and behind it is unique. -/
theorem append_inj_of_nodup {xs ys block xs' ys' : List α} (hne : block ≠ []) (hd : (xs' ++ (block ++ ys')).Nodup)
    (h : xs ++ (block ++ ys) = xs' ++ (block ++ ys')) : xs = xs' ∧ ys = ys' := by
  cases block with
  | nil => exact absurd rfl hne
  | cons b bs =>
    obtain ⟨hb, -⟩ := List.nodup_cons.mp (List.nodup_middle.mp hd)
    rw [List.mem_append, not_or] at hb
    obtain ⟨hx, -, hy⟩ := (List.append_cons_inj_of_notMem hb.1 hb.2).mp h.symm
    exact ⟨hx.symm, (List.append_cancel_left hy).symm⟩

/-- Two lists that end in the same place have the same last element. -/
theorem exists_mem_of_append_eq {xs ys xs' ys' : List α} (hy : ys ≠ []) (hy' : ys' ≠ []) (h : xs ++ ys = xs' ++ ys') :
    ∃ a, a ∈ ys ∧ a ∈ ys' := by
  have hlast := congrArg List.getLast? h
  rw [List.getLast?_append_of_ne_nil _ hy, List.getLast?_append_of_ne_nil _ hy', List.getLast?_eq_some_getLast hy,
    List.getLast?_eq_some_getLast hy', Option.some.injEq] at hlast
  exact ⟨ys.getLast hy, List.getLast_mem hy, hlast ▸ List.getLast_mem hy'⟩

/-- Two lists that start in the same place have the same first element. -/
theorem exists_mem_of_eq_append {xs ys xs' ys' : List α} (hx : xs ≠ []) (hx' : xs' ≠ []) (h : xs ++ ys = xs' ++ ys') :
    ∃ a, a ∈ xs ∧ a ∈ xs' := by
  have hrev : ys.reverse ++ xs.reverse = ys'.reverse ++ xs'.reverse := by simpa using congrArg List.reverse h
  simpa using exists_mem_of_append_eq (by simpa using hx) (by simpa using hx') hrev

/-- A bracketing of marks with an operand between `&` and an arrow: the second operand of this `&` starts with the operand, and
may go on with the arrow. -/
theorem Brackets.exists_conjunction {tight : Bool} {t : Bracketing α} {pre core post : List (Mark α)} {n : Nat}
    (hcore : Mark.IsCore core)
    (ht : Brackets tight (pre ++ .token .and :: (List.replicate n (.token .not) ++ (core ++ .arrow :: post))) t) :
    ∃ pre' ls rest post' u w, pre = pre' ++ ls ∧ .arrow :: post = rest ++ post' ∧ Brackets tight ls u ∧
      Brackets tight (List.replicate n (.token .not) ++ (core ++ rest)) w ∧ Tree.IsPart (.binary (.connective .and) u w) t := by
  obtain ⟨pre', ls, rs, post', u, w, hpre, hrest, hu, hw, hnode⟩ := ht.exists_isPart (m := .token .and) rfl rfl
  obtain ⟨n', core', rest, rfl, hcore'⟩ := hw.exists_operand
  rw [List.append_assoc, List.append_assoc] at hrest
  obtain ⟨rfl, rfl⟩ := hcore.operand_unique hcore' hrest
  exact ⟨pre', ls, rest, post', u, w, hpre, List.append_cancel_left (List.append_cancel_left hrest), hu, hw, hnode⟩

/-- With a different leaf in every place, no bracketing has the value of the formula read if the left operand of an arrow stands
directly behind `&`. The leaves of the formula are those before the `&`, those of the operand and those behind the arrow, and the
second operand of the `&` in the bracketing ends somewhere among them. If it is the operand alone, its value would be the opposite
of that in another bracketing of the same marks; if it is more, leaves on both sides of the arrow would be in it. -/
theorem not_brackets_of_arrowBehindAnd [DecidableEq α] {ms : List (Mark α)} (hb : Mark.ArrowBehindAnd ms)
    (hd : (ms.filterMap Mark.leaf?).Nodup) {s : Reading α} {f : Formula α} (hs : ({} : Reading α).afterMarks ms = some s)
    (hf : s.formula? = some f) {tight : Bool}
    {t : Bracketing α} (ht : Brackets tight ms t) : ¬∀ val, t.eval val = f.eval val := by
  intro heq
  obtain ⟨pre, n, core, post, hcore, rfl⟩ := hb
  obtain ⟨c, g, d, r, hor, hpart, hlg, hwg⟩ := Reading.exists_isPart_of_arrowBehindAnd hcore hs hf
  have hlf := Reading.leaves_formula? hs hf
  obtain ⟨φ, hφ, hφi, l₁, l₂, hl⟩ := Formula.exists_context (hlf ▸ hd) hpart hor
  obtain ⟨pre', ls, rest, post', u, w, hpre, hrest, hu, hw, hnode⟩ := ht.exists_conjunction hcore
  obtain ⟨τ, hτ, hτi⟩ := Bracketing.exists_context hnode (ht.leaves ▸ hd)
  have hlw := hw.leaves
  rw [← List.append_assoc, List.filterMap_append, ← hlg] at hlw
  have hlf' : Tree.leaves f = pre.filterMap Mark.leaf? ++ (Tree.leaves g ++ post.filterMap Mark.leaf?) := by
    rw [hlf, hlg, List.filterMap_append, List.filterMap_cons, ← List.append_assoc, List.filterMap_append (l := _ ++ core)]
    rfl
  have hdf : (Tree.leaves f).Nodup := hlf ▸ hd
  obtain ⟨hbefore, hbehind⟩ :
      l₁ ++ Tree.leaves c = pre.filterMap Mark.leaf? ∧ Tree.leaves r ++ l₂ = post.filterMap Mark.leaf? := by
    refine append_inj_of_nodup (Tree.leaves_ne_nil g) (hlf' ▸ hdf) ?_
    rw [← hlf', hl, List.append_assoc]
  have hends : l₁ ++ Tree.leaves c = pre'.filterMap Mark.leaf? ++ u.leaves := by
    rw [hbefore, hpre, hu.leaves, List.filterMap_append]
  obtain ⟨a, hac, hau⟩ := exists_mem_of_append_eq (Tree.leaves_ne_nil c) u.leaves_ne_nil hends
  have hinfix : Tree.leaves c ++ (Tree.leaves g ++ Tree.leaves r) <:+: Tree.leaves f := ⟨l₁, l₂, by simp [hl]⟩
  have hdo : (Tree.leaves c ++ (Tree.leaves g ++ Tree.leaves r)).Nodup := hdf.sublist hinfix.sublist
  have hdt : t.leaves.Nodup := ht.leaves ▸ hd
  have hduw : (u.leaves ++ w.leaves).Nodup := hdt.sublist hnode.isInfix.sublist
  have hrivals : Rivals f c g r t u w φ τ a := {
    eval_eq := heq
    eval_formula := hφ
    eval_bracketing := hτ
    ignores_formula := hφi
    ignores_bracketing := hτi
    nodup := hdf
    nodup_operands := hdo
    subset := hinfix.subset
    disjoint := (List.nodup_append'.mp hduw).2.2
    mem_formula := hac
    mem_bracketing := hau }
  cases rest with
  | nil =>
    rw [List.filterMap_nil, List.append_nil] at hlw
    rw [List.append_nil] at hw
    refine Bracketing.not_opposite (t := w) (u := g.toBracketing) (List.nodup_append'.mp hduw).2.1 ?_ ?_ fun val => ?_
    · rw [hlw, Formula.leaves_toBracketing]
    · exact hw.weight.trans hwg.symm
    · rw [Formula.eval_toBracketing]
      exact hrivals.eval_eq_not hlw val
  | cons m rest =>
    have hsplit : .arrow :: post = m :: (rest ++ post') := hrest
    obtain ⟨rfl, hpost⟩ := List.cons.inj hsplit
    rw [← List.append_assoc] at hw
    obtain ⟨_, _, rs, rest', _, x, -, rfl, -, hx, -⟩ := hw.exists_isPart (m := .arrow) rfl rfl
    obtain ⟨b, hb⟩ := List.exists_mem_of_ne_nil _ (Tree.leaves_ne_nil g)
    have hmem : ∀ v, v ∈ Tree.leaves g ∨ v ∈ rs.filterMap Mark.leaf? → v ∈ w.leaves := by
      intro v hv
      rw [hlw, List.filterMap_cons, List.filterMap_append]
      rcases hv with hv | hv
      · exact List.mem_append_left _ hv
      · exact List.mem_append_right _ (List.mem_append_left _ hv)
    rw [hpost, List.append_assoc, List.filterMap_append] at hbehind
    obtain ⟨e, her, hers⟩ := exists_mem_of_eq_append (Tree.leaves_ne_nil r) hx.filterMap_leaf?_ne_nil hbehind
    exact hrivals.not_mem hb (hmem b (.inl hb)) her (hmem e (.inr hers))

end Propositional
