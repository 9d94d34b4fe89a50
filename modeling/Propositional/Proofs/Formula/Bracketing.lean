import Propositional.Proofs.Formula.Marks

/-!
# Bracketings of formulas with arrows

A list of marks, arrows among them, is bracketed fully by a tree in which an arrow is a binary operation like any other: a
material implication (`Brackets`). No precedence is laid down, so one list has many bracketings. Whether a negation may reach
farther than the next operand is left open.

Where no arrow stands behind a conjunction, what the reader makes of the list has the truth value of one of them
(`hasBracketing_of_afterMarks`): arrows and disjunctions reach to the right as far as they can. The parts of a group that wait
for an operand say how they extend a bracketing of what is to come (`Extends`), and a list that was read consists of such parts
(`Prepares`).
-/

namespace Propositional

variable {α β : Type}

/-- A binary operation of a formula with arrows. -/
inductive Link where
  | connective (c : Connective)
  | implies
  deriving DecidableEq

/-- The truth function of an operation. -/
def Link.apply : Link → Bool → Bool → Bool
  | connective c, a, b => c.apply a b
  | implies, a, b => !a || b

/-- A formula with arrows, fully bracketed. -/
abbrev Bracketing (α : Type) := Tree Link α

/-- The truth value of a bracketing under values for its leaves. -/
def Bracketing.eval (val : α → Bool) : Bracketing α → Bool
  | .leaf a => val a
  | .not t => !eval val t
  | .binary k t u => k.apply (eval val t) (eval val u)

/-- The operation that a mark writes, if it writes one. -/
def Mark.link? : Mark α → Option Link
  | .token .and => some (.connective .and)
  | .token .or => some (.connective .or)
  | .token (.equiv _) => some (.connective .equiv)
  | .token (.xor _) => some (.connective .xor)
  | .arrow => some .implies
  | _ => none

/-- An operand: a leaf or a group, with negations before it. -/
def Mark.IsOperand (ms : List (Mark α)) : Prop := ∃ n core, IsCore core ∧ ms = List.replicate n (.token .not) ++ core

/-- A tree brackets a list of marks fully. A negation may reach as far as it likes, or if `tight` is true it stands before an
operand only. -/
inductive Brackets (tight : Bool) : List (Mark α) → Bracketing α → Prop where
  | leaf (a : α) : Brackets tight [.token (.leaf a)] (.leaf a)
  | not {ms : List (Mark α)} {t : Bracketing α} : (tight = true → Mark.IsOperand ms) → Brackets tight ms t →
      Brackets tight (.token .not :: ms) (.not t)
  | group {ms : List (Mark α)} {t : Bracketing α} : Brackets tight ms t →
      Brackets tight (.token .lparen :: (ms ++ [.token .rparen])) t
  | binary {ms ns : List (Mark α)} {t u : Bracketing α} {m : Mark α} {k : Link} : m.link? = some k → Brackets tight ms t →
      Brackets tight ns u → Brackets tight (ms ++ m :: ns) (.binary k t u)

variable {tight : Bool}

/-- A mark that writes an operation is no parenthesis. -/
theorem Mark.paren?_of_link? {m : Mark α} {k : Link} (h : m.link? = some k) : m.paren? = none := by
  rcases m with (_ | _ | _ | _ | _ | _ | _ | _) | _ <;> first | rfl | cases h

/-- All groups are closed. -/
theorem Brackets.depthAfter? {ms : List (Mark α)} {t : Bracketing α} (h : Brackets tight ms t) (d : Nat) :
    depthAfter? Mark.paren? d ms = some d := by
  induction h generalizing d with
  | leaf a => rfl
  | not _ _ ih => exact ih d
  | @group ms t _ ih =>
    rw [depthAfter?_cons, show nextDepth? d (Mark.paren? (.token .lparen : Mark α)) = some (d + 1) from rfl, Option.bind_some,
      depthAfter?_append, ih]
    rfl
  | @binary ms ns t u m k hm _ _ iht ihu =>
    rw [depthAfter?_append, iht, Option.bind_some, depthAfter?_cons, Mark.paren?_of_link? hm]
    exact ihu d

/-- A list of marks can be bracketed so that it has the value of a formula. -/
def HasBracketing (tight : Bool) (ms : List (Mark α)) (f : Formula α) : Prop :=
  ∃ t, Brackets tight ms t ∧ ∀ val, Bracketing.eval val t = f.eval val

/-- Negations before an operand have a bracketing as the negated formula. -/
theorem HasBracketing.negate {ms : List (Mark α)} {f : Formula α} (h : HasBracketing tight ms f) (hc : Mark.IsCore ms) (n : Nat) :
    HasBracketing tight (List.replicate n (.token .not) ++ ms) (f.negate n) := by
  induction n with
  | zero => exact h
  | succ n ih =>
    obtain ⟨u, hu, heval⟩ := ih
    refine ⟨.not u, .not (fun _ => ⟨n, ms, hc, rfl⟩) hu, fun val => ?_⟩
    rw [Bracketing.eval, Formula.negate, Formula.eval, heval]

/-! ## Parts that wait for an operand -/

/-- The marks extend every bracketing of what follows them to a bracketing of the whole, with the value that `φ` makes of the
value of what follows. -/
def Extends (tight : Bool) (ms : List (Mark α)) (φ : (α → Bool) → Bool → Bool) : Prop :=
  ∀ ⦃ns t⦄, Brackets tight ns t → ∃ u, Brackets tight (ms ++ ns) u ∧ ∀ val, Bracketing.eval val u = φ val (Bracketing.eval val t)

namespace Extends

variable {ms ns : List (Mark α)} {φ ψ : (α → Bool) → Bool → Bool}

theorem nil : Extends tight ([] : List (Mark α)) fun _ b => b := fun _ t h => ⟨t, h, fun _ => rfl⟩

/-- Marks that extend what extends a bracketing extend it together. -/
theorem append (h₁ : Extends tight ms φ) (h₂ : Extends tight ns ψ) : Extends tight (ms ++ ns) fun val b => φ val (ψ val b) := by
  intro ks t h
  obtain ⟨u, hu, heval⟩ := h₂ h
  obtain ⟨w, hw, heval'⟩ := h₁ hu
  exact ⟨w, by rwa [List.append_assoc], fun val => by rw [heval', heval]⟩

/-- Only the values that `φ` takes count. -/
theorem congr (h : Extends tight ms φ) (he : ∀ val b, φ val b = ψ val b) : Extends tight ms ψ := by
  intro ns t ht
  obtain ⟨u, hu, heval⟩ := h ht
  exact ⟨u, hu, fun val => by rw [heval, he]⟩

/-- A left operand with its operation. -/
theorem link {f : Formula α} (h : HasBracketing tight ms f) {m : Mark α} {k : Link} (hm : m.link? = some k) :
    Extends tight (ms ++ [m]) fun val b => k.apply (f.eval val) b := by
  obtain ⟨t, ht, heval⟩ := h
  intro ns u hu
  exact ⟨.binary k t u, by simpa using Brackets.binary hm ht hu, fun val => by rw [Bracketing.eval, heval]⟩

/-- What is extended has a bracketing with the value that is made of that of the rest. -/
theorem hasBracketing (h : Extends tight ms φ) {f g : Formula α} (hf : HasBracketing tight ns f)
    (he : ∀ val, φ val (f.eval val) = g.eval val) : HasBracketing tight (ms ++ ns) g := by
  obtain ⟨t, ht, heval⟩ := hf
  obtain ⟨u, hu, heval'⟩ := h ht
  exact ⟨u, hu, fun val => by rw [heval', heval, he]⟩

end Extends

/-- The marks are those of a group that waits for an operand: what its equivalences, its disjunction and its conjunction wait
with, and the negations. -/
def Prepares (tight : Bool) (p : Pending α) (ms : List (Mark α)) : Prop :=
  ∃ es ds cs, ms = es ++ (ds ++ (cs ++ List.replicate p.negations (.token .not))) ∧ Extends tight es p.equate ∧
    Extends tight ds (fun val b => p.disjunction.any (·.eval val) || b) ∧
    Extends tight cs (fun val b => p.conjunction.all (·.eval val) && b)

/-- A group that waits with nothing has no marks. -/
theorem prepares_empty : Prepares tight ({} : Pending α) [] := ⟨[], [], [], rfl, .nil, .nil, .nil⟩

namespace Prepares

variable {p : Pending α} {ms ns : List (Mark α)} {f : Formula α}

/-- With an operand behind them, the marks of a group are those before its last conjunction and those of that. -/
theorem conjoin (hp : Prepares tight p ms) (hc : Mark.IsCore ns) (hf : HasBracketing tight ns f) :
    ∃ es ds ks, ms ++ ns = es ++ (ds ++ ks) ∧ Extends tight es p.equate ∧
      Extends tight ds (fun val b => p.disjunction.any (·.eval val) || b) ∧ HasBracketing tight ks (p.conjoin f) := by
  obtain ⟨es, ds, cs, rfl, hes, hds, hcs⟩ := hp
  refine ⟨es, ds, _, by simp, hes, hds, hcs.hasBracketing (hf.negate hc p.negations) fun val => ?_⟩
  rw [Pending.eval_conjoin, Pending.unary]

/-- With an operand behind them, the marks of a group are those of the whole of the group. -/
theorem close (hp : Prepares tight p ms) (hc : Mark.IsCore ns) (hf : HasBracketing tight ns f) :
    HasBracketing tight (ms ++ ns) (p.close f) := by
  obtain ⟨es, ds, ks, he, hes, hds, hks⟩ := hp.conjoin hc hf
  have hdisjoin : HasBracketing tight (ds ++ ks) (p.disjoin f) := hds.hasBracketing hks fun val => by rw [Pending.eval_disjoin]
  rw [he]
  exact hes.hasBracketing hdisjoin fun val => by rw [Pending.eval_close]

/-! ## What the steps of the reader do to them -/

/-- One more negation is one more mark of the group. -/
theorem negate (hp : Prepares tight p ms) : Prepares tight { p with negations := p.negations + 1 } (ms ++ [.token .not]) := by
  obtain ⟨es, ds, cs, rfl, hes, hds, hcs⟩ := hp
  exact ⟨es, ds, cs, by simp [List.replicate_succ'], hes, hds, hcs⟩

/-- An operand and an `&` behind it are marks of a group that waits with one more member of its conjunction. -/
theorem and (hp : Prepares tight p ms) (hc : Mark.IsCore ns) (hf : HasBracketing tight ns f) :
    Prepares tight { p with conjunction := some (p.conjoin f), negations := 0 } (ms ++ ns ++ [.token .and]) := by
  obtain ⟨es, ds, ks, he, hes, hds, hks⟩ := hp.conjoin hc hf
  have hlink : Extends tight (ks ++ [.token .and]) fun val b => (p.conjoin f).eval val && b :=
    .link hks (k := .connective .and) rfl
  exact ⟨es, ds, ks ++ [.token .and], by simp [he], hes, hds, hlink⟩

/-- A disjunction takes what stands behind it, be it `|` or an arrow, as its last member. -/
theorem or (hp : Prepares tight p ms) (hc : Mark.IsCore ns) (hf : HasBracketing tight ns f) {m : Mark α} {k : Link}
    (hm : m.link? = some k) {d : Formula α}
    (hd : ∀ val b, (p.disjunction.any (·.eval val) || k.apply ((p.conjoin f).eval val) b) = (d.eval val || b)) :
    Prepares tight { equivalence := p.equivalence, disjunction := some d } (ms ++ ns ++ [m]) := by
  obtain ⟨es, ds, ks, he, hes, hds, hks⟩ := hp.conjoin hc hf
  exact ⟨es, ds ++ (ks ++ [m]), [], by simp [he], hes, (hds.append (.link hks hm)).congr hd, .nil⟩

/-- An operand and the mark of an equivalence behind it are marks of a group that waits with its whole as the left side. -/
theorem equate (hp : Prepares tight p ms) (hc : Mark.IsCore ns) (hf : HasBracketing tight ns f) {m : Mark α} {c : Connective}
    (hm : m.link? = some (.connective c)) : Prepares tight { equivalence := some (c, p.close f) } (ms ++ ns ++ [m]) :=
  ⟨ms ++ ns ++ [m], [], [], by simp, .link (hp.close hc hf) hm, .nil, .nil⟩

end Prepares

/-! ## Runs of the reader -/

/-- The marks are those of the groups around, each up to the parenthesis that opens the next, and those of the innermost one. -/
def Stands (tight : Bool) : List (Pending α) → Pending α → List (Mark α) → Prop
  | [], p, ms => Prepares tight p ms
  | q :: gs, p, ms => ∃ ms' ns, ms = ms' ++ .token .lparen :: ns ∧ Stands tight gs q ms' ∧ Prepares tight p ns

/-- What the innermost group waits with may change, with the marks behind. -/
theorem Stands.imp {gs : List (Pending α)} {p p' : Pending α} {ms : List (Mark α)} (h : Stands tight gs p ms)
    (ns : List (Mark α)) (hp : ∀ ms, Prepares tight p ms → Prepares tight p' (ms ++ ns)) : Stands tight gs p' (ms ++ ns) := by
  cases gs with
  | nil => exact hp ms h
  | cons q gs =>
    obtain ⟨ms', ks, rfl, hq, hks⟩ := h
    exact ⟨ms', ks ++ ns, by simp, hq, hp ks hks⟩

/-- The marks that were read up to a state: those of the groups, and those of the operand if there is one. -/
def Reading.Stood (tight : Bool) (s : Reading α) (ms : List (Mark α)) : Prop :=
  match s.operand with
  | none => Stands tight s.outer s.group ms
  | some f => ∃ ms' ns, ms = ms' ++ ns ∧ Stands tight s.outer s.group ms' ∧ Mark.IsCore ns ∧ HasBracketing tight ns f

/-- A step of the reader keeps this, if it takes no arrow behind a conjunction. Without a conjunction before it, the operand with
one more negation is all that the arrow stands behind. -/
theorem Reading.Stood.mark {s s' : Reading α} {ms : List (Mark α)} (h : s.Stood tight ms) {m : Mark α} (hm : s.mark m = some s')
    (harrow : m = .arrow → s.group.conjunction = none) : s'.Stood tight (ms ++ [m]) := by
  obtain ⟨gs, p, o⟩ := s
  cases o with
  | none =>
    rcases m with (a | _ | _ | _ | _ | _ | _ | _) | _ <;> cases hm
    · exact ⟨ms, _, rfl, h, .inl ⟨a, rfl⟩, _, .leaf a, fun _ => rfl⟩
    · exact h.imp _ fun _ hp => hp.negate
    · exact ⟨ms, [], rfl, h, prepares_empty⟩
  | some f =>
    obtain ⟨ms', ns, rfl, hs, hc, hf⟩ := h
    cases m with
    | arrow =>
      have hnone : p.conjunction = none := harrow rfl
      obtain rfl := Option.some.inj hm
      have hd : ∀ val b, (p.disjunction.any (·.eval val) || Link.apply .implies ((p.conjoin f).eval val) b) =
          (({ p with negations := p.negations + 1 }.disjoin f).eval val || b) := by
        intro val b
        rw [Pending.eval_disjoin, Pending.eval_conjoin, Pending.eval_conjoin]
        simp [hnone, Link.apply, Pending.unary, Formula.negate, Formula.eval, Bool.or_assoc]
      have hnext := hs.imp (ns ++ [.arrow]) fun ks hp => by simpa using hp.or hc hf (m := .arrow) rfl hd
      simpa [Stood] using hnext
    | token k =>
      cases k with
      | and =>
        obtain rfl := Option.some.inj hm
        have hnext := hs.imp (ns ++ [.token .and]) fun ks hp => by simpa using hp.and hc hf
        simpa [Stood] using hnext
      | or =>
        obtain rfl := Option.some.inj hm
        have hd : ∀ val b, (p.disjunction.any (·.eval val) || Link.apply (.connective .or) ((p.conjoin f).eval val) b) =
            ((p.disjoin f).eval val || b) := by
          intro val b
          rw [Pending.eval_disjoin, Bool.or_assoc]
          rfl
        have hnext := hs.imp (ns ++ [.token .or]) fun ks hp => by simpa using hp.or hc hf (m := .token .or) rfl hd
        simpa [Stood] using hnext
      | equiv n =>
        obtain rfl := Option.some.inj hm
        have hnext := hs.imp (ns ++ [.token (.equiv n)]) fun ks hp => by
          simpa using hp.equate hc hf (m := .token (.equiv n)) rfl
        simpa [Stood] using hnext
      | xor n =>
        obtain rfl := Option.some.inj hm
        have hnext := hs.imp (ns ++ [.token (.xor n)]) fun ks hp => by
          simpa using hp.equate hc hf (m := .token (.xor n)) rfl
        simpa [Stood] using hnext
      | rparen =>
        cases gs with
        | nil => cases hm
        | cons q gs =>
          obtain rfl := Option.some.inj hm
          obtain ⟨ks, ls, rfl, hq, hls⟩ := hs
          obtain ⟨u, hu, heval⟩ := hls.close hc hf
          exact ⟨ks, _, by simp, hq, .inr ⟨_, rfl, hu.depthAfter? 0⟩, u, .group hu, heval⟩
      | _ => cases hm

/-- Where no arrow is taken behind a conjunction, what the marks are read as has the value of one of their bracketings. -/
theorem Reading.Stood.afterMarks {ns : List (Mark α)} : ∀ {s s' : Reading α} {ms : List (Mark α)}, s.Stood tight ms →
    s.afterMarks ns = some s' → (∀ done rest r, ns = done ++ .arrow :: rest → s.afterMarks done = some r →
      r.group.conjunction = none) → s'.Stood tight (ms ++ ns) := by
  induction ns with
  | nil =>
    intro s s' ms h hs _
    obtain rfl := Option.some.inj hs
    simpa using h
  | cons n ns ih =>
    intro s s' ms h hs harrow
    obtain ⟨r, hr, hs⟩ := Option.bind_eq_some_iff.mp hs
    have hstep : r.Stood tight (ms ++ [n]) := h.mark hr fun hn => harrow [] ns s (by rw [hn]; rfl) rfl
    have hrest : ∀ done rest r', ns = done ++ .arrow :: rest → r.afterMarks done = some r' → r'.group.conjunction = none := by
      intro done rest r' hns hdone
      refine harrow (n :: done) rest r' (by rw [hns]; rfl) ?_
      rw [afterMarks_cons, hr]
      exact hdone
    simpa using ih hstep hs hrest

/-- Where no arrow stands behind a conjunction, the formula that marks are read as has the value of one of their bracketings. -/
theorem hasBracketing_of_afterMarks {ms : List (Mark α)} {s : Reading α} {f : Formula α}
    (hs : ({} : Reading α).afterMarks ms = some s) (hf : s.formula? = some f)
    (harrow : ∀ done rest r, ms = done ++ .arrow :: rest → ({} : Reading α).afterMarks done = some r →
      r.group.conjunction = none) (tight : Bool) : HasBracketing tight ms f := by
  have hstart : ({} : Reading α).Stood tight [] := prepares_empty
  obtain ⟨g, c, rfl, rfl⟩ := Reading.formula?_eq_some.mp hf
  obtain ⟨ms', ns, he, hg, hc, hns⟩ := hstart.afterMarks hs harrow
  have hclose := Prepares.close hg hc hns
  rwa [← he] at hclose

end Propositional
