import Propositional.Proofs.Latex.Reading

/-!
# Reading what the elimination of arrows writes

The elimination rewrites the end of what was read, and the reader takes the result exactly as it takes the arrow itself
(`through_rewritten`). So lexemes and what the elimination makes of them are read alike (`through_eliminate`). An arrow without a
left operand stands where no operand is there to be taken, so the plain `|` that it becomes stops the reader, whatever is
rewritten later on (`degraded_eq_nil_of_through`).
-/

namespace Propositional.Latex

open Reading

/-! ## The left operand of an arrow -/

/-- The negations that are counted are all negations. -/
theorem take_negationCount (ts : List Lexeme) : ts.take (negationCount ts) = List.replicate (negationCount ts) .not := by
  induction ts with
  | nil => rfl
  | cons t ts ih =>
    by_cases h : t = .not
    · subst h
      simpa [negationCount, List.replicate_succ] using ih
    · simp [negationCount, h]

/-- Behind the negations that are counted there is no further one. -/
theorem drop_negationCount (ts : List Lexeme) : (ts.drop (negationCount ts)).head? ≠ some .not := by
  induction ts with
  | nil => simp
  | cons t ts ih =>
    by_cases h : t = .not
    · subst h
      simpa [negationCount] using ih
    · simp [negationCount, h]

/-- A `(` that is not the end of the search ends one group of it. -/
theorem groupLength?_lparen (d : Nat) (us : List Lexeme) :
    groupLength? (d + 1 + 1 : Nat) (.lparen :: us) = (groupLength? (d + 1 : Nat) us).map (· + 1) := by
  have hne : ¬((d + 1 + 1 : Nat) : Int) = 1 := by omega
  have hpred : ((d + 1 + 1 : Nat) : Int) - 1 = (d + 1 : Nat) := by omega
  rw [groupLength?, if_neg hne, hpred]

/-- The lexemes up to the `(` that a search of a given depth finds close only what they open, up to that depth. A lexeme that is
not the end of the search is the last of what is found. -/
theorem groupLength?_eq_some {ts : List Lexeme} :
    ∀ {d n : Nat}, groupLength? (d + 1 : Nat) ts = some n →
      ∃ us, (ts.take n).reverse = .lparen :: us ∧ depthAfter? Lexeme.paren? 0 us = some d := by
  induction ts with
  | nil => intro d n h; simp [groupLength?] at h
  | cons t ts ih =>
    intro d n h
    have step : ∀ {e m : Nat}, groupLength? (e + 1 : Nat) ts = some m → depthAfter? Lexeme.paren? e [t] = some d → n = m + 1 →
        ∃ us, ((t :: ts).take n).reverse = .lparen :: us ∧ depthAfter? Lexeme.paren? 0 us = some d := by
      rintro e m hm ht rfl
      obtain ⟨us, hus, hd⟩ := ih hm
      exact ⟨us ++ [t], by simp [hus], by rw [depthAfter?_append, hd]; exact ht⟩
    cases t with
    | rparen =>
      obtain ⟨m, hm, rfl⟩ := Option.map_eq_some_iff.mp h
      exact step (e := d + 1) (by exact_mod_cast hm) rfl rfl
    | lparen =>
      cases d with
      | zero =>
        obtain rfl : n = 1 := by simpa [groupLength?, eq_comm] using h
        exact ⟨[], by simp, rfl⟩
      | succ e =>
        rw [groupLength?_lparen] at h
        obtain ⟨m, hm, rfl⟩ := Option.map_eq_some_iff.mp h
        exact step (e := e) hm rfl rfl
    | _ =>
      obtain ⟨m, hm, rfl⟩ := Option.map_eq_some_iff.mp h
      exact step (e := d) hm rfl rfl

/-- A search succeeds in lexemes that close only what they open, if they leave at least as many groups open as it looks for. -/
theorem groupLength?_ne_none {ts : List Lexeme} :
    ∀ {d e : Nat}, depthAfter? Lexeme.paren? 0 ts.reverse = some e → d + 1 ≤ e → groupLength? (d + 1 : Nat) ts ≠ none := by
  induction ts with
  | nil =>
    intro d e h hle
    obtain rfl : 0 = e := Option.some.inj h
    omega
  | cons t ts ih =>
    intro d e h hle
    rw [List.reverse_cons, depthAfter?_append] at h
    obtain ⟨k, hk, h⟩ := Option.bind_eq_some_iff.mp h
    cases t with
    | rparen =>
      cases k with
      | zero => cases h
      | succ k =>
        obtain rfl : k = e := Option.some.inj h
        have := ih (d := d + 1) hk (by omega)
        simpa [groupLength?] using this
    | lparen =>
      obtain rfl : k + 1 = e := Option.some.inj h
      cases d with
      | zero => simp [groupLength?]
      | succ d =>
        have := ih (d := d) hk (by omega)
        rw [groupLength?_lparen]
        simpa using this
    | _ =>
      obtain rfl : k = e := Option.some.inj h
      have := ih hk hle
      simpa [groupLength?] using this

/-- The left operand that is found is a core with all the negations before it. The core is what the search ends with, and the
negations are what stands before it. -/
theorem operandLength?_eq_some {done : List Lexeme} {n : Nat} (h : operandLength? done = some n) :
    ∃ m core, IsCore core ∧ (done.take n).reverse = List.replicate m .not ++ core ∧ (done.drop n).head? ≠ some .not := by
  have split : ∀ k, (done.take (k + negationCount (done.drop k))).reverse =
      List.replicate (negationCount (done.drop k)) .not ++ (done.take k).reverse := by
    intro k
    rw [List.take_add, take_negationCount, List.reverse_append, List.reverse_replicate]
  have hdrop : ∀ k, (done.drop (k + negationCount (done.drop k))).head? ≠ some .not := by
    intro k
    rw [← List.drop_drop]
    exact drop_negationCount _
  obtain ⟨k, hk, rfl⟩ := Option.map_eq_some_iff.mp h
  refine ⟨_, _, ?_, split k, hdrop k⟩
  split at hk
  · rename_i ts
    obtain ⟨m, hm, rfl⟩ := Option.map_eq_some_iff.mp hk
    obtain ⟨us, hus, hd⟩ := groupLength?_eq_some (d := 0) hm
    exact Or.inr ⟨us, by simp [hus], hd⟩
  · obtain rfl := Option.some.inj hk
    exact Or.inl ⟨_, rfl⟩
  · simp at hk

/-- Where an operand was read, the left operand of an arrow is found. The groups that are open before a `)` are at least one, so
the search finds the `(` of the innermost. -/
theorem operand_eq_none_of_operandLength? {done : List Lexeme} {s : Reading Char} (h : operandLength? done = none)
    (hs : ({} : Reading Char).through done.reverse = some s) : s.operand = none := by
  cases done with
  | nil => obtain rfl := Option.some.inj hs; rfl
  | cons t ts =>
    rw [List.reverse_cons, through_append] at hs
    obtain ⟨r, hr, hs⟩ := Option.bind_eq_some_iff.mp hs
    rw [through_singleton] at hs
    apply operand_eq_none_of_take hs
    · rintro c rfl
      simp [operandLength?] at h
    · rintro rfl
      have hd := depthAfter?_of_through hr
      have hpos : 0 + 1 ≤ r.outer.length := by
        rcases r with ⟨_ | ⟨p, ps⟩, g, _ | f⟩ <;> cases hs
        simp
      have := groupLength?_ne_none (d := 0) hd hpos
      simp [operandLength?, groupLength?] at h
      exact this (by simpa using h)

/-! ## The rewriting of an arrow -/

/-- Negations add up. -/
theorem negate_add {α : Type} (f : Formula α) (n m : Nat) : f.negate (n + m) = (f.negate m).negate n := by
  induction n with
  | zero => simp [Formula.negate]
  | succ n ih => simp [Formula.negate, Nat.succ_add, ih]

/-- One more negation before an operand with negations, and one before the operand in parentheses, come to the same. -/
theorem through_guardOperand {core : List Lexeme} (h : IsCore core) (m : Nat) (s : Reading Char) :
    s.through (.not :: (guardOperand (List.replicate m .not ++ core) ++ [.or])) =
      (s.through (List.replicate m .not ++ core)).bind imply := by
  obtain ⟨o, hdue, hnot⟩ := through_operand h
  obtain ⟨gs, g, d⟩ := s
  cases d with
  | some f =>
    rw [hnot, through_cons, take_not_of_operand]
    rfl
  | none =>
    have hguard : guardOperand (List.replicate m .not ++ core) = List.replicate m .not ++ core ∨
        guardOperand (List.replicate m .not ++ core) = .lparen :: ((List.replicate m .not ++ core) ++ [.rparen]) := by
      unfold guardOperand
      split
      · exact Or.inl rfl
      · split
        · exact Or.inl rfl
        · exact Or.inr rfl
    rw [hdue, through_cons, take_not, Option.bind_some]
    rcases hguard with hg | hg
    · rw [hg, through_append, hdue]
      cases o with
      | none => rfl
      | some f =>
        simp [imply, step, Pending.disjoin, Pending.conjoin, Pending.unary, Nat.add_right_comm]
    · rw [hg, List.cons_append, through_cons, take_lparen, Option.bind_some, through_append, through_append, hdue]
      cases o with
      | none => rfl
      | some f =>
        have hneg : f.negate (g.negations + m + 1) = (f.negate m).negate (g.negations + 1) := by
          rw [Nat.add_right_comm, negate_add]
        simp [imply, step, Pending.close, Pending.disjoin, Pending.conjoin, Pending.unary, hneg]

/-- What was read, last lexeme first, once the arrow behind it is rewritten, its operand being the first `n` lexemes. -/
def rewritten (done : List Lexeme) (n : Nat) : List Lexeme :=
  .or :: ((guardOperand (done.take n).reverse).reverse ++ .not :: done.drop n)

/-- What was read, with the arrow behind it, is read as what the elimination writes for it. -/
theorem through_rewritten {done : List Lexeme} {n : Nat} (h : operandLength? done = some n) (s : Reading Char) :
    s.through (rewritten done n).reverse = (s.through done.reverse).bind imply := by
  obtain ⟨m, core, hcore, hop, -⟩ := operandLength?_eq_some h
  have hdone : done.reverse = (done.drop n).reverse ++ (List.replicate m .not ++ core) := by
    rw [← hop, ← List.reverse_append, List.take_append_drop]
  have hnew : (rewritten done n).reverse =
      (done.drop n).reverse ++ (.not :: (guardOperand (List.replicate m .not ++ core) ++ [.or])) := by
    simp [rewritten, hop]
  rw [hnew, hdone, through_append, through_append, Option.bind_assoc]
  congr 1
  funext r
  exact through_guardOperand hcore m r

/-! ## The elimination -/

/-- What is no arrow is read and stays. -/
theorem eliminateFrom_cons_of_ne {strict : Bool} {t : Lexeme} (h : t ≠ .arrow) (done ts : List Lexeme) :
    eliminateFrom strict done (t :: ts) = eliminateFrom strict (t :: done) ts := by
  cases t <;> first | rfl | exact absurd rfl h

/-- What the elimination does with a lexeme: anything but an arrow is taken over, an arrow with an operand is rewritten, and one
without becomes a plain `|`, which is put on record. -/
theorem eliminateFrom_cons {strict : Bool} {done ts : List Lexeme} {t : Lexeme} {e : Elimination}
    (h : eliminateFrom strict done (t :: ts) = .ok e) :
    (t ≠ .arrow ∧ eliminateFrom strict (t :: done) ts = .ok e) ∨
    (t = .arrow ∧ ∃ n, operandLength? done = some n ∧ eliminateFrom strict (rewritten done n) ts = .ok e) ∨
    (t = .arrow ∧ operandLength? done = none ∧
      ∃ c e', eliminateFrom strict (.or :: done) ts = .ok e' ∧ e = ⟨e'.lexemes, c :: e'.degraded⟩) := by
  by_cases ht : t = .arrow
  · subst ht
    rw [eliminateFrom] at h
    cases hn : operandLength? done with
    | some n =>
      rw [hn] at h
      exact Or.inr (Or.inl ⟨rfl, n, rfl, h⟩)
    | none =>
      rw [hn] at h
      cases strict with
      | true => simp at h
      | false =>
        cases he : eliminateFrom false (.or :: done) ts with
        | error c => simp [he, Except.map] at h
        | ok e' =>
          simp only [he, Except.map, Bool.false_eq_true, if_false, Except.ok.injEq] at h
          exact Or.inr (Or.inr ⟨rfl, rfl, _, e', rfl, h.symm⟩)
  · exact Or.inl ⟨ht, eliminateFrom_cons_of_ne ht done ts ▸ h⟩

/-- The lexemes that the elimination leaves are read as those it was given, and no reading goes past an arrow that became a plain
`|`. Where an arrow has no operand, none was read, so neither the arrow nor the `|` it becomes can be taken. -/
theorem through_eliminateFrom {strict : Bool} {ts : List Lexeme} :
    ∀ {done : List Lexeme} {e : Elimination}, eliminateFrom strict done ts = .ok e →
      ({} : Reading Char).through e.lexemes = (({} : Reading Char).through done.reverse).bind (·.through ts) ∧
        (e.degraded ≠ [] → ({} : Reading Char).through e.lexemes = none) := by
  induction ts with
  | nil =>
    intro done e h
    obtain rfl := Except.ok.inj h
    simp
  | cons t ts ih =>
    intro done e h
    have harrow : ∀ r : Reading Char, r.through (.arrow :: ts) = r.imply.bind (·.through ts) := fun r => rfl
    rcases eliminateFrom_cons h with ⟨-, h⟩ | ⟨rfl, n, hn, h⟩ | ⟨rfl, hn, c, e', he, rfl⟩
    · obtain ⟨h1, h2⟩ := ih h
      rw [List.reverse_cons, through_append, Option.bind_assoc] at h1
      exact ⟨by simpa [through_singleton] using h1, h2⟩
    · obtain ⟨h1, h2⟩ := ih h
      rw [through_rewritten hn, Option.bind_assoc] at h1
      exact ⟨by simpa only [harrow] using h1, h2⟩
    · have himply : (({} : Reading Char).through done.reverse).bind (·.through (.arrow :: ts)) = none := by
        rw [Option.bind_eq_none_iff]
        intro r hr
        rw [harrow, imply_eq_none (operand_eq_none_of_operandLength? hn hr), Option.bind_none]
      have hor : ({} : Reading Char).through (.or :: done).reverse = none := by
        rw [List.reverse_cons, through_append, Option.bind_eq_none_iff]
        intro r hr
        rw [through_singleton]
        exact take_or_eq_none (operand_eq_none_of_operandLength? hn hr)
      have h1 := (ih he).1
      rw [hor, Option.bind_none] at h1
      exact ⟨h1.trans himply.symm, fun _ => h1⟩

/-- Lexemes and what the elimination makes of them are read alike. -/
theorem through_eliminate {strict : Bool} {ts : List Lexeme} {e : Elimination} (h : eliminate strict ts = .ok e) :
    ({} : Reading Char).through e.lexemes = ({} : Reading Char).through ts := by
  simpa using (through_eliminateFrom h).1

/-- If what the elimination leaves can be read, no arrow became a plain `|`. -/
theorem degraded_eq_nil_of_through {strict : Bool} {ts : List Lexeme} {e : Elimination} {s : Reading Char}
    (h : eliminate strict ts = .ok e) (hs : ({} : Reading Char).through e.lexemes = some s) : e.degraded = [] := by
  cases hd : e.degraded with
  | nil => rfl
  | cons c cs =>
    rw [(through_eliminateFrom h).2 (by simp [hd])] at hs
    cases hs

/-- Where every arrow has an operand before it when it is reached, the elimination succeeds, strict or not. -/
theorem exists_eliminateFrom_of_through {strict : Bool} {ts : List Lexeme} :
    ∀ {done : List Lexeme} {s : Reading Char}, (({} : Reading Char).through done.reverse).bind (·.through ts) = some s →
      ∃ e, eliminateFrom strict done ts = .ok e := by
  induction ts with
  | nil => intro done s _; exact ⟨_, rfl⟩
  | cons t ts ih =>
    intro done s h
    obtain ⟨r, hr, h⟩ := Option.bind_eq_some_iff.mp h
    obtain ⟨r', hr', h⟩ := Option.bind_eq_some_iff.mp h
    by_cases ht : t = .arrow
    · subst ht
      rw [eliminateFrom]
      cases hn : operandLength? done with
      | some n =>
        have hnext : (({} : Reading Char).through (rewritten done n).reverse).bind (·.through ts) = some s := by
          rw [through_rewritten hn, hr, Option.bind_some]
          exact h
        exact ih hnext
      | none =>
        rw [show r.take .arrow = r.imply from rfl, imply_eq_none (operand_eq_none_of_operandLength? hn hr)] at hr'
        cases hr'
    · have hnext : (({} : Reading Char).through (t :: done).reverse).bind (·.through ts) = some s := by
        rw [List.reverse_cons, through_append, hr, Option.bind_some, through_singleton, hr']
        exact h
      rw [eliminateFrom_cons_of_ne ht]
      exact ih hnext

/-- Without the demand for strictness the elimination always has a result. -/
theorem exists_eliminateFrom (ts : List Lexeme) : ∀ done, ∃ e, eliminateFrom false done ts = .ok e := by
  induction ts with
  | nil => intro done; exact ⟨_, rfl⟩
  | cons t ts ih =>
    intro done
    cases t with
    | arrow =>
      rw [eliminateFrom]
      cases operandLength? done with
      | some n => exact ih _
      | none =>
        obtain ⟨e, he⟩ := ih (.or :: done)
        exact ⟨_, by simp [he, Except.map]; rfl⟩
    | _ => exact ih _

/-! ## The demand for strictness -/

/-- The result, or the first of the contexts on record as an error. -/
def heed {α : Type} (contexts : List String) (a : α) : Except UnresolvedScope α :=
  match contexts with
  | [] => .ok a
  | c :: _ => .error ⟨c⟩

/-- The strict run fails where the other one makes the first entry of its record, and has the same result if there is none. The
strict run ends where the other one puts an arrow on record before all that are to come. -/
theorem eliminateFrom_strict {ts : List Lexeme} :
    ∀ {done : List Lexeme} {e : Elimination}, eliminateFrom false done ts = .ok e →
      eliminateFrom true done ts = heed e.degraded e := by
  induction ts with
  | nil =>
    intro done e h
    obtain rfl := Except.ok.inj h
    rfl
  | cons t ts ih =>
    intro done e h
    by_cases ht : t = .arrow
    · subst ht
      rw [eliminateFrom] at h ⊢
      cases hn : operandLength? done with
      | some n =>
        rw [hn] at h
        exact ih h
      | none =>
        obtain ⟨e', he'⟩ := exists_eliminateFrom ts (.or :: done)
        rw [hn] at h
        simp only [he', Except.map, Bool.false_eq_true, if_false, Except.ok.injEq] at h
        rw [← h]
        rfl
    · rw [eliminateFrom_cons_of_ne ht] at h ⊢
      exact ih h

/-! ## The lexemes that are left -/

/-- The lexemes that the elimination may write. -/
def Lexeme.IsInserted (t : Lexeme) : Prop := t ∈ [.not, .or, .lparen, .rparen]

/-- An operand is kept whole, and parentheses are all that is written around it. -/
theorem mem_guardOperand {op : List Lexeme} {t : Lexeme} :
    (t ∈ op → t ∈ guardOperand op) ∧ (t ∈ guardOperand op → t ∈ op ∨ t.IsInserted) := by
  unfold guardOperand
  split
  · exact ⟨id, Or.inl⟩
  · split
    · exact ⟨id, Or.inl⟩
    · refine ⟨fun h => by simp [h], fun h => ?_⟩
      simp only [List.mem_cons, List.mem_append, List.not_mem_nil, or_false] at h
      rcases h with rfl | h | rfl
      · exact Or.inr (by simp [Lexeme.IsInserted])
      · exact Or.inl h
      · exact Or.inr (by simp [Lexeme.IsInserted])

/-- Rewriting an arrow keeps all lexemes, and puts in none but those it may write. -/
theorem mem_rewritten {done : List Lexeme} {n : Nat} {t : Lexeme} :
    (t ∈ done → t ∈ rewritten done n) ∧ (t ∈ rewritten done n → t ∈ done ∨ t.IsInserted) := by
  obtain ⟨hkeep, hnew⟩ := @mem_guardOperand (done.take n).reverse t
  constructor
  · intro h
    rw [← List.take_append_drop n done, List.mem_append] at h
    rcases h with h | h
    · simp [rewritten, hkeep (List.mem_reverse.mpr h)]
    · simp [rewritten, h]
  · intro h
    simp only [rewritten, List.mem_cons, List.mem_append, List.mem_reverse] at h
    rcases h with rfl | h | rfl | h
    · exact Or.inr (by simp [Lexeme.IsInserted])
    · rcases hnew h with h | h
      · exact Or.inl (List.mem_of_mem_take (List.mem_reverse.mp h))
      · exact Or.inr h
    · exact Or.inr (by simp [Lexeme.IsInserted])
    · exact Or.inl (List.mem_of_mem_drop h)

/-- Nothing but the arrows is lost, and nothing but negations, disjunctions and parentheses is added. -/
theorem mem_eliminateFrom {strict : Bool} {t : Lexeme} {ts : List Lexeme} :
    ∀ {done : List Lexeme} {e : Elimination}, eliminateFrom strict done ts = .ok e →
      (t ≠ .arrow → t ∈ done ∨ t ∈ ts → t ∈ e.lexemes) ∧ (t ∈ e.lexemes → t ∈ done ∨ t ∈ ts ∨ t.IsInserted) := by
  induction ts with
  | nil =>
    intro done e h
    obtain rfl := Except.ok.inj h
    simp +contextual
  | cons u ts ih =>
    intro done e h
    rcases eliminateFrom_cons h with ⟨-, h⟩ | ⟨rfl, n, -, h⟩ | ⟨rfl, -, c, e', he, rfl⟩
    · obtain ⟨h1, h2⟩ := ih h
      grind
    · obtain ⟨h1, h2⟩ := ih h
      obtain ⟨hkeep, hnew⟩ := @mem_rewritten done n t
      grind
    · obtain ⟨h1, h2⟩ := ih he
      have : t = .or → t.IsInserted := by rintro rfl; simp [Lexeme.IsInserted]
      grind

/-- The elimination keeps all lexemes but arrows, and puts in none but those it may write. -/
theorem mem_eliminate {strict : Bool} {ts : List Lexeme} {e : Elimination} (h : eliminate strict ts = .ok e) {t : Lexeme} :
    (t ≠ .arrow → t ∈ ts → t ∈ e.lexemes) ∧ (t ∈ e.lexemes → t ∈ ts ∨ t.IsInserted) := by
  have h := mem_eliminateFrom (t := t) h
  simpa using h

/-- No arrow is left. -/
theorem arrow_not_mem_eliminateFrom {strict : Bool} {ts : List Lexeme} :
    ∀ {done : List Lexeme} {e : Elimination}, eliminateFrom strict done ts = .ok e → .arrow ∉ done → .arrow ∉ e.lexemes := by
  induction ts with
  | nil =>
    intro done e h hd
    obtain rfl := Except.ok.inj h
    simpa using hd
  | cons u ts ih =>
    intro done e h hd
    rcases eliminateFrom_cons h with ⟨hu, h⟩ | ⟨rfl, n, -, h⟩ | ⟨rfl, -, c, e', he, rfl⟩
    · refine ih h fun hm => ?_
      rcases List.mem_cons.mp hm with hm | hm
      · exact hu hm.symm
      · exact hd hm
    · refine ih h fun hm => ?_
      rcases mem_rewritten.2 hm with hm | hm
      · exact hd hm
      · simp [Lexeme.IsInserted] at hm
    · have hleft := ih he (by simpa using hd)
      exact hleft

/-- The elimination leaves no arrow. -/
theorem arrow_not_mem_eliminate {strict : Bool} {ts : List Lexeme} {e : Elimination} (h : eliminate strict ts = .ok e) :
    .arrow ∉ e.lexemes :=
  arrow_not_mem_eliminateFrom h (by simp)

end Propositional.Latex
