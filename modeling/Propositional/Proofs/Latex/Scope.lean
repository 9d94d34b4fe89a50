import Propositional.Proofs.Latex.Elimination

/-!
# Operands in rewritten lexemes

The elimination looks for the operand of an arrow in what it has already rewritten. It finds there what stands in the original
lexemes: an operand is closed, so no rewriting of an arrow inside it reaches out of it and none outside of it reaches in
(`held_eq_append`), what is put around an operand is passed as a whole by a search that starts behind it
(`groupLength?_append_of_closed`), and a search without success in the one list has none in the other
(`operandLength?_held_of_none`).

Lists of lexemes are reversed here, as the elimination holds them.
-/

namespace Propositional.Latex

/-! ## Depth -/

/-- A lexeme that is no parenthesis leaves the depth as it is. -/
theorem depthAfter?_singleton {t : Lexeme} (h : t.paren? = none) (d : Nat) : depthAfter? Lexeme.paren? d [t] = some d := by
  rw [depthAfter?_cons, h]
  rfl

/-- Negations leave the depth as it is. -/
theorem depthAfter?_replicate_not (n d : Nat) : depthAfter? Lexeme.paren? d (List.replicate n .not) = some d := by
  induction n with
  | zero => rfl
  | succ n ih => exact ih

/-- A closed part in parentheses is closed. -/
theorem depthAfter?_group {us : List Lexeme} (h : depthAfter? Lexeme.paren? 0 us = some 0) (d : Nat) :
    depthAfter? Lexeme.paren? d (.lparen :: (us ++ [.rparen])) = some d := by
  rw [depthAfter?_cons, show nextDepth? d (Lexeme.paren? .lparen) = some (d + 1) from rfl, Option.bind_some, depthAfter?_append,
    depthAfter?_of_closed h, Option.bind_some]
  rfl

/-- An operand is closed. -/
theorem IsCore.depthAfter?_negated {core : List Lexeme} (h : IsCore core) (m d : Nat) :
    depthAfter? Lexeme.paren? d (List.replicate m .not ++ core) = some d := by
  rw [depthAfter?_append, depthAfter?_replicate_not, Option.bind_some]
  rcases h with ⟨c, rfl⟩ | ⟨us, rfl, hd⟩
  · rfl
  · exact depthAfter?_group hd d

/-- An operand closes what it opens, and nothing else. -/
theorem depthAfter?_operand {done : List Lexeme} {n : Nat} (h : operandLength? done = some n) :
    depthAfter? Lexeme.paren? 0 (done.take n).reverse = some 0 := by
  obtain ⟨m, core, hcore, hop, -⟩ := operandLength?_eq_some h
  rw [hop, hcore.depthAfter?_negated]

/-- Parentheses around an operand leave it closed. -/
theorem depthAfter?_guardOperand {op : List Lexeme} (h : depthAfter? Lexeme.paren? 0 op = some 0) :
    depthAfter? Lexeme.paren? 0 (guardOperand op) = some 0 := by
  unfold guardOperand
  split
  · exact h
  · split
    · exact h
    · exact depthAfter?_group h 0

/-! ## Searches -/

/-- A group that is found is found whatever follows. -/
theorem groupLength?_append {ts : List Lexeme} (us : List Lexeme) :
    ∀ {d : Int} {n : Nat}, groupLength? d ts = some n → groupLength? d (ts ++ us) = some n := by
  induction ts with
  | nil => intro d n h; cases h
  | cons t ts ih =>
    intro d n h
    cases t with
    | lparen =>
      rw [List.cons_append]
      simp only [groupLength?] at h ⊢
      split
      · rename_i hd
        rwa [if_pos hd] at h
      · rename_i hd
        rw [if_neg hd] at h
        obtain ⟨m, hm, rfl⟩ := Option.map_eq_some_iff.mp h
        rw [ih hm]
        rfl
    | _ =>
      obtain ⟨m, hm, rfl⟩ := Option.map_eq_some_iff.mp h
      exact Option.map_eq_some_iff.mpr ⟨m, ih hm, rfl⟩

/-- A group that is found is no longer than the list. -/
theorem groupLength?_le {ts : List Lexeme} : ∀ {d : Int} {n : Nat}, groupLength? d ts = some n → n ≤ ts.length := by
  induction ts with
  | nil => intro d n h; cases h
  | cons t ts ih =>
    intro d n h
    cases t with
    | lparen =>
      simp only [groupLength?] at h
      split at h
      · obtain rfl := Option.some.inj h
        simp
      · obtain ⟨m, hm, rfl⟩ := Option.map_eq_some_iff.mp h
        simpa using ih hm
    | _ =>
      obtain ⟨m, hm, rfl⟩ := Option.map_eq_some_iff.mp h
      simpa using ih hm

/-- A search for more than what a part leaves open goes through all of the part. -/
theorem groupLength?_append_of_closed {y : List Lexeme} (us : List Lexeme) (d : Nat) :
    ∀ {e f : Nat}, depthAfter? Lexeme.paren? e y.reverse = some f →
      groupLength? (d + f + 1 : Nat) (y ++ us) = (groupLength? (d + e + 1 : Nat) us).map (· + y.length) := by
  induction y with
  | nil =>
    intro e f h
    obtain rfl := Option.some.inj h
    simp
  | cons t y ih =>
    intro e f h
    rw [List.reverse_cons, depthAfter?_append] at h
    obtain ⟨g, hg, h⟩ := Option.bind_eq_some_iff.mp h
    have ih := ih hg
    have hlen : ∀ o : Option Nat, (o.map (· + y.length)).map (· + 1) = o.map (· + (t :: y).length) := fun o => by
      cases o <;> rfl
    cases t with
    | rparen =>
      cases g with
      | zero => cases h
      | succ g =>
        obtain rfl : g = f := Option.some.inj h
        rw [← hlen, ← ih]
        rfl
    | lparen =>
      obtain rfl : g + 1 = f := Option.some.inj h
      rw [← hlen, ← ih, List.cons_append]
      exact groupLength?_lparen (d + g) (y ++ us)
    | _ =>
      obtain rfl : g = f := Option.some.inj h
      rw [← hlen, ← ih]
      rfl

/-- The negations are those of the first part, if the second does not start with one. -/
theorem negationCount_append {y z : List Lexeme} (h : z.head? ≠ some .not) : negationCount (y ++ z) = negationCount y := by
  induction y with
  | nil =>
    cases z with
    | nil => rfl
    | cons t z =>
      have ht : t ≠ .not := by simpa using h
      simp [negationCount, ht]
  | cons t y ih =>
    by_cases ht : t = .not
    · subst ht
      simpa [negationCount] using ih
    · simp [negationCount, ht]

/-- The negations before what starts with none are those put there. -/
theorem negationCount_replicate_append {z : List Lexeme} (h : z.head? ≠ some .not) (m : Nat) :
    negationCount (List.replicate m .not ++ z) = m := by
  rw [negationCount_append h]
  simp [negationCount]

/-! ## The length of an operand by what the list starts with -/

theorem operandLength?_atom (c : Char) (v : List Lexeme) : operandLength? (.atom c :: v) = some (1 + negationCount v) := rfl

theorem operandLength?_rparen (v : List Lexeme) :
    operandLength? (.rparen :: v) = (groupLength? 1 v).map fun n => n + 1 + negationCount (v.drop n) := by
  show ((groupLength? 0 (.rparen :: v)).map fun n => n + negationCount ((.rparen :: v).drop n)) = _
  rw [groupLength?, Option.map_map]
  rfl

/-- No operand ends with anything else than an atom or a `)`. -/
theorem operandLength?_of_ne {t : Lexeme} (ha : ∀ c, t ≠ .atom c) (hr : t ≠ .rparen) (v : List Lexeme) :
    operandLength? (t :: v) = none := by
  cases t with
  | atom c => exact absurd rfl (ha c)
  | rparen => exact absurd rfl hr
  | _ => rfl

/-- An operand has a lexeme, and no more than there are. -/
theorem operandLength?_le {ts : List Lexeme} {n : Nat} (h : operandLength? ts = some n) : 1 ≤ n ∧ n ≤ ts.length := by
  have hneg : ∀ v : List Lexeme, negationCount v ≤ v.length := fun v => by
    unfold negationCount
    exact (List.takeWhile_sublist _).length_le
  cases ts with
  | nil => cases h
  | cons t v =>
    by_cases hr : t = .rparen
    · subst hr
      rw [operandLength?_rparen] at h
      obtain ⟨m, hm, rfl⟩ := Option.map_eq_some_iff.mp h
      have h1 := groupLength?_le hm
      have h2 := hneg (v.drop m)
      rw [List.length_drop] at h2
      rw [List.length_cons]
      omega
    · by_cases ha : ∃ c, t = .atom c
      · obtain ⟨c, rfl⟩ := ha
        rw [operandLength?_atom] at h
        obtain rfl := Option.some.inj h
        have := hneg v
        rw [List.length_cons]
        omega
      · rw [operandLength?_of_ne (fun c hc => ha ⟨c, hc⟩) hr] at h
        cases h

/-- The operand by its place, and not by its length. -/
theorem findLeftOperand?_eq {ts : List Lexeme} {k : Nat} (hk : k ≤ ts.length) :
    findLeftOperand? ts k = .ok ((operandLength? (readBack ts k)).map (k - ·)) := if_pos hk

/-- As many lexemes are read backwards from a place as stand before it. -/
theorem length_readBack {ts : List Lexeme} {k : Nat} (hk : k ≤ ts.length) : (readBack ts k).length = k := by
  rw [readBack, List.length_reverse, List.length_take_of_le hk]

/-- The left operand is found where the search backwards ends. -/
theorem findLeftOperand?_eq_some_iff {ts : List Lexeme} {k s : Nat} (hk : k ≤ ts.length) :
    findLeftOperand? ts k = .ok (some s) ↔ s ≤ k ∧ operandLength? (readBack ts k) = some (k - s) := by
  rw [findLeftOperand?_eq hk, Except.ok.injEq, Option.map_eq_some_iff]
  constructor
  · rintro ⟨n, hn, rfl⟩
    have hle := (operandLength?_le hn).2
    rw [length_readBack hk] at hle
    exact ⟨Nat.sub_le k n, by rw [hn, Nat.sub_sub_self hle]⟩
  · rintro ⟨hle, hn⟩
    exact ⟨k - s, hn, Nat.sub_sub_self hle⟩

/-- In a group that is open, the operand is looked for inside the group only. -/
theorem operandLength?_append_lparen {y : List Lexeme} {e : Nat} (h : depthAfter? Lexeme.paren? 0 y.reverse = some e)
    (z : List Lexeme) : operandLength? (y ++ .lparen :: z) = operandLength? y := by
  have hneg : ∀ x : List Lexeme, negationCount (x ++ .lparen :: z) = negationCount x := fun x =>
    negationCount_append (by simp)
  cases y with
  | nil => rfl
  | cons t v =>
    rw [List.cons_append]
    by_cases hr : t = .rparen
    · subst hr
      rw [List.reverse_cons, depthAfter?_append] at h
      obtain ⟨g, hg, h⟩ := Option.bind_eq_some_iff.mp h
      have hpos : 0 + 1 ≤ g := by
        cases g with
        | zero => cases h
        | succ g => omega
      obtain ⟨n, hn⟩ := Option.ne_none_iff_exists'.mp (groupLength?_ne_none (d := 0) hg hpos)
      have hn : groupLength? 1 v = some n := hn
      rw [operandLength?_rparen, operandLength?_rparen, hn, groupLength?_append _ hn, Option.map_some, Option.map_some,
        List.drop_append_of_le_length (groupLength?_le hn), hneg]
    · by_cases ha : ∃ c, t = .atom c
      · obtain ⟨c, rfl⟩ := ha
        rw [operandLength?_atom, operandLength?_atom, hneg]
      · rw [operandLength?_of_ne (fun c hc => ha ⟨c, hc⟩) hr, operandLength?_of_ne (fun c hc => ha ⟨c, hc⟩) hr]

/-! ## What the elimination holds -/

/-- What the elimination holds once it has read the given lexemes. -/
def held : List Lexeme → List Lexeme
  | [] => []
  | .arrow :: us =>
    match operandLength? (held us) with
    | some n => rewritten (held us) n
    | none => .or :: held us
  | t :: us => t :: held us

/-- What is no arrow is held as it is. -/
theorem held_cons {t : Lexeme} (h : t ≠ .arrow) (us : List Lexeme) : held (t :: us) = t :: held us := by
  cases t <;> first | rfl | exact absurd rfl h

/-- An arrow with an operand is held as it is rewritten. -/
theorem held_arrow_of_some {us : List Lexeme} {n : Nat} (h : operandLength? (held us) = some n) :
    held (.arrow :: us) = rewritten (held us) n := by
  rw [held, h]

/-- An arrow without an operand is held as `|`. -/
theorem held_arrow_of_none {us : List Lexeme} (h : operandLength? (held us) = none) : held (.arrow :: us) = .or :: held us := by
  rw [held, h]

/-- Negations are held as they are. -/
theorem held_replicate_not_append (m : Nat) (us : List Lexeme) :
    held (List.replicate m .not ++ us) = List.replicate m .not ++ held us := by
  induction m with
  | zero => rfl
  | succ m ih => rw [List.replicate_succ, List.cons_append, held_cons (by simp), ih, List.cons_append]

/-- An arrow is held as `|`, with its operand or without. -/
theorem head?_held_arrow (us : List Lexeme) : (held (.arrow :: us)).head? = some .or := by
  cases h : operandLength? (held us) with
  | some n => rw [held_arrow_of_some h]; rfl
  | none => rw [held_arrow_of_none h]; rfl

/-- What does not end with a negation is not held so that it does. -/
theorem head?_held_ne_not {us : List Lexeme} (h : us.head? ≠ some .not) : (held us).head? ≠ some .not := by
  cases us with
  | nil => exact h
  | cons t us =>
    by_cases ht : t = .arrow
    · subst ht
      rw [head?_held_arrow]
      simp
    · rwa [held_cons ht]

/-- The rewriting of an arrow leaves the depth of parentheses as it is. -/
theorem depthAfter?_rewritten {done : List Lexeme} {n : Nat} (h : operandLength? done = some n) (d : Nat) :
    depthAfter? Lexeme.paren? d (rewritten done n).reverse = depthAfter? Lexeme.paren? d done.reverse := by
  have hclosed := depthAfter?_operand h
  have hsplit : done.reverse = (done.drop n).reverse ++ (done.take n).reverse := by
    rw [← List.reverse_append, List.take_append_drop]
  have hnew : (rewritten done n).reverse =
      (done.drop n).reverse ++ ([.not] ++ (guardOperand (done.take n).reverse ++ [.or])) := by
    simp [rewritten]
  rw [hnew, hsplit, depthAfter?_append, depthAfter?_append]
  congr 1
  funext e
  rw [depthAfter?_append, depthAfter?_singleton rfl, Option.bind_some, depthAfter?_append,
    depthAfter?_of_closed (depthAfter?_guardOperand hclosed), depthAfter?_of_closed hclosed, Option.bind_some,
    depthAfter?_singleton rfl]

/-- What is held has the depth of what was read. -/
theorem depthAfter?_held (us : List Lexeme) (d : Nat) :
    depthAfter? Lexeme.paren? d (held us).reverse = depthAfter? Lexeme.paren? d us.reverse := by
  induction us with
  | nil => rfl
  | cons t us ih =>
    by_cases ht : t = .arrow
    · subst ht
      have harrow : depthAfter? Lexeme.paren? d (Lexeme.arrow :: us).reverse = depthAfter? Lexeme.paren? d us.reverse := by
        rw [List.reverse_cons, depthAfter?_append]
        cases depthAfter? Lexeme.paren? d us.reverse <;> rfl
      rw [harrow, ← ih]
      cases h : operandLength? (held us) with
      | some n => rw [held_arrow_of_some h, depthAfter?_rewritten h]
      | none =>
        rw [held_arrow_of_none h, List.reverse_cons, depthAfter?_append]
        cases depthAfter? Lexeme.paren? d (held us).reverse <;> rfl
    · rw [held_cons ht, List.reverse_cons, List.reverse_cons, depthAfter?_append, depthAfter?_append, ih]

/-! ## The operand in what is held -/

/-- A core with all the negations before it is the operand that is found. -/
theorem IsCore.operandLength?_append {core rest : List Lexeme} (h : IsCore core) (hrest : rest.head? ≠ some .not) (m : Nat) :
    operandLength? (core.reverse ++ (List.replicate m .not ++ rest)) = some (core.length + m) := by
  rcases h with ⟨c, rfl⟩ | ⟨us, rfl, hd⟩
  · exact congrArg (fun n => some (1 + n)) (negationCount_replicate_append hrest m)
  · have hgroup : groupLength? 1 (us.reverse ++ .lparen :: (List.replicate m .not ++ rest)) = some (us.length + 1) := by
      have := groupLength?_append_of_closed (y := us.reverse) (.lparen :: (List.replicate m .not ++ rest)) 0
        (by rw [List.reverse_reverse]; exact hd)
      refine this.trans (congrArg some ?_)
      rw [List.length_reverse, Nat.add_comm]
    have hdrop : (us.reverse ++ Lexeme.lparen :: (List.replicate m .not ++ rest)).drop (us.length + 1) =
        List.replicate m .not ++ rest := by
      rw [← List.length_reverse, ← List.drop_drop, List.drop_left]
      rfl
    have hreverse : (Lexeme.lparen :: (us ++ [.rparen])).reverse ++ (List.replicate m .not ++ rest) =
        .rparen :: (us.reverse ++ .lparen :: (List.replicate m .not ++ rest)) := by simp
    rw [hreverse, operandLength?_rparen, hgroup, Option.map_some, hdrop, negationCount_replicate_append hrest]
    simp

/-- No rewriting inside a group that is open reaches out of it. -/
theorem held_append_lparen {y : List Lexeme} (x : List Lexeme) :
    ∀ {e : Nat}, depthAfter? Lexeme.paren? 0 y.reverse = some e → held (y ++ .lparen :: x) = held y ++ .lparen :: held x := by
  induction y with
  | nil => intro e _; rfl
  | cons t y ih =>
    intro e h
    rw [List.reverse_cons, depthAfter?_append] at h
    obtain ⟨g, hg, -⟩ := Option.bind_eq_some_iff.mp h
    have ih := ih hg
    rw [List.cons_append]
    by_cases ht : t = .arrow
    · subst ht
      have hop : operandLength? (held (y ++ .lparen :: x)) = operandLength? (held y) := by
        rw [ih, operandLength?_append_lparen ((depthAfter?_held y 0).trans hg)]
      cases hn : operandLength? (held y) with
      | some n =>
        rw [held_arrow_of_some (hop.trans hn), held_arrow_of_some hn, ih, rewritten, rewritten,
          List.take_append_of_le_length (operandLength?_le hn).2, List.drop_append_of_le_length (operandLength?_le hn).2]
        simp
      | none => rw [held_arrow_of_none (hop.trans hn), held_arrow_of_none hn, ih, List.cons_append]
    · rw [held_cons ht, held_cons ht, ih, List.cons_append]

/-- A core stands in what is held with its own rewriting. -/
theorem IsCore.held_append {core : List Lexeme} (h : IsCore core) :
    ∃ core', IsCore core' ∧ core'.head? = core.head? ∧ ∀ us, held (core.reverse ++ us) = core'.reverse ++ held us := by
  rcases h with ⟨c, rfl⟩ | ⟨us, rfl, hd⟩
  · exact ⟨[.atom c], .inl ⟨c, rfl⟩, rfl, fun us => rfl⟩
  · refine ⟨.lparen :: ((held us.reverse).reverse ++ [.rparen]), .inr ⟨_, rfl, ?_⟩, rfl, fun vs => ?_⟩
    · rw [depthAfter?_held, List.reverse_reverse, hd]
    · have hclosed : depthAfter? Lexeme.paren? 0 us.reverse.reverse = some 0 := by rw [List.reverse_reverse, hd]
      have := held_append_lparen vs hclosed
      simp [held, this]

/-- The operand of an arrow is found where it stands in the lexemes that were read: what is held falls into the rewriting of the
operand and the rewriting of what stands before it. -/
theorem held_eq_append {us : List Lexeme} {n : Nat} (h : operandLength? us = some n) :
    ∃ m core core', IsCore core ∧ IsCore core' ∧ core'.head? = core.head? ∧
      (us.take n).reverse = List.replicate m .not ++ core ∧
      (held (us.take n)).reverse = List.replicate m .not ++ core' ∧
      held us = held (us.take n) ++ held (us.drop n) ∧
      operandLength? (held us) = some (held (us.take n)).length := by
  obtain ⟨m, core, hcore, hop, hrest⟩ := operandLength?_eq_some h
  obtain ⟨core', hcore', hhead, heq⟩ := hcore.held_append
  have htake : us.take n = core.reverse ++ (List.replicate m .not ++ []) := by
    rw [List.append_nil, ← List.reverse_reverse (us.take n), hop, List.reverse_append, List.reverse_replicate]
  have hus : us = core.reverse ++ (List.replicate m .not ++ us.drop n) := by
    conv_lhs => rw [← List.take_append_drop n us, htake]
    simp
  have hheld : held us = core'.reverse ++ (List.replicate m .not ++ held (us.drop n)) := by
    conv_lhs => rw [hus, heq, held_replicate_not_append]
  have hheldtake : held (us.take n) = core'.reverse ++ List.replicate m .not := by
    rw [htake, heq, held_replicate_not_append, held, List.append_nil]
  refine ⟨m, core, core', hcore, hcore', hhead, hop, ?_, ?_, ?_⟩
  · rw [hheldtake, List.reverse_append, List.reverse_replicate, List.reverse_reverse]
  · rw [hheld, hheldtake, List.append_assoc]
  · rw [hheld, hcore'.operandLength?_append (head?_held_ne_not hrest), hheldtake]
    simp

/-- A search for more than one group goes through the rewriting of an arrow. -/
theorem groupLength?_rewritten {done : List Lexeme} {n d : Nat} (h : operandLength? done = some n)
    (hd : groupLength? (d + 1 : Nat) done = none) : groupLength? (d + 1 : Nat) (rewritten done n) = none := by
  have hclosed := depthAfter?_operand h
  have hrest : groupLength? (d + 1 : Nat) (done.drop n) = none := by
    have := groupLength?_append_of_closed (done.drop n) d hclosed
    rw [List.take_append_drop] at this
    exact Option.map_eq_none_iff.mp (this.symm.trans hd)
  have hguard : depthAfter? Lexeme.paren? 0 (guardOperand (done.take n).reverse).reverse.reverse = some 0 := by
    rw [List.reverse_reverse]
    exact depthAfter?_guardOperand hclosed
  have hnot : groupLength? (d + 1 : Nat) (.not :: done.drop n) = none := Option.map_eq_none_iff.mpr hrest
  have := groupLength?_append_of_closed (.not :: done.drop n) d hguard
  rw [Nat.add_zero, hnot] at this
  exact Option.map_eq_none_iff.mpr this

/-- Where no group is found, none is found among what is held. -/
theorem groupLength?_held {us : List Lexeme} :
    ∀ {d : Nat}, groupLength? (d + 1 : Nat) us = none → groupLength? (d + 1 : Nat) (held us) = none := by
  induction us with
  | nil => intro d h; exact h
  | cons t us ih =>
    intro d h
    cases t with
    | arrow =>
      have hd := ih (Option.map_eq_none_iff.mp h)
      cases hn : operandLength? (held us) with
      | some n => rw [held_arrow_of_some hn, groupLength?_rewritten hn hd]
      | none =>
        rw [held_arrow_of_none hn]
        exact Option.map_eq_none_iff.mpr hd
    | rparen => exact Option.map_eq_none_iff.mpr (ih (d := d + 1) (Option.map_eq_none_iff.mp h))
    | lparen =>
      cases d with
      | zero => cases h
      | succ d =>
        rw [groupLength?_lparen] at h
        rw [held_cons (by simp), groupLength?_lparen]
        exact Option.map_eq_none_iff.mpr (ih (Option.map_eq_none_iff.mp h))
    | _ => exact Option.map_eq_none_iff.mpr (ih (Option.map_eq_none_iff.mp h))

/-- An arrow that has no operand in the lexemes that were read has none in what is held. -/
theorem operandLength?_held_of_none {us : List Lexeme} (h : operandLength? us = none) : operandLength? (held us) = none := by
  cases us with
  | nil => rfl
  | cons t us =>
    cases t with
    | atom c => cases h
    | rparen =>
      rw [operandLength?_rparen] at h
      have hgroup : groupLength? 1 (held us) = none := groupLength?_held (d := 0) (Option.map_eq_none_iff.mp h)
      rw [held_cons (by simp), operandLength?_rparen, hgroup, Option.map_none]
    | arrow =>
      cases hn : operandLength? (held us) with
      | some n =>
        rw [held_arrow_of_some hn]
        rfl
      | none =>
        rw [held_arrow_of_none hn]
        rfl
    | _ => rfl

/-- An operand is found among what is held exactly if one was read. -/
theorem operandLength?_held_eq_none_iff {us : List Lexeme} : operandLength? (held us) = none ↔ operandLength? us = none := by
  refine ⟨fun h => ?_, operandLength?_held_of_none⟩
  cases hn : operandLength? us with
  | none => rfl
  | some n =>
    obtain ⟨-, -, -, -, -, -, -, -, -, hsome⟩ := held_eq_append hn
    rw [hsome] at h
    cases h

end Propositional.Latex
