import Propositional.Proofs.Formula.Reading

/-!
# The grammar of formulas

`Derives` is the grammar in the form in which it is usually given, with a repetition at each level of binding:

    biconditional ::= disjunction (('==' | '!=') disjunction)*
    disjunction   ::= conjunction ('|' conjunction)*
    conjunction   ::= unary ('&' unary)*
    unary         ::= '!' unary | leaf | '(' biconditional ')'

It says which tokens are a formula and not which formula they are. `Writes` says that: a tree is written with tokens if `!` binds
tightest in it, then `&`, then `|`, then the equivalences, if each binary connective groups to the left, and if parentheses leave
no node. The reader takes exactly what the grammar derives and makes the one tree that is written so (`parse_exact`).
-/

namespace Propositional

/-- The connective that a token writes at the loosest level of binding, if it is one of that level. -/
def Token.equivalence? {α : Type} : Token α → Option Connective
  | .equiv _ => some .equiv
  | .xor _ => some .xor
  | _ => none

namespace Grammar

variable {α : Type}

/-- The nonterminals of the grammar, loosest binding first. -/
inductive Nonterminal where
  | biconditional | disjunction | conjunction | unary
  deriving DecidableEq, Repr

/-- The lists of tokens that the grammar derives from a nonterminal. -/
inductive Derives : Nonterminal → List (Token α) → Prop where
  | leaf (a : α) : Derives .unary [.leaf a]
  | not {ts : List (Token α)} : Derives .unary ts → Derives .unary (.not :: ts)
  | group {ts : List (Token α)} : Derives .biconditional ts → Derives .unary (.lparen :: (ts ++ [.rparen]))
  | conjunction {ts : List (Token α)} {rest : List (List (Token α))} :
      Derives .unary ts → (∀ us ∈ rest, Derives .unary us) → Derives .conjunction (ts ++ rest.flatMap (.and :: ·))
  | disjunction {ts : List (Token α)} {rest : List (List (Token α))} :
      Derives .conjunction ts → (∀ us ∈ rest, Derives .conjunction us) →
        Derives .disjunction (ts ++ rest.flatMap (.or :: ·))
  | biconditional {ts : List (Token α)} {rest : List (Token α × List (Token α))} :
      Derives .disjunction ts → (∀ p ∈ rest, p.1.equivalence?.isSome) → (∀ p ∈ rest, Derives .disjunction p.2) →
        Derives .biconditional (ts ++ rest.flatMap fun p => p.1 :: p.2)

/-- A tree is written with a list of tokens, at a level of binding. -/
inductive Writes : Nonterminal → Formula α → List (Token α) → Prop where
  | leaf (a : α) : Writes .unary (.leaf a) [.leaf a]
  | not {f : Formula α} {ts : List (Token α)} : Writes .unary f ts → Writes .unary (.not f) (.not :: ts)
  | group {f : Formula α} {ts : List (Token α)} :
      Writes .biconditional f ts → Writes .unary f (.lparen :: (ts ++ [.rparen]))
  | ofUnary {f : Formula α} {ts : List (Token α)} : Writes .unary f ts → Writes .conjunction f ts
  | and {l r : Formula α} {ts us : List (Token α)} :
      Writes .conjunction l ts → Writes .unary r us → Writes .conjunction (.binary .and l r) (ts ++ .and :: us)
  | ofConjunction {f : Formula α} {ts : List (Token α)} : Writes .conjunction f ts → Writes .disjunction f ts
  | or {l r : Formula α} {ts us : List (Token α)} :
      Writes .disjunction l ts → Writes .conjunction r us → Writes .disjunction (.binary .or l r) (ts ++ .or :: us)
  | ofDisjunction {f : Formula α} {ts : List (Token α)} : Writes .disjunction f ts → Writes .biconditional f ts
  | equivalence {l r : Formula α} {ts us : List (Token α)} {t : Token α} {c : Connective} :
      t.equivalence? = some c → Writes .biconditional l ts → Writes .disjunction r us →
        Writes .biconditional (.binary c l r) (ts ++ t :: us)

/-! ## What is written is derived, and the other way round -/

/-- One more operand of a conjunction. -/
theorem Derives.and {ts us : List (Token α)} (h : Derives .conjunction ts) (hu : Derives .unary us) :
    Derives .conjunction (ts ++ .and :: us) := by
  cases h with
  | @conjunction vs rest hv hr =>
    have := @Derives.conjunction _ _ (rest ++ [us]) hv (List.forall_mem_append.mpr ⟨hr, List.forall_mem_singleton.mpr hu⟩)
    simpa using this

/-- One more operand of a disjunction. -/
theorem Derives.or {ts us : List (Token α)} (h : Derives .disjunction ts) (hu : Derives .conjunction us) :
    Derives .disjunction (ts ++ .or :: us) := by
  cases h with
  | @disjunction vs rest hv hr =>
    have := @Derives.disjunction _ _ (rest ++ [us]) hv (List.forall_mem_append.mpr ⟨hr, List.forall_mem_singleton.mpr hu⟩)
    simpa using this

/-- One more operand of a chain of equivalences. -/
theorem Derives.equivalence {ts us : List (Token α)} {t : Token α} (h : Derives .biconditional ts)
    (ht : t.equivalence?.isSome) (hu : Derives .disjunction us) : Derives .biconditional (ts ++ t :: us) := by
  cases h with
  | @biconditional vs rest hv hs hr =>
    have hs' : ∀ p ∈ rest ++ [(t, us)], p.1.equivalence?.isSome :=
      List.forall_mem_append.mpr ⟨hs, List.forall_mem_singleton.mpr ht⟩
    have hr' : ∀ p ∈ rest ++ [(t, us)], Derives .disjunction p.2 :=
      List.forall_mem_append.mpr ⟨hr, List.forall_mem_singleton.mpr hu⟩
    simpa using Derives.biconditional hv hs' hr'

/-- The grammar derives every list of tokens that writes a tree. -/
theorem Writes.derives {n : Nonterminal} {f : Formula α} {ts : List (Token α)} (h : Writes n f ts) : Derives n ts := by
  induction h with
  | leaf a => exact .leaf a
  | not _ ih => exact .not ih
  | group _ ih => exact .group ih
  | ofUnary _ ih => simpa using @Derives.conjunction _ _ [] ih (by simp)
  | and _ _ ihl ihr => exact ihl.and ihr
  | ofConjunction _ ih => simpa using @Derives.disjunction _ _ [] ih (by simp)
  | or _ _ ihl ihr => exact ihl.or ihr
  | ofDisjunction _ ih => simpa using @Derives.biconditional _ _ [] ih (by simp) (by simp)
  | equivalence hc _ _ ihl ihr => exact ihl.equivalence (by rw [hc]; rfl) ihr

/-- A token joins what is written at two levels to something that is written at the first of them. -/
def Joins (n m : Nonterminal) (t : Token α) : Prop :=
  ∀ {f g : Formula α} {ts us : List (Token α)}, Writes n f ts → Writes m g us → ∃ k : Formula α, Writes n k (ts ++ t :: us)

/-- A repetition behind a first operand is written as a tree, one operand after the other. -/
theorem Writes.chain {n m : Nonterminal} {rest : List (Token α × List (Token α))} (hj : ∀ p ∈ rest, Joins n m p.1)
    (hw : ∀ p ∈ rest, ∃ g, Writes m g p.2) :
    ∀ {f : Formula α} {ts : List (Token α)}, Writes n f ts → ∃ k, Writes n k (ts ++ rest.flatMap fun p => p.1 :: p.2) := by
  induction rest with
  | nil => intro f ts h; exact ⟨f, by simpa using h⟩
  | cons p rest ih =>
    intro f ts h
    obtain ⟨g, hg⟩ := hw p (by simp)
    obtain ⟨k, hk⟩ := hj p (by simp) h hg
    obtain ⟨k', hk'⟩ := ih (fun q hq => hj q (by simp [hq])) (fun q hq => hw q (by simp [hq])) hk
    exact ⟨k', by simpa using hk'⟩

/-- Every list of tokens that the grammar derives writes a tree. -/
theorem Derives.exists_writes {n : Nonterminal} {ts : List (Token α)} (h : Derives n ts) : ∃ f, Writes n f ts := by
  induction h with
  | leaf a => exact ⟨_, .leaf a⟩
  | not _ ih => obtain ⟨f, hf⟩ := ih; exact ⟨_, .not hf⟩
  | group _ ih => obtain ⟨f, hf⟩ := ih; exact ⟨_, .group hf⟩
  | @conjunction ts rest _ _ ih ihr =>
    obtain ⟨f, hf⟩ := ih
    have hj : ∀ p ∈ rest.map (Prod.mk .and), @Joins α .conjunction .unary p.1 := by
      simp only [List.forall_mem_map]
      exact fun _ _ _ _ _ _ hl hr => ⟨_, .and hl hr⟩
    simpa [List.flatMap_map] using Writes.chain hj (by simpa using ihr) (.ofUnary hf)
  | @disjunction ts rest _ _ ih ihr =>
    obtain ⟨f, hf⟩ := ih
    have hj : ∀ p ∈ rest.map (Prod.mk .or), @Joins α .disjunction .conjunction p.1 := by
      simp only [List.forall_mem_map]
      exact fun _ _ _ _ _ _ hl hr => ⟨_, .or hl hr⟩
    simpa [List.flatMap_map] using Writes.chain hj (by simpa using ihr) (.ofConjunction hf)
  | @biconditional ts rest _ hs _ ih ihr =>
    obtain ⟨f, hf⟩ := ih
    have hj : ∀ p ∈ rest, @Joins α .biconditional .disjunction p.1 := by
      intro p hp _ _ _ _ hl hr
      obtain ⟨c, hc⟩ := Option.isSome_iff_exists.mp (hs p hp)
      exact ⟨_, .equivalence hc hl hr⟩
    exact Writes.chain hj ihr (.ofDisjunction hf)

/-! ## The reader takes what is written -/

/-- What the reader makes of tokens that write a formula: at the level of a unary, the negations and the operand behind them; at
each other level, what the pending left sides of that level and the tighter ones come to with the last operand. The looser levels
and the groups around stay as they are. -/
def Read (f : Formula α) (ts : List (Token α)) : Nonterminal → Prop
  | .unary => ∃ n c, f = c.negate n ∧ ∀ gs g,
      (⟨gs, g, none⟩ : Reading α).after ts = some ⟨gs, { g with negations := g.negations + n }, some c⟩
  | .conjunction => ∀ gs e d, ∃ g c, g.conjoin c = f ∧ g.equivalence = e ∧ g.disjunction = d ∧
      (⟨gs, { equivalence := e, disjunction := d }, none⟩ : Reading α).after ts = some ⟨gs, g, some c⟩
  | .disjunction => ∀ gs e, ∃ g c, g.disjoin c = f ∧ g.equivalence = e ∧
      (⟨gs, { equivalence := e }, none⟩ : Reading α).after ts = some ⟨gs, g, some c⟩
  | .biconditional => ∀ gs, ∃ g c, g.close c = f ∧ (⟨gs, {}, none⟩ : Reading α).after ts = some ⟨gs, g, some c⟩

/-- The reader makes of tokens the tree that they write. -/
theorem Writes.read {n : Nonterminal} {f : Formula α} {ts : List (Token α)} (h : Writes n f ts) : Read f ts n := by
  induction h with
  | leaf a => exact ⟨0, .leaf a, rfl, fun gs g => rfl⟩
  | not _ ih =>
    obtain ⟨n, c, rfl, hr⟩ := ih
    refine ⟨n + 1, c, rfl, fun gs g => ?_⟩
    simp [hr, Nat.add_assoc, Nat.add_comm 1]
  | @group f ts _ ih =>
    refine ⟨0, f, rfl, fun gs g => ?_⟩
    obtain ⟨p, c, rfl, hr⟩ := ih (g :: gs)
    simp [Reading.after_append, hr]
  | ofUnary _ ih =>
    intro gs e d
    obtain ⟨n, c, rfl, hr⟩ := ih
    exact ⟨_, c, by simp [Pending.conjoin, Pending.unary], rfl, rfl, hr gs _⟩
  | @and l r ts us _ _ ihl ihr =>
    intro gs e d
    obtain ⟨g, c, hl, he, hd, hg⟩ := ihl gs e d
    obtain ⟨n, c', rfl, hr⟩ := ihr
    refine ⟨{ g with conjunction := some l, negations := n }, c', ?_, he, hd, ?_⟩
    · simp [Pending.conjoin, Pending.unary]
    · simp [Reading.after_append, hg, hl, hr]
  | ofConjunction _ ih =>
    intro gs e
    obtain ⟨g, c, rfl, he, hd, hr⟩ := ih gs e none
    exact ⟨g, c, by simp [Pending.disjoin, hd], he, hr⟩
  | @or l r ts us _ _ ihl ihr =>
    intro gs e
    obtain ⟨g, c, hl, he, hg⟩ := ihl gs e
    obtain ⟨g', c', rfl, he', hd', hr⟩ := ihr gs e (some l)
    exact ⟨g', c', by simp [Pending.disjoin, hd'], he', by simp [Reading.after_append, hg, hl, he, hr]⟩
  | ofDisjunction _ ih =>
    intro gs
    obtain ⟨g, c, rfl, he, hr⟩ := ih gs none
    exact ⟨g, c, by simp [Pending.close, he], hr⟩
  | @equivalence l r ts us t o hc _ _ ihl ihr =>
    intro gs
    obtain ⟨g, c, hl, hg⟩ := ihl gs
    obtain ⟨g', c', rfl, he', hr⟩ := ihr gs (some (o, l))
    refine ⟨g', c', by simp [Pending.close, he'], ?_⟩
    have ht : (⟨gs, g, some c⟩ : Reading α).step t = some ⟨gs, { equivalence := some (o, l) }, none⟩ := by
      cases t <;> simp_all [Token.equivalence?]
    simp [Reading.after_append, hg, ht, hr]

/-! ## What the reader takes is written

The tokens of a group that is open fall into the left sides that wait, loosest first, and the negations before the operand to
come. -/

/-- The tokens behind which a left side waits for the right side of its connective, none without a left side. -/
def Behind (n : Nonterminal) (joins : Token α → Prop) : Option (Formula α) → List (Token α) → Prop
  | none, ts => ts = []
  | some l, ts => ∃ us t, ts = us ++ [t] ∧ joins t ∧ Writes n l us

/-- The tokens that were read in a group, for what the group waits with. -/
def InGroup (g : Pending α) (ts : List (Token α)) : Prop :=
  ∃ es ds cs, ts = es ++ ds ++ cs ++ List.replicate g.negations .not ∧
    Behind .biconditional (fun t => t.equivalence? = g.equivalence.map (·.1)) (g.equivalence.map (·.2)) es ∧
    Behind .disjunction (· = .or) g.disjunction ds ∧ Behind .conjunction (· = .and) g.conjunction cs

/-- The tokens before the innermost group, for the groups that are open around it. -/
def Around : List (Pending α) → List (Token α) → Prop
  | [], ts => ts = []
  | g :: gs, ts => ∃ us vs, ts = us ++ vs ++ [.lparen] ∧ Around gs us ∧ InGroup g vs

/-- The tokens of an operand that may have been read, none where one is due. -/
def OfOperand : Option (Formula α) → List (Token α) → Prop
  | none, ts => ts = []
  | some f, ts => Writes .unary f ts

/-- The tokens that lead to a state. -/
def LeadsTo (ts : List (Token α)) (s : Reading α) : Prop :=
  ∃ us vs ws, ts = us ++ vs ++ ws ∧ Around s.outer us ∧ InGroup s.group vs ∧ OfOperand s.operand ws

/-- Negations before what is written as a unary. -/
theorem Writes.negate {f : Formula α} {ts : List (Token α)} (h : Writes .unary f ts) (n : Nat) :
    Writes .unary (f.negate n) (List.replicate n .not ++ ts) := by
  induction n with
  | zero => exact h
  | succ n ih => exact ih.not

/-- No tokens were read in a group that waits with nothing. -/
theorem InGroup.empty : InGroup ({} : Pending α) [] := ⟨[], [], [], by simp, rfl, rfl, rfl⟩

/-- What a group comes to at each level when its operand is there, and the tokens it is written with. -/
theorem InGroup.writes {g : Pending α} {ts us : List (Token α)} {f : Formula α} (h : InGroup g ts) (hf : Writes .unary f us) :
    ∃ es ds cs, ts ++ us = es ++ ds ++ cs ∧
      Behind .biconditional (fun t => t.equivalence? = g.equivalence.map (·.1)) (g.equivalence.map (·.2)) es ∧
      Behind .disjunction (· = .or) g.disjunction ds ∧ Writes .conjunction (g.conjoin f) cs := by
  obtain ⟨es, ds, cs, rfl, he, hd, hc⟩ := h
  refine ⟨es, ds, cs ++ (List.replicate g.negations .not ++ us), by simp, he, hd, ?_⟩
  have hu : Writes .unary (g.unary f) (List.replicate g.negations .not ++ us) := hf.negate g.negations
  cases hg : g.conjunction with
  | none =>
    rw [hg] at hc
    simp only [Behind] at hc
    simpa [Pending.conjoin, hg, hc] using Writes.ofUnary hu
  | some l =>
    rw [hg] at hc
    obtain ⟨vs, t, rfl, rfl, hl⟩ := hc
    simpa [Pending.conjoin, hg] using Writes.and hl hu

/-- The tokens of a group and of an operand are those of the equivalences that wait, and of the disjunction that ends with the
operand. -/
theorem InGroup.writes_disjunction {g : Pending α} {ts us : List (Token α)} {f : Formula α} (h : InGroup g ts)
    (hf : Writes .unary f us) :
    ∃ es ds, ts ++ us = es ++ ds ∧
      Behind .biconditional (fun t => t.equivalence? = g.equivalence.map (·.1)) (g.equivalence.map (·.2)) es ∧
      Writes .disjunction (g.disjoin f) ds := by
  obtain ⟨es, ds, cs, hts, he, hd, hc⟩ := h.writes hf
  refine ⟨es, ds ++ cs, by simp [hts], he, ?_⟩
  cases hg : g.disjunction with
  | none =>
    rw [hg] at hd
    simp only [Behind] at hd
    simpa [Pending.disjoin, hg, hd] using Writes.ofConjunction hc
  | some l =>
    rw [hg] at hd
    obtain ⟨vs, t, rfl, rfl, hl⟩ := hd
    simpa [Pending.disjoin, hg] using Writes.or hl hc

/-- The tokens of a group and of an operand write the whole of the group. -/
theorem InGroup.writes_close {g : Pending α} {ts us : List (Token α)} {f : Formula α} (h : InGroup g ts)
    (hf : Writes .unary f us) : Writes .biconditional (g.close f) (ts ++ us) := by
  obtain ⟨es, ds, hts, he, hd⟩ := h.writes_disjunction hf
  rw [hts]
  cases hg : g.equivalence with
  | none =>
    rw [hg] at he
    simp only [Option.map_none, Behind] at he
    simpa [Pending.close, hg, he] using Writes.ofDisjunction hd
  | some p =>
    obtain ⟨c, l⟩ := p
    rw [hg] at he
    obtain ⟨vs, t, rfl, ht, hl⟩ := he
    simpa [Pending.close, hg] using Writes.equivalence ht hl hd

/-- A step keeps the account of the tokens that lead to a state. -/
theorem LeadsTo.step {ts : List (Token α)} {s s' : Reading α} {t : Token α} (h : LeadsTo ts s) (hs : s.step t = some s') :
    LeadsTo (ts ++ [t]) s' := by
  obtain ⟨gs, g, o⟩ := s
  obtain ⟨us, vs, ws, rfl, ha, hg, ho⟩ := h
  cases o with
  | none =>
    obtain rfl : ws = [] := ho
    cases t with
    | leaf a =>
      obtain rfl := Option.some.inj hs
      exact ⟨us, vs, [.leaf a], by simp, ha, hg, .leaf a⟩
    | not =>
      obtain rfl := Option.some.inj hs
      obtain ⟨es, ds, cs, rfl, he, hd, hc⟩ := hg
      refine ⟨us, es ++ ds ++ cs ++ List.replicate (g.negations + 1) .not, [], ?_, ha, ⟨es, ds, cs, rfl, he, hd, hc⟩, rfl⟩
      simp [List.replicate_succ']
    | lparen =>
      obtain rfl := Option.some.inj hs
      exact ⟨us ++ vs ++ [.lparen], [], [], by simp, ⟨us, vs, rfl, ha, hg⟩, .empty, rfl⟩
    | _ => simp [Reading.step] at hs
  | some f =>
    have hw : Writes .unary f ws := ho
    cases t with
    | and =>
      obtain rfl := Option.some.inj hs
      obtain ⟨es, ds, cs, hts, he, hd, hc⟩ := hg.writes hw
      refine ⟨us, vs ++ ws ++ [.and], [], by simp, ha, ⟨es, ds, cs ++ [.and], ?_, he, hd, ?_⟩, rfl⟩
      · simp [hts]
      · exact ⟨cs, .and, rfl, rfl, hc⟩
    | or =>
      obtain rfl := Option.some.inj hs
      obtain ⟨es, ds, hts, he, hd⟩ := hg.writes_disjunction hw
      refine ⟨us, vs ++ ws ++ [.or], [], by simp, ha, ⟨es, ds ++ [.or], [], ?_, he, ?_, rfl⟩, rfl⟩
      · simp [hts]
      · exact ⟨ds, .or, rfl, rfl, hd⟩
    | equiv n =>
      obtain rfl := Option.some.inj hs
      refine ⟨us, vs ++ ws ++ [.equiv n], [], by simp, ha, ⟨vs ++ ws ++ [.equiv n], [], [], by simp, ?_, rfl, rfl⟩, rfl⟩
      exact ⟨vs ++ ws, .equiv n, rfl, rfl, hg.writes_close hw⟩
    | xor n =>
      obtain rfl := Option.some.inj hs
      refine ⟨us, vs ++ ws ++ [.xor n], [], by simp, ha, ⟨vs ++ ws ++ [.xor n], [], [], by simp, ?_, rfl, rfl⟩, rfl⟩
      exact ⟨vs ++ ws, .xor n, rfl, rfl, hg.writes_close hw⟩
    | rparen =>
      cases gs with
      | nil => simp [Reading.step] at hs
      | cons p gs =>
        obtain rfl := Option.some.inj hs
        obtain ⟨us', vs', rfl, ha', hp⟩ := ha
        refine ⟨us', vs', .lparen :: (vs ++ ws ++ [.rparen]), by simp, ha', hp, ?_⟩
        exact .group (hg.writes_close hw)
    | _ => simp [Reading.step] at hs

/-- Tokens lead from a state to which others lead on to the next. -/
theorem LeadsTo.after {us : List (Token α)} :
    ∀ {ts : List (Token α)} {s s' : Reading α}, LeadsTo ts s → s.after us = some s' → LeadsTo (ts ++ us) s' := by
  induction us with
  | nil => intro ts s s' h hs; obtain rfl := Option.some.inj hs; simpa using h
  | cons t us ih =>
    intro ts s s' h hs
    obtain ⟨r, hr, hs⟩ := Option.bind_eq_some_iff.mp hs
    simpa using ih (h.step hr) hs

/-- No tokens lead to the start. -/
theorem LeadsTo.start : LeadsTo [] ({} : Reading α) := ⟨[], [], [], rfl, rfl, .empty, rfl⟩

/-- The reader makes the formula that its tokens write. -/
theorem parse_eq_ok_iff_writes {ts : List (Token α)} {f : Formula α} :
    Formula.parse ts = .ok f ↔ Writes .biconditional f ts := by
  rw [Formula.parse_eq_ok_iff]
  constructor
  · intro h
    obtain ⟨s, hs, hf⟩ := Option.bind_eq_some_iff.mp h
    obtain ⟨g, c, rfl, rfl⟩ := Reading.formula?_eq_some.mp hf
    obtain ⟨us, vs, ws, hts, ha, hg, hw⟩ := LeadsTo.start.after hs
    obtain rfl : us = [] := ha
    simp only [List.nil_append] at hts
    exact hts ▸ hg.writes_close hw
  · intro h
    obtain ⟨g, c, rfl, hr⟩ := h.read []
    simp [hr, Reading.formula?]

/-- A list of tokens writes at most one tree. -/
theorem Writes.unique {f g : Formula α} {ts : List (Token α)} (hf : Writes .biconditional f ts)
    (hg : Writes .biconditional g ts) : f = g := by
  have h := parse_eq_ok_iff_writes.mpr hf
  rw [parse_eq_ok_iff_writes.mpr hg] at h
  exact (Except.ok.inj h).symm

/-- The reader accepts exactly what the grammar derives. What it makes of it is the one tree that is written with the tokens, and
any other list of tokens is a fault. -/
theorem parse_exact (ts : List (Token α)) :
    ((∃ f, Formula.parse ts = .ok f) ↔ Derives .biconditional ts) ∧
      (∀ f, Formula.parse ts = .ok f ↔ Writes .biconditional f ts) ∧
      (∀ f g, Writes .biconditional f ts → Writes .biconditional g ts → f = g) ∧
      (¬Derives .biconditional ts ↔ ∃ fault, Formula.parse ts = .error fault) := by
  have hd : (∃ f, Formula.parse ts = .ok f) ↔ Derives .biconditional ts := by
    simp only [parse_eq_ok_iff_writes]
    exact ⟨fun ⟨_, h⟩ => h.derives, Derives.exists_writes⟩
  refine ⟨hd, fun f => parse_eq_ok_iff_writes, fun f g => Writes.unique, ?_⟩
  rw [← hd]
  cases Formula.parse ts <;> simp

end Grammar

end Propositional
