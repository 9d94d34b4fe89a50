import Propositional.Proofs.Latex.Lexing
import Propositional.Proofs.Latex.Scope

/-!
# Where a left operand starts

The left operand of an arrow is looked for from the arrow backwards, with a count of the parentheses that are open. What is
found is said here of the tokens themselves: the operand is an atom or a group with all negations before it, and the two
parentheses of the group belong together, since no shorter end of it is balanced (`findLeftOperand?_exact`). The depth of the
search and the numbers of parentheses are tied together once, in `depthAfter?_eq_some_iff_count`.
-/

namespace Propositional.Latex

/-! ## Operands among tokens -/

/-- The lexemes that some tokens are. -/
def ofTokens (tokens : List String) : List Lexeme := tokens.map fun s => Lexeme.ofText s.toList

/-- The tokens from one place up to another. -/
def span (tokens : List String) (s k : Nat) : List String := (tokens.take k).drop s

/-- The parentheses of some tokens are balanced: nowhere are more closed than were opened, and as many are closed as
are opened. -/
structure Balanced (tokens : List String) : Prop where
  covered : ∀ n, (tokens.take n).count ")" ≤ (tokens.take n).count "("
  total : tokens.count "(" = tokens.count ")"

/-- Tokens that start with a `(` and are balanced. -/
def IsOpened (tokens : List String) : Prop := tokens.head? = some "(" ∧ Balanced tokens

/-- A group: its first token is a `(` and its last one a `)`, it is balanced, and no shorter end of it starts with a `(` and is
balanced. -/
structure IsGroup (tokens : List String) : Prop where
  opened : IsOpened tokens
  last : tokens.getLast? = some ")"
  shortest : ∀ n, 0 < n → ¬IsOpened (tokens.drop n)

/-- A token that is an atom: a capital letter, `0` or `1`. -/
def IsAtomToken (token : String) : Prop := ∃ c, isAtom c = true ∧ token = String.singleton c

/-- Tokens that are one atom or a group. -/
def IsAtomOrGroup (tokens : List String) : Prop := (∃ a, tokens = [a] ∧ IsAtomToken a) ∨ IsGroup tokens

/-- The left operand of what stands at place `k` starts at place `s`: from there on are negations and then an atom or a group,
and no negation stands before them. -/
structure OperandFrom (tokens : List String) (k s : Nat) : Prop where
  operand : ∃ m core, span tokens s k = List.replicate m "!" ++ core ∧ IsAtomOrGroup core
  maximal : s = 0 ∨ tokens[s - 1]? ≠ some "!"

/-- An atom or a group has a token. -/
theorem IsAtomOrGroup.ne_nil {tokens : List String} (h : IsAtomOrGroup tokens) : tokens ≠ [] := by
  rintro rfl
  rcases h with ⟨a, ha, -⟩ | hgroup
  · cases ha
  · cases hgroup.last

/-! ## Tokens as lexemes -/

/-- A lexeme that is the one of its own text is the one of no other text. -/
theorem Lexeme.ofText_toList_eq_iff {t : Lexeme} (ht : ofText t.text = t) {s : String} :
    ofText s.toList = t ↔ s = String.ofList t.text := by
  rw [← String.toList_inj, String.toList_ofList]
  exact ⟨fun h => by rw [← h, text_ofText], fun h => h ▸ ht⟩

section Tokens

variable (tokens : List String)

theorem length_ofTokens : (ofTokens tokens).length = tokens.length := List.length_map ..

theorem ofTokens_take (n : Nat) : ofTokens (tokens.take n) = (ofTokens tokens).take n := List.map_take ..

theorem ofTokens_drop (n : Nat) : ofTokens (tokens.drop n) = (ofTokens tokens).drop n := List.map_drop ..

/-- A lexeme of one text stands where its text stands. -/
theorem map_ofText_eq_some_iff {t : Lexeme} (ht : Lexeme.ofText t.text = t) {o : Option String} :
    o.map (fun s => Lexeme.ofText s.toList) = some t ↔ o = some (String.ofList t.text) := by
  rw [Option.map_eq_some_iff]
  constructor
  · rintro ⟨s, rfl, hs⟩
    rw [(Lexeme.ofText_toList_eq_iff ht).mp hs]
  · rintro rfl
    exact ⟨_, rfl, (Lexeme.ofText_toList_eq_iff ht).mpr rfl⟩

/-- Tokens of one text are counted as their lexemes are. -/
theorem count_ofTokens {t : Lexeme} (ht : Lexeme.ofText t.text = t) :
    (ofTokens tokens).count t = tokens.count (String.ofList t.text) := by
  rw [ofTokens, List.count, List.countP_map, List.count]
  refine List.countP_congr fun s _ => ?_
  simp only [Function.comp_apply, beq_iff_eq, Lexeme.ofText_toList_eq_iff ht]

end Tokens

/-! ## Balance and depth -/

/-- Lexemes lead from one depth to another if they nowhere close more than is open, and the numbers of their parentheses make up
the difference. The first lexeme leads to another depth, and what is closed and opened behind it is counted from there. -/
theorem depthAfter?_eq_some_iff_count {ts : List Lexeme} : ∀ {d e : Nat}, depthAfter? Lexeme.paren? d ts = some e ↔
    (∀ n, (ts.take n).count .rparen ≤ d + (ts.take n).count .lparen) ∧ e + ts.count .rparen = d + ts.count .lparen := by
  induction ts with
  | nil =>
    intro d e
    show some d = some e ↔ _
    simp [eq_comm]
  | cons t ts ih =>
    intro d e
    rw [depthAfter?_cons]
    have hall : ∀ P : Nat → Prop, (∀ n, P n) ↔ P 0 ∧ ∀ n, P (n + 1) := fun P =>
      ⟨fun h => ⟨h 0, fun n => h (n + 1)⟩, fun h n => by cases n with | zero => exact h.1 | succ n => exact h.2 n⟩
    rw [hall]
    simp only [List.take_zero, List.count_nil, List.take_succ_cons, List.count_cons, Nat.zero_le, Nat.add_zero, true_and]
    cases t with
    | lparen =>
      show depthAfter? Lexeme.paren? (d + 1) ts = some e ↔ _
      rw [ih]
      simp [Nat.add_assoc, Nat.add_comm 1]
    | rparen =>
      cases d with
      | zero =>
        refine ⟨nofun, fun h => ?_⟩
        have := h.1 0
        simp at this
      | succ d =>
        show depthAfter? Lexeme.paren? d ts = some e ↔ _
        rw [ih]
        refine and_congr (forall_congr' fun n => ?_) ?_ <;> simp <;> omega
    | _ =>
      show depthAfter? Lexeme.paren? d ts = some e ↔ _
      rw [ih]
      simp

/-- Tokens are balanced exactly if they lead from no depth to none. -/
theorem balanced_iff {tokens : List String} : Balanced tokens ↔ depthAfter? Lexeme.paren? 0 (ofTokens tokens) = some 0 := by
  have hopen : ∀ us : List String, (ofTokens us).count .lparen = us.count "(" := fun us => count_ofTokens us rfl
  have hclose : ∀ us : List String, (ofTokens us).count .rparen = us.count ")" := fun us => count_ofTokens us rfl
  rw [depthAfter?_eq_some_iff_count, hopen, hclose, Nat.zero_add, Nat.zero_add]
  simp only [← ofTokens_take, hopen, hclose, Nat.zero_add]
  exact ⟨fun h => ⟨h.covered, h.total.symm⟩, fun h => ⟨h.1, h.2.symm⟩⟩

/-! ## Groups -/

/-- Tokens whose lexemes are a closed part in parentheses start with a `(` and are balanced. -/
theorem isOpened_of_closed {tokens : List String} {us : List Lexeme} (h : ofTokens tokens = .lparen :: (us ++ [.rparen]))
    (hclosed : depthAfter? Lexeme.paren? 0 us = some 0) : IsOpened tokens := by
  refine ⟨?_, balanced_iff.mpr ?_⟩
  · have hhead : (ofTokens tokens).head? = some .lparen := by rw [h, List.head?_cons]
    rw [ofTokens, List.head?_map] at hhead
    exact (map_ofText_eq_some_iff rfl).mp hhead
  · rw [h, depthAfter?_group hclosed]

/-- Balanced tokens that end with a `)` have an end that is a closed part in parentheses: the search for the `(` finds it. -/
theorem exists_closed_of_balanced {inner : List String} (h : Balanced (inner ++ [")"])) :
    ∃ j us, ofTokens ((inner ++ [")"]).drop j) = .lparen :: (us ++ [.rparen]) ∧ depthAfter? Lexeme.paren? 0 us = some 0 := by
  have hmap : ofTokens (inner ++ [")"]) = ofTokens inner ++ [.rparen] := List.map_append ..
  have hdepth := balanced_iff.mp h
  rw [hmap, depthAfter?_append] at hdepth
  obtain ⟨d, hd, hlast⟩ := Option.bind_eq_some_iff.mp hdepth
  have hopen : 0 + 1 ≤ d := by
    cases d with
    | zero => cases hlast
    | succ d => omega
  rw [← List.reverse_reverse (ofTokens inner)] at hd
  obtain ⟨n, hn⟩ := Option.ne_none_iff_exists'.mp (groupLength?_ne_none (d := 0) hd hopen)
  obtain ⟨us, hus, hclosed⟩ := groupLength?_eq_some hn
  rw [List.reverse_take, List.reverse_reverse] at hus
  refine ⟨(ofTokens inner).reverse.length - n, us, ?_, hclosed⟩
  rw [ofTokens_drop, hmap, List.drop_append_of_le_length (by rw [List.length_reverse]; omega), hus, List.cons_append]

/-- No proper end of a group is balanced. -/
theorem depthAfter?_drop_ne {us : List Lexeme} (h : depthAfter? Lexeme.paren? 0 us = some 0) (j : Nat) :
    depthAfter? Lexeme.paren? 0 (us.drop j ++ [.rparen]) ≠ some 0 := by
  intro hend
  rw [← List.take_append_drop j us, depthAfter?_append] at h
  obtain ⟨d, -, hd⟩ := Option.bind_eq_some_iff.mp h
  rw [depthAfter?_append] at hend
  obtain ⟨e, he, hlast⟩ := Option.bind_eq_some_iff.mp hend
  have hsum := depthAfter?_add he d
  rw [Nat.zero_add, hd] at hsum
  have hzero : 0 = e + d := Option.some.inj hsum
  obtain rfl : e = 0 := by omega
  cases hlast

/-- A group is two parentheses around lexemes that lead from no depth to none. -/
theorem isGroup_iff {tokens : List String} : IsGroup tokens ↔
    ∃ us, ofTokens tokens = .lparen :: (us ++ [.rparen]) ∧ depthAfter? Lexeme.paren? 0 us = some 0 := by
  constructor
  · rintro ⟨⟨-, hbalanced⟩, hlast, hshortest⟩
    obtain ⟨inner, rfl⟩ := List.getLast?_eq_some_iff.mp hlast
    obtain ⟨j, us, hus, hclosed⟩ := exists_closed_of_balanced hbalanced
    cases j with
    | zero => exact ⟨us, hus, hclosed⟩
    | succ j => exact absurd (isOpened_of_closed hus hclosed) (hshortest _ (Nat.succ_pos j))
  · rintro ⟨us, hus, hclosed⟩
    refine ⟨isOpened_of_closed hus hclosed, ?_, fun n hn hopened => ?_⟩
    · have hlast : (ofTokens tokens).getLast? = some .rparen := by rw [hus, ← List.cons_append, List.getLast?_concat]
      rw [ofTokens, List.getLast?_map] at hlast
      exact (map_ofText_eq_some_iff rfl).mp hlast
    · obtain ⟨j, rfl⟩ := Nat.exists_eq_add_of_lt hn
      have hdepth := balanced_iff.mp hopened.2
      rw [ofTokens_drop, hus, Nat.zero_add, List.drop_succ_cons] at hdepth
      rcases Nat.lt_or_ge us.length j with hlt | hle
      · have hnil : tokens.drop (0 + j + 1) = [] := by
          have hlength := congrArg List.length hus
          rw [length_ofTokens] at hlength
          refine List.drop_eq_nil_of_le ?_
          rw [hlength]
          simp
          omega
        have hhead := hopened.1
        rw [hnil] at hhead
        cases hhead
      · rw [List.drop_append_of_le_length hle] at hdepth
        exact depthAfter?_drop_ne hclosed j hdepth

/-! ## Operands -/

/-- An atom or a group is what the elimination takes as an operand, but for the negations. -/
theorem isCore_ofTokens_iff {core : List String} :
    IsCore (ofTokens core) ↔ IsAtomOrGroup core := by
  rw [IsAtomOrGroup, isGroup_iff]
  refine or_congr_left ⟨?_, ?_⟩
  · rintro ⟨c, hc⟩
    obtain ⟨a, rfl, ha⟩ := List.map_eq_singleton_iff.mp hc
    obtain ⟨hs, hatom⟩ := Lexeme.ofText_eq_atom_iff.mp ha
    exact ⟨a, rfl, c, hatom, by rw [← String.toList_inj, hs, String.toList_singleton]⟩
  · rintro ⟨a, rfl, c, hatom, rfl⟩
    refine ⟨c, ?_⟩
    rw [ofTokens, List.map_singleton, Lexeme.ofText_eq_atom_iff.mpr ⟨String.toList_singleton c, hatom⟩]

/-- Tokens are negations before other tokens exactly if their lexemes are. -/
theorem ofTokens_eq_replicate_append_iff {tokens : List String} {m : Nat} {core : List Lexeme} :
    ofTokens tokens = List.replicate m .not ++ core ↔
      ∃ rest, tokens = List.replicate m "!" ++ rest ∧ ofTokens rest = core := by
  rw [ofTokens, List.map_eq_append_iff]
  constructor
  · rintro ⟨negations, rest, rfl, hnot, hrest⟩
    obtain rfl : negations.length = m := by simpa using congrArg List.length hnot
    have hall := fun s hs => (Lexeme.ofText_toList_eq_iff rfl).mp (List.map_eq_replicate_iff.mp hnot s hs)
    exact ⟨rest, congrArg (· ++ rest) (List.eq_replicate_iff.mpr ⟨rfl, hall⟩), hrest⟩
  · rintro ⟨rest, rfl, hrest⟩
    exact ⟨_, rest, rfl, List.map_replicate, hrest⟩

/-- The left operand that is found is exactly a core with all negations before it. -/
theorem operandLength?_eq_some_iff {done : List Lexeme} {n : Nat} : operandLength? done = some n ↔
    n ≤ done.length ∧ (∃ m core, (done.take n).reverse = List.replicate m .not ++ core ∧ IsCore core) ∧
      (done.drop n).head? ≠ some .not := by
  constructor
  · intro h
    obtain ⟨m, core, hcore, hop, hmax⟩ := operandLength?_eq_some h
    exact ⟨(operandLength?_le h).2, ⟨m, core, hop, hcore⟩, hmax⟩
  · rintro ⟨hle, ⟨m, core, hop, hcore⟩, hmax⟩
    have htake : done.take n = core.reverse ++ List.replicate m .not := by
      rw [← List.reverse_reverse (done.take n), hop, List.reverse_append, List.reverse_replicate]
    have hlength : core.length + m = n := by
      rw [← List.length_take_of_le hle, htake, List.length_append, List.length_reverse, List.length_replicate]
    rw [← List.take_append_drop n done, htake, List.append_assoc, hcore.operandLength?_append hmax, hlength]

section Place

variable {ts : List Lexeme} {tokens : List String} {k s : Nat}

/-! ### Places -/

/-- What stands before a place, seen from a place behind it. -/
theorem drop_readBack (hk : k ≤ ts.length) (hs : s ≤ k) : (readBack ts k).drop (k - s) = readBack ts s := by
  rw [readBack, List.drop_reverse, List.length_take_of_le hk, Nat.sub_sub_self hs, List.take_take, Nat.min_eq_left hs, readBack]

/-- What stands between two places, seen from the second. -/
theorem take_readBack (hk : k ≤ tokens.length) (hs : s ≤ k) :
    (readBack (ofTokens tokens) k).take (k - s) = (ofTokens (span tokens s k)).reverse := by
  rw [readBack, List.take_reverse, ← ofTokens_take, length_ofTokens, List.length_take_of_le hk, Nat.sub_sub_self hs,
    ← ofTokens_drop, span]

/-- Read backwards from a place, tokens start with no negation exactly if none stands before it. -/
theorem head?_readBack_ne_not_iff (hs : s ≤ tokens.length) :
    (readBack (ofTokens tokens) s).head? ≠ some .not ↔ s = 0 ∨ tokens[s - 1]? ≠ some "!" := by
  cases s with
  | zero => simp [readBack]
  | succ s =>
    have hlast : (readBack (ofTokens tokens) (s + 1)).head? = tokens[s]?.map fun t => Lexeme.ofText t.toList := by
      rw [readBack, List.head?_reverse, List.getLast?_take, if_neg (Nat.succ_ne_zero s), Nat.add_sub_cancel, ofTokens,
        List.getElem?_map, List.getElem?_eq_getElem hs]
      rfl
    rw [hlast, Ne, map_ofText_eq_some_iff rfl]
    exact (or_iff_right (Nat.succ_ne_zero s)).symm

/-- Where tokens stand between two places, the first is before the second. -/
theorem lt_of_span_ne_nil (hk : k ≤ tokens.length) (h : span tokens s k ≠ []) : s < k := by
  by_contra hle
  exact h (List.drop_eq_nil_of_le (by rw [List.length_take_of_le hk]; omega))

/-- An operand starts before what it is the operand of. -/
theorem OperandFrom.lt (h : OperandFrom tokens k s) (hk : k ≤ tokens.length) : s < k := by
  obtain ⟨⟨m, core, hspan, hcore⟩, -⟩ := h
  refine lt_of_span_ne_nil hk ?_
  rw [hspan]
  exact List.append_ne_nil_of_right_ne_nil _ hcore.ne_nil

/-- The tokens between two places, without the first of them. -/
theorem drop_span (tokens : List String) (s k j : Nat) : (span tokens s k).drop j = span tokens (s + j) k := List.drop_drop

/-- The tokens up to behind a place are those up to the place and the one there. -/
theorem span_succ (hk : k < tokens.length) (hs : s ≤ k) : span tokens s (k + 1) = span tokens s k ++ [tokens[k]] := by
  rw [span, List.take_succ_eq_append_getElem hk, List.drop_append_of_le_length (by rwa [List.length_take_of_le (by omega)]), span]

/-! ### The start of an operand -/

/-- An operand starts where the search backwards from its arrow ends. -/
theorem operandFrom_iff (hk : k ≤ tokens.length) :
    OperandFrom tokens k s ↔ s ≤ k ∧ operandLength? (readBack (ofTokens tokens) k) = some (k - s) := by
  have hk' : k ≤ (ofTokens tokens).length := by rwa [length_ofTokens]
  rw [operandLength?_eq_some_iff, length_readBack hk']
  constructor
  · intro h
    have hs := h.lt hk
    obtain ⟨⟨m, core, hspan, hcore⟩, hmax⟩ := h
    refine ⟨hs.le, Nat.sub_le k s, ⟨m, ofTokens core, ?_, isCore_ofTokens_iff.mpr hcore⟩, ?_⟩
    · rw [take_readBack hk hs.le, List.reverse_reverse, ofTokens_eq_replicate_append_iff]
      exact ⟨core, hspan, rfl⟩
    · rw [drop_readBack hk' hs.le]
      exact (head?_readBack_ne_not_iff (hs.le.trans hk)).mpr hmax
  · rintro ⟨hs, -, ⟨m, core, hop, hcore⟩, hmax⟩
    rw [take_readBack hk hs, List.reverse_reverse, ofTokens_eq_replicate_append_iff] at hop
    obtain ⟨rest, hspan, rfl⟩ := hop
    rw [drop_readBack hk' hs] at hmax
    exact ⟨⟨m, rest, hspan, isCore_ofTokens_iff.mp hcore⟩, (head?_readBack_ne_not_iff (hs.trans hk)).mp hmax⟩

/-- An atom or a group before a place ends an operand there: the negations before it are found. -/
theorem exists_operandFrom_of_span (hk : k ≤ tokens.length) (h : IsAtomOrGroup (span tokens s k)) :
    ∃ s', OperandFrom tokens k s' := by
  have hs := (lt_of_span_ne_nil hk h.ne_nil).le
  have hk' : k ≤ (ofTokens tokens).length := by rwa [length_ofTokens]
  have hread : readBack (ofTokens tokens) k = (ofTokens (span tokens s k)).reverse ++ readBack (ofTokens tokens) s := by
    rw [← take_readBack hk hs, ← drop_readBack hk' hs, List.take_append_drop]
  have hrest := List.take_append_drop (negationCount (readBack (ofTokens tokens) s)) (readBack (ofTokens tokens) s)
  rw [take_negationCount] at hrest
  have hfound := (isCore_ofTokens_iff.mpr h).operandLength?_append (drop_negationCount (readBack (ofTokens tokens) s))
    (negationCount (readBack (ofTokens tokens) s))
  rw [hrest, ← hread] at hfound
  have hle := (operandLength?_le hfound).2
  rw [length_readBack hk'] at hle
  exact ⟨_, (operandFrom_iff hk).mpr ⟨Nat.sub_le k _, by rw [hfound, Nat.sub_sub_self hle]⟩⟩

/-- At the start there is no operand. -/
theorem not_operandFrom_zero (tokens : List String) (s : Nat) : ¬OperandFrom tokens 0 s :=
  fun h => Nat.not_lt_zero s (h.lt (Nat.zero_le _))

/-- Behind a token an operand ends exactly if the token is an atom, or a `)` with which a balanced part ends that starts with a
`(`. -/
theorem exists_operandFrom_succ_iff (hk : k < tokens.length) : (∃ s, OperandFrom tokens (k + 1) s) ↔
    IsAtomToken tokens[k] ∨ tokens[k] = ")" ∧ ∃ s, IsOpened (span tokens s (k + 1)) := by
  constructor
  · rintro ⟨s, h⟩
    have hs : s ≤ k := Nat.le_of_lt_succ (h.lt hk)
    obtain ⟨⟨m, core, hspan, hcore⟩, -⟩ := h
    have hlast : core.getLast? = some tokens[k] := by
      rw [← List.getLast?_append_of_ne_nil (List.replicate m "!") hcore.ne_nil, ← hspan, span_succ hk hs, List.getLast?_concat]
    rcases hcore with ⟨a, rfl, ha⟩ | hgroup
    · exact .inl (Option.some.inj hlast ▸ ha)
    · refine .inr ⟨Option.some.inj (hlast.symm.trans hgroup.last), s + m, ?_⟩
      rw [← drop_span, hspan, List.drop_left' List.length_replicate]
      exact hgroup.opened
  · rintro (hatom | ⟨hparen, s, hopened⟩)
    · refine exists_operandFrom_of_span hk (s := k) (.inl ⟨tokens[k], ?_, hatom⟩)
      rw [span_succ hk (Nat.le_refl k), span, List.drop_eq_nil_of_le (List.length_take_le k tokens), List.nil_append]
    · have hs : s < k + 1 := lt_of_span_ne_nil hk (List.ne_nil_of_mem (List.mem_of_head? hopened.1))
      have hsplit := span_succ hk (Nat.le_of_lt_succ hs)
      rw [hparen] at hsplit
      obtain ⟨j, us, hus, hclosed⟩ := exists_closed_of_balanced (hsplit ▸ hopened.2)
      rw [← hsplit, drop_span] at hus
      exact exists_operandFrom_of_span hk (.inr (isGroup_iff.mpr ⟨us, hus, hclosed⟩))

end Place

/-- The search for a left operand is exact. It gives a place exactly if the operand starts there, and none exactly if the
operand starts nowhere; and it starts nowhere exactly at the first place, behind a token that is neither a `)` nor an atom, and
behind a `)` with which no balanced part ends that starts with a `(`. -/
theorem findLeftOperand?_exact (tokens : List String) (k : Nat) (hk : k ≤ tokens.length) :
    (∀ s, findLeftOperand? (ofTokens tokens) k = .ok (some s) ↔ OperandFrom tokens k s) ∧
    (findLeftOperand? (ofTokens tokens) k = .ok none ↔ ¬∃ s, OperandFrom tokens k s) ∧
    ((¬∃ s, OperandFrom tokens k s) ↔ k = 0 ∨
      (∃ t, tokens[k - 1]? = some t ∧ t ≠ ")" ∧ ¬IsAtomToken t) ∨
      tokens[k - 1]? = some ")" ∧ ¬∃ s, IsOpened (span tokens s k)) := by
  have hk' : k ≤ (ofTokens tokens).length := by rwa [length_ofTokens]
  have hsome : ∀ s, findLeftOperand? (ofTokens tokens) k = .ok (some s) ↔ OperandFrom tokens k s := fun s => by
    rw [findLeftOperand?_eq_some_iff hk', operandFrom_iff hk]
  refine ⟨hsome, ?_, ?_⟩
  · simp only [← hsome, findLeftOperand?_eq hk']
    cases operandLength? (readBack (ofTokens tokens) k) <;> simp
  · cases k with
    | zero => exact iff_of_true (fun ⟨s, hs⟩ => not_operandFrom_zero tokens s hs) (.inl rfl)
    | succ k =>
      rw [exists_operandFrom_succ_iff hk, Nat.add_sub_cancel, List.getElem?_eq_getElem hk]
      have hparen : ¬IsAtomToken ")" := by
        rintro ⟨c, hc, hsingle⟩
        rw [← String.toList_inj, String.toList_singleton] at hsingle
        obtain rfl : ')' = c := List.head_eq_of_cons_eq hsingle
        cases hc
      by_cases ht : tokens[k] = ")"
      · simp [ht, hparen]
      · simp [ht]

/-- Before the arrow the operand starts with the first of two negations of the group, and behind the first `)`, which closes
nothing, there is none. -/
theorem findLeftOperand?_exact_nested :
    let tokens := ["A", ")", "&", "!", "!", "(", "(", "A", ")", "|", "(", "B", ")", ")", "->", "C"]
    findLeftOperand? (ofTokens tokens) 14 = .ok (some 3) ∧ OperandFrom tokens 14 3 ∧
      findLeftOperand? (ofTokens tokens) 2 = .ok none ∧ ¬∃ s, IsOpened (span tokens s 2) := by
  intro tokens
  have hfound : findLeftOperand? (ofTokens tokens) 14 = .ok (some 3) := by decide
  have hnone : findLeftOperand? (ofTokens tokens) 2 = .ok none := by decide
  obtain ⟨-, hiff, hcases⟩ := findLeftOperand?_exact tokens 2 (by decide)
  refine ⟨hfound, ((findLeftOperand?_exact tokens 14 (by decide)).1 3).mp hfound, hnone, ?_⟩
  rcases hcases.mp (hiff.mp hnone) with hzero | ⟨t, ht, hparen, -⟩ | ⟨-, hopened⟩
  · cases hzero
  · exact absurd (Option.some.inj ht).symm hparen
  · exact hopened

end Propositional.Latex
