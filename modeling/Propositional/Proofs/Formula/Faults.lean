import Propositional.Proofs.Formula.Grammar
import Propositional.Proofs.Formula.Marks
import Propositional.Proofs.Formula.RunLength
import Propositional.Proofs.Results
import Propositional.Proofs.Token.Munch

/-!
# Where reading stops

The reader stops at the first token that no formula can have there. Whatever state it is in, some tokens complete what it read
to a formula (`Reading.exists_completion`), and the state decides which fault is found (`Reading.StopsWith`): an operand is due, a
group is open, or the formula is complete. A text is told the place of this token (`compile_fault_located`).
-/

namespace Propositional

variable {α : Type}

/-- Whether a token opens a group or closes one. -/
def Token.paren? (t : Token α) : Option Bool := Mark.paren? (.token t)

/-- The token at which the reading stops, none at the end. -/
def ParseFault.found? : ParseFault α → Option (Token α)
  | empty => none
  | operandDue found _ | closeDue found _ => found
  | leftover found _ => some found

namespace Reading

/-- Tokens lead to the state that they lead to as marks. -/
theorem after_eq_afterMarks (s : Reading α) (ts : List (Token α)) : s.after ts = s.afterMarks (ts.map .token) := by
  simp only [after, afterMarks, List.foldlM_map]
  rfl

/-- The depth of parentheses is the number of groups around. -/
theorem depthAfter?_of_after {ts : List (Token α)} {s s' : Reading α} (h : s.after ts = some s') :
    depthAfter? Token.paren? s.outer.length ts = some s'.outer.length := by
  rw [after_eq_afterMarks] at h
  have hd := depthAfter?_of_afterMarks h
  rwa [depthAfter?, List.foldlM_map] at hd

/-! ## What was read can be completed -/

/-- An operand in any number of groups is a formula when the groups are closed. -/
theorem exists_closed (gs : List (Pending α)) :
    ∀ g f, ∃ k, ((⟨gs, g, some f⟩ : Reading α).after (List.replicate gs.length .rparen)).bind formula? = some k := by
  induction gs with
  | nil => exact fun g f => ⟨g.close f, rfl⟩
  | cons p gs ih =>
    intro g f
    rw [List.length_cons, List.replicate_succ, after_cons, step_rparen, Option.bind_some]
    exact ih p (g.close f)

/-- Whatever was read, a leaf where an operand is due and a parenthesis for each open group complete it to a formula. -/
theorem exists_completion (a : α) (s : Reading α) :
    ∃ us f, (s.after us).bind formula? = some f ∧ ∀ t ∈ us, t = .leaf a ∨ t = .rparen := by
  obtain ⟨gs, g, o⟩ := s
  have hclose : ∀ t ∈ List.replicate gs.length (Token.rparen : Token α), t = .leaf a ∨ t = .rparen := fun t ht =>
    .inr (List.eq_of_mem_replicate ht)
  cases o with
  | some f =>
    obtain ⟨k, hk⟩ := exists_closed gs g f
    exact ⟨_, k, hk, hclose⟩
  | none =>
    obtain ⟨k, hk⟩ := exists_closed gs g (.leaf a)
    exact ⟨.leaf a :: _, k, hk, List.forall_mem_cons.mpr ⟨.inl rfl, hclose⟩⟩

/-! ## Where the reader stops -/

/-- A fault of a state at a place: what is due there, by whether an operand was read and whether a group is open. -/
inductive StopsWith (s : Reading α) (found : Option (Token α)) (p : Nat) : ParseFault α → Prop where
  | operandDue : s.operand = none → StopsWith s found p (.operandDue found p)
  | closeDue : s.outer ≠ [] → StopsWith s found p (.closeDue found p)
  | leftover {t : Token α} : found = some t → s.outer = [] → StopsWith s found p (.leftover t p)

/-- The fault of a token is one that the state stops with at it. -/
theorem stopsWith_fault (s : Reading α) (t : Token α) (p : Nat) : s.StopsWith (some t) p (s.fault t p) := by
  rcases s with ⟨_ | ⟨q, gs⟩, g, _ | f⟩
  · exact .operandDue rfl
  · exact .leftover rfl rfl
  · exact .operandDue rfl
  · exact .closeDue (by simp)

/-- The fault at the end is one that the state stops with there. -/
theorem stopsWith_of_finish {s : Reading α} {p : Nat} {e : ParseFault α} (h : s.finish p = .error e) : s.StopsWith none p e := by
  rcases s with ⟨_ | ⟨q, gs⟩, g, _ | f⟩ <;> cases h
  · exact .operandDue rfl
  · exact .operandDue rfl
  · exact .closeDue (by simp)

/-- A run that fails takes the tokens before a place and then stops, at the end or at a token that the state does not take. -/
theorem run_eq_error {ts : List (Token α)} :
    ∀ {s : Reading α} {q : Nat} {e : ParseFault α}, s.run q ts = .error e → ∃ k r, s.after (ts.take k) = some r ∧
      r.StopsWith ts[k]? (q + k) e ∧ (k = ts.length ∨ ∃ t, ts[k]? = some t ∧ r.step t = none) := by
  induction ts with
  | nil =>
    intro s q e h
    exact ⟨0, s, rfl, stopsWith_of_finish h, .inl rfl⟩
  | cons t ts ih =>
    intro s q e h
    cases hs : s.step t with
    | none =>
      rw [run, hs] at h
      obtain rfl := Except.error.inj h
      exact ⟨0, s, rfl, stopsWith_fault s t q, .inr ⟨t, rfl, hs⟩⟩
    | some s' =>
      rw [run, hs] at h
      obtain ⟨k, r, hr, hstop, hend⟩ := ih h
      refine ⟨k + 1, r, ?_, ?_, ?_⟩
      · rwa [List.take_succ_cons, after_cons, hs, Option.bind_some]
      · rw [List.getElem?_cons_succ, show q + (k + 1) = q + 1 + k by omega]
        exact hstop
      · exact hend.imp (fun h => by rw [h, List.length_cons]) fun h => h

end Reading

namespace Formula

/-- The reader finds no tokens, or it stops at a place that it reached. -/
theorem parse_eq_error {ts : List (Token α)} {e : ParseFault α} (h : parse ts = .error e) :
    (ts = [] ∧ e = .empty) ∨ ts ≠ [] ∧ ∃ p r, ({} : Reading α).after (ts.take p) = some r ∧ r.StopsWith ts[p]? p e ∧
      (p = ts.length ∨ ∃ t, ts[p]? = some t ∧ r.step t = none) := by
  cases ts with
  | nil => exact .inl ⟨rfl, (Except.error.inj h).symm⟩
  | cons t ts =>
    obtain ⟨p, r, hr, hstop, hend⟩ := Reading.run_eq_error h
    rw [Nat.zero_add] at hstop
    exact .inr ⟨by simp, p, r, hr, hstop, hend⟩

/-- There is nothing to read exactly where there are no tokens. -/
theorem parse_eq_empty_iff {ts : List (Token α)} : parse ts = .error .empty ↔ ts = [] := by
  constructor
  · intro h
    rcases parse_eq_error h with ⟨hnil, -⟩ | ⟨-, p, r, -, hstop, -⟩
    · exact hnil
    · cases hstop
  · rintro rfl
    rfl

/-- What the reader took is completed to a formula by leaves and parentheses. -/
theorem exists_parse_append (a : α) {ts : List (Token α)} {r : Reading α} (h : ({} : Reading α).after ts = some r) :
    ∃ us f, parse (ts ++ us) = .ok f ∧ ∀ t ∈ us, t = .leaf a ∨ t = .rparen := by
  obtain ⟨us, f, hf, hus⟩ := r.exists_completion a
  refine ⟨us, f, ?_, hus⟩
  rw [parse_eq_ok_iff, Reading.after_append, h, Option.bind_some, hf]

/-- No formula starts with what the reader took and a token that it does not take. -/
theorem not_derives_of_step {ts : List (Token α)} {r : Reading α} {p : Nat} {t : Token α}
    (h : ({} : Reading α).after (ts.take p) = some r) (ht : ts[p]? = some t) (hstep : r.step t = none) (us : List (Token α)) :
    ¬Grammar.Derives .biconditional (ts.take (p + 1) ++ us) := by
  intro hd
  obtain ⟨f, hf⟩ := hd.exists_writes
  have hparse := Grammar.parse_eq_ok_iff_writes.mpr hf
  rw [parse_eq_ok_iff, List.take_add_one, ht, Option.toList_some, List.append_assoc, Reading.after_append, h, Option.bind_some,
    List.singleton_append, Reading.after_cons, hstep] at hparse
  cases hparse

/-- A fault that is not that of no tokens is at the first token that offends, or at the end. -/
theorem parse_fault_located (a : α) {ts : List (Token α)} {e : ParseFault α} (h : parse ts = .error e) {p : Nat}
    (hp : e.position? = some p) :
    p ≤ ts.length ∧ e.found? = ts[p]? ∧
      (∃ us f, parse (ts.take p ++ us) = .ok f ∧ ∀ t ∈ us, t = .leaf a ∨ t = .rparen) ∧
      (p = ts.length ∨ ∀ us, ¬Grammar.Derives .biconditional (ts.take (p + 1) ++ us)) ∧
      ((∃ t, e = .closeDue t p) → ∃ d, depthAfter? Token.paren? 0 (ts.take p) = some (d + 1)) ∧
      ((∃ t, e = .leftover t p) → depthAfter? Token.paren? 0 (ts.take p) = some 0) := by
  rcases parse_eq_error h with ⟨-, rfl⟩ | ⟨-, q, r, hr, hstop, hend⟩
  · cases hp
  · obtain rfl : q = p := by cases hstop <;> exact Option.some.inj hp
    have hle : q ≤ ts.length := by
      rcases hend with rfl | ⟨t, ht, -⟩
      · exact Nat.le_refl _
      · exact Nat.le_of_lt (List.getElem?_eq_some_iff.mp ht).1
    have hfound : e.found? = ts[q]? := by
      cases hstop with
      | operandDue => rfl
      | closeDue => rfl
      | leftover ht => exact ht.symm
    have hdepth : depthAfter? Token.paren? 0 (ts.take q) = some r.outer.length := Reading.depthAfter?_of_after hr
    refine ⟨hle, hfound, exists_parse_append a hr, hend.imp_right ?_, ?_, ?_⟩
    · rintro ⟨t, ht, hstep⟩
      exact not_derives_of_step hr ht hstep
    · rintro ⟨t, rfl⟩
      cases hstop with
      | closeDue ho => exact ⟨r.outer.length - 1, by rw [hdepth, Nat.sub_add_cancel (List.length_pos_iff.mpr ho)]⟩
    · rintro ⟨t, rfl⟩
      cases hstop with
      | leftover _ ho => rw [hdepth, ho, List.length_nil]

end Formula

/-! ## Tokens and texts -/

/-- A token with a text that belongs to its kind can be written. -/
theorem Token.writable_of_hasText {t : Token Bool} (h : t.kind.HasText (t.text bit)) : (t.map bit).Writable := by
  cases t with
  | leaf b =>
    show (bit b).isAlphanum
    cases b <;> decide
  | equiv n =>
    generalize hw : Token.text bit (.equiv n) = w at h
    cases h with
    | @equiv m h1 h3 =>
      obtain rfl : n = m := by simpa [Token.text] using congrArg List.length hw
      exact ⟨h1, h3⟩
  | xor n =>
    generalize hw : Token.text bit (.xor n) = w at h
    cases h with
    | @xor m h1 h2 =>
      obtain rfl : n = m := by simpa [Token.text] using congrArg List.length hw
      exact ⟨h1, h2⟩
  | _ => trivial

/-- Tokens are those of some text, as long as each of them has a text that belongs to its kind. Each token is written with a space
behind it, so that no run is joined. -/
theorem Token.exists_scan {ts : List (Token Bool)} (h : ∀ t ∈ ts, t.kind.HasText (t.text bit)) :
    ∃ s, Token.scan bit? s = .ok ts := by
  have hspells : Token.Spells (ts.map (·.map bit)) (ts.flatMap fun t => (t.map bit).text id ++ [' ']) := by
    induction ts with
    | nil => exact .nil
    | cons t ts ih =>
      rw [List.map_cons, List.flatMap_cons, List.append_assoc, List.singleton_append]
      refine .token (Token.writable_of_hasText (h t List.mem_cons_self)) (fun _ => by simp) (.blank (by decide) ?_)
      exact ih fun u hu => h u (List.mem_cons_of_mem t hu)
  exact ⟨_, Token.scan_bit?_of_spells hspells⟩

/-- The fault of a text that has tokens is located at the first token that offends. The fault that there is nothing to read is
that of a text without tokens. Any other is at a token or at the end: the tokens before it are those with which some formula
starts, and no formula starts with these and the one at which the reading stops. A group is open there if it is to be closed, and
none is if the formula is complete. The tokens of the completed formula are those of a text, since each of them can be written. -/
theorem compile_fault_located {formula : String} {ts : List (Token Bool)} (hts : Token.scan bit? formula.toList = .ok ts) :
    (compile formula = .error ⟨formula, .malformed (.parse .empty)⟩ ↔ ts = []) ∧
      ∀ e, compile formula = .error e → ∃ fault, e = ⟨formula, .malformed (.parse fault)⟩ ∧
        ∀ p, fault.position? = some p → p ≤ ts.length ∧ fault.found? = ts[p]? ∧
          (∃ text f us, compile text = .ok f ∧ Token.scan bit? text.toList = .ok (ts.take p ++ us)) ∧
          (p = ts.length ∨ ∀ us, ¬Grammar.Derives .biconditional (ts.take (p + 1) ++ us)) ∧
          ((∃ t, fault = .closeDue t p) → ∃ d, depthAfter? Token.paren? 0 (ts.take p) = some (d + 1)) ∧
          ((∃ t, fault = .leftover t p) → depthAfter? Token.paren? 0 (ts.take p) = some 0) := by
  rw [compile_of_scan hts]
  refine ⟨?_, fun e he => ?_⟩
  · rw [← Formula.parse_eq_empty_iff]
    cases Formula.parse ts <;> simp
  · cases hparse : Formula.parse ts with
    | ok f => rw [hparse] at he; cases he
    | error fault =>
      rw [hparse] at he
      refine ⟨fault, (Except.error.inj he).symm, fun p hp => ?_⟩
      obtain ⟨hle, hfound, ⟨us, f, hf, hus⟩, hoffends, hclose, hleft⟩ := Formula.parse_fault_located true hparse hp
      refine ⟨hle, hfound, ?_, hoffends, hclose, hleft⟩
      have htext : ∀ t ∈ ts.take p ++ us, t.kind.HasText (t.text bit) := fun t ht => by
        rcases List.mem_append.mp ht with ht | ht
        · exact (of_scan_eq_ok hts).2 t (List.mem_of_mem_take ht)
        · rcases hus t ht with rfl | rfl
          · exact .const true
          · exact .rparen
      obtain ⟨s, hs⟩ := Token.exists_scan htext
      rw [← String.toList_ofList (l := s)] at hs
      exact ⟨String.ofList s, f, us, by rw [compile_of_scan hs, hf]; rfl, hs⟩

/-- In `(1 & 0 1` the second `1` stands where the group can only go on or be closed. -/
theorem compile_fault_located_open_group :
    Token.scan bit? "(1 & 0 1".toList = .ok [.lparen, .leaf true, .and, .leaf false, .leaf true] ∧
      compile "(1 & 0 1" = .error ⟨"(1 & 0 1", .malformed (.parse (.closeDue (some (.leaf true)) 4))⟩ ∧
      (∃ text f us, compile text = .ok f ∧
        Token.scan bit? text.toList = .ok ([.lparen, .leaf true, .and, .leaf false] ++ us)) ∧
      (∀ us, ¬Grammar.Derives .biconditional ([Token.lparen, .leaf true, .and, .leaf false, .leaf true] ++ us)) ∧
      ∃ d, depthAfter? Token.paren? 0 [Token.lparen, .leaf true, .and, .leaf false] = some (d + 1) := by
  have hscan : Token.scan bit? "(1 & 0 1".toList = .ok [.lparen, .leaf true, .and, .leaf false, .leaf true] := by decide
  have hfault : compile "(1 & 0 1" = .error ⟨"(1 & 0 1", .malformed (.parse (.closeDue (some (.leaf true)) 4))⟩ := by
    rw [compile_of_scan hscan]
    rfl
  obtain ⟨fault, he, hlocated⟩ := (compile_fault_located hscan).2 _ hfault
  obtain rfl : .closeDue (some (.leaf true)) 4 = fault := by simpa using he
  obtain ⟨-, -, hstarts, hoffends, hopen, -⟩ := hlocated 4 rfl
  exact ⟨hscan, hfault, hstarts, hoffends.resolve_left (by decide), hopen ⟨_, rfl⟩⟩

end Propositional
