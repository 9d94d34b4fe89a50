import Propositional.Proofs.Command.Finding
import Propositional.Proofs.Verdict.Equivalence

/-!
# The exit code of a verdict

A verdict on a derivation ends with exit code 0 if all rows of the steps agree, whatever form the verdict is shown in, and with 1
if the input fails on the way. Where some step has a letter, the code is 0 exactly for a derivation within the budget whose steps
are formulas with one value under each valuation (`exit_of_verify`). Steps without letters are not compared, and the code is 0 all
the same (`exit_of_verify_constants`).
-/

namespace Propositional

/-! ## Equivalent steps -/

/-- The steps of a derivation are formulas with one value under each valuation of the letters. -/
structure Derivation.Equivalent (steps : List Step) : Prop where
  wellFormed : ∀ t ∈ steps, WellFormed t.formula
  value : ∀ v : Valuation Char, v.keys.Perm alphabet → ∃ b, ∀ t ∈ steps, evaluateLetters t.formula v = .ok b

/-- Steps with letters are found equal exactly if they are equivalent. -/
theorem Derivation.equivalent_iff {steps : List Step} (hlength : 2 ≤ steps.length) (hl : ∃ t ∈ steps, letters t.formula ≠ []) :
    Equivalent steps ↔ ∃ v, Verdict.ofSteps (steps.map (·.formula)) = .ok v ∧ v.allEqual = true := by
  have hl : lettersOfAll (steps.map (·.formula)) ≠ [] := by
    obtain ⟨t, ht, hletters⟩ := hl
    exact lettersOfAll_ne_nil ⟨_, List.mem_map_of_mem ht, hletters⟩
  have hne : steps.map (·.formula) ≠ [] := by
    rintro hnil
    rw [hnil] at hl
    exact hl rfl
  have hx := nodup_lettersOfAll (steps.map (·.formula))
  have hforms : ∀ P : String → Prop, (∀ f ∈ steps.map (·.formula), P f) ↔ ∀ t ∈ steps, P t.formula := fun P => List.forall_mem_map
  simp only [verdict_eq_ok_iff (by simpa using hlength) hl]
  constructor
  · intro h
    have hread := (hforms WellFormed).mpr h.wellFormed
    obtain ⟨rows, hrows⟩ := exists_rowsOf_iff.mpr hread
    refine ⟨_, ⟨rows, hrows, rfl⟩, (allEqual_ofRows_iff hx hrows).mpr ((forall_not_differ_iff hne hread).mpr fun v hv => ?_)⟩
    exact (h.value v hv).imp fun b hb => (hforms _).mpr hb
  · rintro ⟨_, ⟨rows, hrows, rfl⟩, hequal⟩
    have hread := exists_rowsOf_iff.mp ⟨rows, hrows⟩
    refine ⟨(hforms WellFormed).mp hread, fun v hv => ?_⟩
    have hvalue := (forall_not_differ_iff hne hread).mp ((allEqual_ofRows_iff hx hrows).mp hequal) v hv
    exact hvalue.imp fun b hb => (hforms _).mp hb

namespace Command

/-! ## The command -/

/-- A run starts with a configuration and the steps of a derivation. -/
structure Reads (w : Surroundings) (i : Invocation) (derivation file : Option String) (c : Config) (text : String)
    (steps : List Step) : Prop where
  config : loadConfig w i = .ok c
  derivation : derivationText w derivation file = .ok text
  steps : Derivation.steps c.isStrict text = .ok steps

section Verify

variable {w : Surroundings} {args : List String} {i : Invocation} {derivation file : Option String} {json : Bool}

/-- A run that ends with an outcome has the outcome of its task, or that of a failure, whose exit code is 1. -/
theorem result_run (hparse : parse args = .ok i) {o : Outcome} (h : (run w args).result = .ok o) :
    (runTask w i).result = .ok o ∨ (∃ f, (runTask w i).result = .error (.failure f)) ∧ o.exit = 1 := by
  unfold run conclude at h
  rw [hparse] at h
  dsimp only at h
  cases htask : (runTask w i).result with
  | ok o' =>
    rw [htask] at h
    obtain rfl := Except.ok.inj h
    exact .inl rfl
  | error e =>
    rw [htask] at h
    cases e with
    | failure f =>
      obtain rfl := Except.ok.inj h
      exact .inr ⟨⟨f, rfl⟩, rfl⟩
    | crash c => cases h

/-- A task that has an outcome has read a derivation. -/
theorem exists_reads (htask : i.task = .verify derivation file json) {o : Outcome} (h : (runTask w i).result = .ok o) :
    ∃ c text steps, Reads w i derivation file c text steps := by
  cases hconfig : loadConfig w i with
  | error e =>
    rw [runTask_of_error hconfig] at h
    cases h
  | ok c =>
    rw [runTask_verify hconfig htask, result_runVerify, mapError_bind_eq_ok_iff] at h
    obtain ⟨p, hfind, -⟩ := h
    rw [result_findVerdict, bind_eq_ok_iff] at hfind
    obtain ⟨text, htext, hfind⟩ := hfind
    obtain ⟨steps, hsteps, -⟩ := mapError_bind_eq_ok_iff.mp hfind
    exact ⟨c, text, steps, hconfig, htext, hsteps⟩

variable {c : Config} {text : String} {steps : List Step} (htask : i.task = .verify derivation file json)
  (hreads : Reads w i derivation file c text steps)

include htask hreads

/-- A derivation that is read has its letters counted, and then its verdict shown. -/
theorem result_runTask_of_reads : (runTask w i).result =
    ((checkBudget c (steps.map (·.formula))).mapError .failure).bind fun _ =>
      ((Verdict.ofSteps (steps.map (·.formula))).mapError fun e => .failure (.logic (.formula e))).bind
        (verdictOutcome c text json) := by
  rw [runTask_verify hreads.config htask, result_runVerify, result_findVerdict, bind_of_eq_ok hreads.derivation,
    mapError_bind_of_eq_ok hreads.steps]
  cases checkBudget c (steps.map (·.formula)) with
  | error f => rfl
  | ok _ => cases Verdict.ofSteps (steps.map (·.formula)) <;> rfl

/-- A derivation that is read has the exit code of its verdict, or 1 if there is no verdict. What a verdict becomes has no
message, so a run that ends with one has no verdict. -/
theorem exit_of_reads (hparse : parse args = .ok i) {o : Outcome} (h : (run w args).result = .ok o) :
    (o.exit = 0 ∨ o.exit = 1) ∧ (o.exit = 0 ↔ checkBudget c (steps.map (·.formula)) = .ok () ∧
      ∃ v, Verdict.ofSteps (steps.map (·.formula)) = .ok v ∧ v.allEqual = true) := by
  have hresult := result_runTask_of_reads htask hreads
  rcases result_run hparse h with hok | ⟨⟨f, hfailure⟩, hexit⟩
  · rw [hresult, mapError_bind_eq_ok_iff] at hok
    obtain ⟨_, hbudget, hok⟩ := hok
    obtain ⟨v, hv, hok⟩ := mapError_bind_eq_ok_iff.mp hok
    have hcode : o.exit = exitCode v := by
      rcases verdictOutcome_cases c text json v with ⟨o', ho', hexit⟩ | ⟨-, e, he⟩
      · rw [ho'] at hok
        rw [← Except.ok.inj hok, hexit]
      · rw [he] at hok
        cases hok
    rw [hcode, exitCode]
    refine ⟨by cases v.allEqual <;> simp, ⟨fun hzero => ⟨hbudget, v, hv, ?_⟩, ?_⟩⟩
    · by_contra hequal
      rw [if_neg hequal] at hzero
      cases hzero
    · rintro ⟨-, v', hv', hequal⟩
      obtain rfl := Except.ok.inj (hv.symm.trans hv')
      exact if_pos hequal
  · refine ⟨.inr hexit, ⟨fun hzero => absurd (hexit.symm.trans hzero) (by decide), ?_⟩⟩
    rintro ⟨hbudget, v, hv, -⟩
    rw [hresult, mapError_bind_of_eq_ok hbudget, mapError_bind_of_eq_ok hv] at hfailure
    exact absurd hfailure (verdictOutcome_ne_failure c text json v f)

end Verify

/-- What the exit code of a verdict says. The code is 0 only if a derivation was read. It is 0 or 1 then, and where there are two
steps or more and a letter in one of them, it is 0 exactly if the steps have no more letters than are allowed and are
equivalent. -/
theorem exit_of_verify {w : Surroundings} {args : List String} {i : Invocation} {derivation file : Option String} {json : Bool}
    (hparse : parse args = .ok i) (htask : i.task = .verify derivation file json) {o : Outcome}
    (hrun : (run w args).result = .ok o) :
    (o.exit = 0 → ∃ c text steps, Reads w i derivation file c text steps) ∧
    ∀ c text steps, Reads w i derivation file c text steps →
      (o.exit = 0 ∨ o.exit = 1) ∧
      (2 ≤ steps.length → (∃ t ∈ steps, letters t.formula ≠ []) →
        (o.exit = 0 ↔ c.exceeds (lettersOfAll (steps.map (·.formula))).length = false ∧ Derivation.Equivalent steps)) := by
  refine ⟨fun hzero => ?_, fun c text steps hreads => ?_⟩
  · rcases result_run hparse hrun with hok | ⟨-, hexit⟩
    · exact exists_reads htask hok
    · exact absurd (hexit.symm.trans hzero) (by decide)
  · obtain ⟨hcodes, hzero⟩ := exit_of_reads htask hreads hparse hrun
    refine ⟨hcodes, fun hlength hl => ?_⟩
    rw [hzero, checkBudget_eq_ok_iff, Derivation.equivalent_iff hlength hl]

/-- The code is 0 for `A` and its double negation, so they are equivalent. -/
theorem exit_of_verify_double_negation :
    ∃ o, (run {} ["verify", "A = \\lnot \\lnot A", "--style", "plain"]).result = .ok o ∧ o.exit = 0 ∧
      Derivation.Equivalent [⟨1, "A", "A", []⟩, ⟨2, "!!A", "\\lnot \\lnot A", []⟩] := by
  have hparse : parse ["verify", "A = \\lnot \\lnot A", "--style", "plain"] =
      .ok ⟨some (some .plain), none, false, .verify (some "A = \\lnot \\lnot A") none false⟩ := by decide
  have hreads : Reads {} ⟨some (some .plain), none, false, .verify (some "A = \\lnot \\lnot A") none false⟩
      (some "A = \\lnot \\lnot A") none { style := .plain } "A = \\lnot \\lnot A"
      [⟨1, "A", "A", []⟩, ⟨2, "!!A", "\\lnot \\lnot A", []⟩] := ⟨rfl, rfl, by decide⟩
  obtain ⟨o, ho, hexit⟩ : ∃ o, (run {} ["verify", "A = \\lnot \\lnot A", "--style", "plain"]).result = .ok o ∧ o.exit = 0 :=
    ⟨_, rfl, rfl⟩
  obtain ⟨-, hall⟩ := exit_of_verify hparse rfl ho
  have hletter : letters "A" ≠ [] := by decide
  have hequivalent := ((hall _ _ _ hreads).2 (by decide) ⟨_, List.mem_cons_self, hletter⟩).mp hexit
  exact ⟨o, ho, hexit, hequivalent.2⟩

/-- The code is 0 for `\top` and `\bot` as well, which are two steps with different values, since there is no letter in them. -/
theorem exit_of_verify_constants :
    ∃ i o c text steps, parse ["verify", "\\top = \\bot", "--style", "plain"] = .ok i ∧
      i.task = .verify (some "\\top = \\bot") none false ∧
      (run {} ["verify", "\\top = \\bot", "--style", "plain"]).result = .ok o ∧ o.exit = 0 ∧
      Reads {} i (some "\\top = \\bot") none c text steps ∧ steps.length = 2 ∧ ¬Derivation.Equivalent steps := by
  refine ⟨⟨some (some .plain), none, false, .verify (some "\\top = \\bot") none false⟩, _, { style := .plain }, "\\top = \\bot",
    [⟨1, "1", "\\top", []⟩, ⟨2, "0", "\\bot", []⟩], by decide, rfl, rfl, rfl, ⟨rfl, rfl, by decide⟩, rfl, fun h => ?_⟩
  obtain ⟨b, hb⟩ := h.value (.assign alphabet fun _ => true) (by rw [Valuation.keys_assign])
  have htop : evaluateLetters "1" (.assign alphabet fun _ => true) = .ok true := by decide
  have hbot : evaluateLetters "0" (.assign alphabet fun _ => true) = .ok false := by decide
  have htrue := htop.symm.trans (hb ⟨1, "1", "\\top", []⟩ (by simp))
  have hfalse := hbot.symm.trans (hb ⟨2, "0", "\\bot", []⟩ (by simp))
  cases htrue.trans hfalse.symm

end Command

end Propositional
