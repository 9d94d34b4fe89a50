import Propositional.Command
import Propositional.Proofs.Results

/-!
# What a run finds out

A table or a verdict is found out before anything is shown: `findTable` and `findVerdict` print nothing, and fail only in ways
that have a message. What they find becomes one outcome, which fails only where a glyph is no text (`tableOutcome_of_hasTexts`,
`verdictOutcome_of_hasTexts`).
-/

namespace Propositional

/-! ## Results of computations that warn -/

namespace Logged

variable {ε ε' α β : Type}

/-- The result of two computations one after the other is that of the second on the result of the first. -/
@[simp] theorem result_bind (x : Logged ε α) (f : α → Logged ε β) :
    (x >>= f).result = x.result.bind fun a => (f a).result := by
  show (x.bind f).result = _
  unfold Logged.bind
  cases x.result <;> rfl

/-- A result without warnings is the result. -/
@[simp] theorem result_ofExcept (r : Except ε α) : (ofExcept r).result = r := rfl

/-- Warnings alone do not fail. -/
@[simp] theorem result_warn (ws : List Warning) : (warn ws : Logged ε Unit).result = .ok () := rfl

/-- Seeing the failure as another changes the result alone. -/
@[simp] theorem result_mapError (f : ε → ε') (x : Logged ε α) : (x.mapError f).result = x.result.mapError f := rfl

end Logged

/-- The warnings on steps do not change what the steps are. -/
theorem Derivation.result_stepsLogged (strict : Bool) (s : String) : (stepsLogged strict s).result = steps strict s := by
  unfold stepsLogged
  cases steps strict s <;> rfl

/-! ## Glyphs -/

/-- The glyphs of a configuration are texts. -/
def Config.HasTexts (c : Config) : Prop := ∃ yes no : JsonText, c.trueGlyph = .str yes ∧ c.falseGlyph = .str no

namespace Config

/-- The glyphs as they are shown beside some texts, with stand-ins for their surrogates. -/
def shownGlyphs (c : Config) (texts : List String) : Glyphs := (c.withStandIns (c.standIns texts)).displayed

/-- Glyphs that are texts are shown as such. -/
theorem HasTexts.texts? {c : Config} (h : c.HasTexts) (texts : List String) :
    (c.withStandIns (c.standIns texts)).texts? = some (c.shownGlyphs texts) := by
  obtain ⟨yes, no, hyes, hno⟩ := h
  unfold shownGlyphs
  generalize c.standIns texts = m
  simp only [withStandIns, displayed, Config.texts?, hyes, hno]
  rfl

end Config

namespace Command

open Report

/-! ## Finding out -/

/-- A table of formulas in native notation: their letters are counted before they are evaluated. -/
theorem result_findTable_native (c : Config) (formulas : List String) :
    (findTable c formulas false).result = (checkBudget c formulas).bind fun _ =>
      (TruthTable.ofFormulas formulas).mapError fun e => .logic (.formula e) := by
  rw [findTable, if_neg Bool.false_ne_true, Logged.result_bind]
  rfl

/-- A table of formulas in LaTeX: the letters of their native notations are counted before they are evaluated. -/
theorem result_findTable_latex (c : Config) (formulas : List String) :
    (findTable c formulas true).result =
      ((Latex.normalizeAll c.isStrict formulas).result.mapError fun e => .logic (.scope e)).bind fun normal =>
        (checkBudget c (normal.map (·.formula))).bind fun _ =>
          (TruthTable.ofLatex c.isStrict formulas).result.mapError .logic := by
  unfold findTable
  simp only [if_true, Logged.result_bind, Logged.result_ofExcept, Logged.result_mapError]

/-- A verdict: the text is read and cut into steps, and their letters are counted before they are evaluated. -/
theorem result_findVerdict (w : Surroundings) (c : Config) (derivation file : Option String) :
    (findVerdict w c derivation file).result = (derivationText w derivation file).bind fun text =>
      ((Derivation.steps c.isStrict text).mapError fun e => .logic (.scope e)).bind fun steps =>
        (checkBudget c (steps.map (·.formula))).bind fun _ =>
          ((Verdict.ofSteps (steps.map (·.formula))).mapError fun e => .logic (.formula e)).map fun v => (text, v) := by
  unfold findVerdict
  simp only [Logged.result_bind, Logged.result_ofExcept, Logged.result_mapError, Logged.result_warn,
    Derivation.result_stepsLogged]
  rfl

/-- A budget that is kept says nothing. -/
theorem checkBudget_eq_ok_iff {c : Config} {formulas : List String} :
    checkBudget c formulas = .ok () ↔ c.exceeds (lettersOfAll formulas).length = false := by
  unfold checkBudget
  cases h : c.exceeds (lettersOfAll formulas).length <;> simp [h]

/-! ## What is to be shown -/

/-- What is on the standard output and on the console. -/
abbrev Output := String × List Print

/-- A table in a style: on the console if the style is colorized, else on the standard output. -/
def tableOutput (style : Style) (g : Glyphs) (t : TruthTable) : Output :=
  match style with
  | .markdown => (markdownTable t ++ "\n", [])
  | .plain => (plainTable g t ++ "\n", [])
  | .colorized => ("", consoleTable g t)

/-- A verdict as JSON or in a style. There is no markdown for it. -/
def verdictOutput (json : Bool) (style : Style) (g : Glyphs) (v : Verdict) : Output :=
  match json, style with
  | true, _ => (v.toJson.render ++ "\n", [])
  | false, .colorized => ("", consoleVerdict g v)
  | false, _ => (plainVerdict g v ++ "\n", [])

/-- A table is shown on one channel. -/
theorem tableOutput_oneChannel (style : Style) (g : Glyphs) (t : TruthTable) :
    (tableOutput style g t).1 = "" ∨ (tableOutput style g t).2 = [] := by
  cases style with
  | markdown => exact .inr rfl
  | plain => exact .inr rfl
  | colorized => exact .inl rfl

/-- On the console there is the report of a verdict, or nothing. -/
theorem verdictOutput_console (json : Bool) (style : Style) (g : Glyphs) (v : Verdict) :
    (verdictOutput json style g v).2 = [] ∨ (verdictOutput json style g v).2 = consoleVerdict g v := by
  cases json with
  | true => exact .inl rfl
  | false =>
    cases style with
    | markdown => exact .inl rfl
    | plain => exact .inl rfl
    | colorized => exact .inr rfl

/-- A verdict is shown on one channel. -/
theorem verdictOutput_oneChannel (json : Bool) (style : Style) (g : Glyphs) (v : Verdict) :
    (verdictOutput json style g v).1 = "" ∨ (verdictOutput json style g v).2 = [] := by
  cases json with
  | true => exact .inr rfl
  | false =>
    cases style with
    | markdown => exact .inr rfl
    | plain => exact .inr rfl
    | colorized => exact .inl rfl

/-- The outcome that shows a table. -/
def tableShown (c : Config) (formulas : List String) (t : TruthTable) : Outcome :=
  let output := tableOutput c.style (c.shownGlyphs formulas) t
  { exit := 0, stdout := output.1, console := output.2, standIns := c.standIns formulas }

/-- The outcome that shows a verdict on a text. -/
def verdictShown (c : Config) (json : Bool) (text : String) (v : Verdict) : Outcome :=
  let output := verdictOutput json c.style (c.shownGlyphs [text]) v
  { exit := exitCode v, stdout := output.1, console := output.2, standIns := if json then [] else c.standIns [text] }

/-- The outcome of a table fails only on glyphs. -/
theorem tableOutcome_ne_failure (c : Config) (formulas : List String) (t : TruthTable) (f : Failure) :
    tableOutcome c formulas t ≠ .error (.failure f) := by
  unfold tableOutcome
  cases styledTable (c.withStandIns (c.standIns formulas)) t <;> nofun

/-- The outcome of a verdict has the exit code of the verdict, or fails on glyphs. -/
theorem verdictOutcome_cases (c : Config) (text : String) (json : Bool) (v : Verdict) :
    (∃ o, verdictOutcome c text json v = .ok o ∧ o.exit = exitCode v) ∨
      json = false ∧ ∃ e, verdictOutcome c text json v = .error (.crash (.glyphs e)) := by
  unfold verdictOutcome
  cases json with
  | true => exact .inl ⟨_, rfl, rfl⟩
  | false =>
    cases styledVerdict (c.withStandIns (c.standIns [text])) v with
    | error e => exact .inr ⟨rfl, e, rfl⟩
    | ok report => exact .inl ⟨_, rfl, by cases report <;> rfl⟩

/-- The outcome of a verdict fails only on glyphs. -/
theorem verdictOutcome_ne_failure (c : Config) (text : String) (json : Bool) (v : Verdict) (f : Failure) :
    verdictOutcome c text json v ≠ .error (.failure f) := by
  intro h
  rcases verdictOutcome_cases c text json v with ⟨o, ho, -⟩ | ⟨-, e, he⟩
  · cases ho.symm.trans h
  · cases he.symm.trans h

section Shown

variable {c : Config} (hc : c.HasTexts)

include hc

/-- With texts for glyphs a table has an outcome. -/
theorem tableOutcome_of_hasTexts (formulas : List String) (t : TruthTable) :
    tableOutcome c formulas t = .ok (tableShown c formulas t) := by
  have htexts := hc.texts? formulas
  have hstyle : (c.withStandIns (c.standIns formulas)).style = c.style := rfl
  unfold tableOutcome styledTable tableShown tableOutput
  rw [hstyle]
  cases c.style with
  | markdown => rfl
  | plain => rw [plainTableOf, htexts]; rfl
  | colorized => rfl

/-- With texts for glyphs a verdict has an outcome. -/
theorem verdictOutcome_of_hasTexts (json : Bool) (text : String) (v : Verdict) :
    verdictOutcome c text json v = .ok (verdictShown c json text v) := by
  have htexts := hc.texts? [text]
  have hstyle : (c.withStandIns (c.standIns [text])).style = c.style := rfl
  cases json with
  | true => rfl
  | false =>
    unfold verdictOutcome styledVerdict verdictShown verdictOutput
    rw [hstyle]
    cases c.style with
    | markdown => simp only [plainVerdictOf, htexts]; rfl
    | plain => simp only [plainVerdictOf, htexts]; rfl
    | colorized => simp only [consoleVerdictOf, htexts]; rfl

end Shown

/-! ## Tasks -/

/-- A table is found out and then shown. -/
theorem result_runTable (c : Config) (formulas : List String) (latex : Bool) : (runTable c formulas latex).result =
    ((findTable c formulas latex).result.mapError .failure).bind (tableOutcome c formulas) := by
  rw [runTable, Logged.result_bind]
  rfl

/-- A verdict is found out and then shown. -/
theorem result_runVerify (w : Surroundings) (c : Config) (derivation file : Option String) (json : Bool) :
    (runVerify w c derivation file json).result =
      ((findVerdict w c derivation file).result.mapError .failure).bind fun p => verdictOutcome c p.1 json p.2 := by
  rw [runVerify, Logged.result_bind]
  rfl

/-- With texts for glyphs, a table that is found out is shown. -/
theorem runTable_eq {c : Config} (hc : c.HasTexts) (formulas : List String) (latex : Bool) :
    runTable c formulas latex = (findTable c formulas latex).mapError .failure >>= fun t => pure (tableShown c formulas t) := by
  rw [runTable]
  simp only [tableOutcome_of_hasTexts hc]
  rfl

/-- With texts for glyphs, a verdict that is found out is shown. -/
theorem runVerify_eq {w : Surroundings} {c : Config} (hc : c.HasTexts) (derivation file : Option String) (json : Bool) :
    runVerify w c derivation file json =
      (findVerdict w c derivation file).mapError .failure >>= fun p => pure (verdictShown c json p.1 p.2) := by
  rw [runVerify]
  simp only [verdictOutcome_of_hasTexts hc]
  rfl

section Task

variable {w : Surroundings} {i : Invocation} {c : Config} {formulas : List String} {latex : Bool}
  {derivation file : Option String} {json : Bool}

/-- A task without a configuration fails before it starts. -/
theorem runTask_of_error {e : Fault} (hload : loadConfig w i = .error e) : runTask w i = ⟨[], .error e⟩ := by
  rw [runTask, hload]
  rfl

/-- A task for a table is that of the configuration. -/
theorem runTask_table (hload : loadConfig w i = .ok c) (htask : i.task = .table formulas latex) :
    runTask w i = runTable c formulas latex := by
  rw [runTask, hload, htask]
  rfl

/-- A task for a verdict is that of the configuration. -/
theorem runTask_verify (hload : loadConfig w i = .ok c) (htask : i.task = .verify derivation file json) :
    runTask w i = runVerify w c derivation file json := by
  rw [runTask, hload, htask]
  rfl

end Task

end Command

end Propositional
