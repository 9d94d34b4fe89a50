import Propositional.Proofs.Command.ExitCode
import Propositional.Proofs.Command.Outcome
import Propositional.Proofs.Table.Built

/-!
# The budget of a run

A run counts the letters of the formulas it has read before it evaluates any of them. Tables and verdicts find their letters in
ways of their own, but always the same ones (`lists_lettersOfAll`, `lists_columnLetters`). So a run with more letters than the
limit fails with their number, whatever its formulas are, and any other run goes through one valuation for each subset of these
letters (`budget_of_run`).
-/

namespace Propositional

open TruthTable (columnLetters)

/-! ## Counting letters -/

/-- The letters of formulas: the capital letters in their texts. -/
def letterSet (formulas : List String) : Finset Char := ((formulas.flatMap String.toList).filter Char.isUpper).toFinset

/-- A list of letters has each letter of a set once, and no others. -/
structure Lists (xs : List Char) (letters : Finset Char) : Prop where
  nodup : xs.Nodup
  toFinset : xs.toFinset = letters

namespace Lists

variable {xs ys : List Char} {letters : Finset Char}

/-- As many as there are letters. -/
theorem length (h : Lists xs letters) : xs.length = letters.card := by
  rw [← h.toFinset, List.toFinset_card_of_nodup h.nodup]

/-- There are two to the number of letters valuations of them. -/
theorem length_valuations (h : Lists xs letters) : (valuations xs).length = 2 ^ letters.card := by
  rw [Valuation.length_valuations, h.length]

/-- What is listed in one order is listed in any other. -/
theorem of_perm (h : Lists ys letters) (hperm : xs.Perm ys) : Lists xs letters :=
  ⟨hperm.nodup_iff.mpr h.nodup, (List.toFinset_eq_of_perm _ _ hperm).trans h.toFinset⟩

end Lists

/-- The letters of formulas are listed once each. -/
theorem lists_lettersOfAll (formulas : List String) : Lists (lettersOfAll formulas) (letterSet formulas) := by
  refine ⟨nodup_lettersOfAll formulas, Finset.ext fun x => ?_⟩
  simp only [letterSet, List.mem_toFinset, List.mem_filter, List.mem_flatMap, mem_lettersOfAll, mem_letters]
  constructor
  · rintro ⟨f, hf, hx, hmem⟩
    exact ⟨⟨f, hf, hmem⟩, hx⟩
  · rintro ⟨⟨f, hf, hmem⟩, hx⟩
    exact ⟨f, hf, hx, hmem⟩

/-- The order of a table does not change which letters it has. -/
theorem lists_columnLetters {formulas : List String} (htrim : ∀ f ∈ formulas, Text.trim f.toList = f.toList) :
    Lists (columnLetters formulas) (letterSet formulas) := by
  obtain ⟨pinned, others, hcolumns, hordered⟩ := isOrdered_columnLetters htrim
  rw [hcolumns]
  exact (lists_lettersOfAll formulas).of_perm hordered.perm_lettersOfAll

/-! ## Limits -/

/-- A float below an integer is below every greater one. -/
theorem Binary64.compareInt_lt_mono {x : Binary64} {m n : Int} (hle : m ≤ n) (h : x.compareInt m = some .lt) :
    x.compareInt n = some .lt := by
  cases x with
  | nan => cases h
  | infinity negative => exact h
  | finite negative mantissa e =>
    simp only [compareInt, Option.some.injEq, Std.compare_eq_lt] at h ⊢
    exact lt_of_lt_of_le h (Int.mul_le_mul_of_nonneg_right hle (Int.natCast_nonneg _))

/-- A value below an integer is below every greater one. -/
theorem Json.compareInt?_lt_mono {x : Json} {m n : Int} (hle : m ≤ n) (h : x.compareInt? m = some (some .lt)) :
    x.compareInt? n = some (some .lt) := by
  cases x with
  | bool b =>
    simp only [compareInt?, Option.some.injEq, Std.compare_eq_lt] at h ⊢
    exact lt_of_lt_of_le h hle
  | int l =>
    simp only [compareInt?, Option.some.injEq, Std.compare_eq_lt] at h ⊢
    exact lt_of_lt_of_le h hle
  | float y => exact congrArg some (Binary64.compareInt_lt_mono hle (Option.some.inj h))
  | _ => cases h

namespace Config

variable {c : Config} {m n : Nat}

/-- A number exceeds the limit exactly if the limit compares as less. -/
theorem exceeds_iff : c.exceeds n = true ↔ c.maxVariables.compareInt? n = some (some .lt) := beq_iff_eq

/-- What is more than a number that exceeds the limit exceeds it too. -/
theorem exceeds_mono (hle : m ≤ n) (h : c.exceeds m = true) : c.exceeds n = true :=
  exceeds_iff.mpr (Json.compareInt?_lt_mono (Int.ofNat_le.mpr hle) (exceeds_iff.mp h))

/-- A number exceeds an integer as the limit exactly if it is greater. -/
theorem exceeds_int_iff {limit : Int} (hlimit : c.maxVariables = .int limit) : c.exceeds n = true ↔ limit < n := by
  rw [exceeds_iff, hlimit]
  simp only [Json.compareInt?, Option.some.injEq, Std.compare_eq_lt]

end Config

/-! ## Tabulating -/

/-- What a table and a verdict have in common. -/
structure Tabulation where
  status : Status
  letters : List Char := []
  rows : List Row := []

/-- The status, the letters and the rows of a table. -/
def TruthTable.tabulation (t : TruthTable) : Tabulation := ⟨t.status, t.letters, t.rows⟩

/-- The status, the letters and the rows of a verdict. -/
def Verdict.tabulation (v : Verdict) : Tabulation := ⟨v.status, v.letters, v.rows⟩

/-- A computation goes through the valuations of the letters of formulas once: its result is made from the rows for these, with
some of the formulas as columns, if there is anything to tabulate. -/
inductive Tabulates {α : Type} (view : α → Tabulation) (formulas : List String) : Except FormulaError α → Prop where
  | nothing {a : α} {status : Status} (hview : view a = { status := status }) (hstatus : status ≠ .ok) :
    Tabulates view formulas (.ok a)
  | rows {columns : List String} (hcolumns : columns.Sublist formulas) {xs : List Char} (hxs : Lists xs (letterSet formulas))
    (make : List Row → α) (hview : ∀ rows, view (make rows) = ⟨.ok, xs, rows⟩) :
    Tabulates view formulas ((rowsOf xs columns).map make)

/-- A table of native formulas is a tabulation of them. -/
theorem tabulates_ofFormulas (formulas : List String) :
    Tabulates TruthTable.tabulation formulas (TruthTable.ofFormulas formulas) := by
  unfold TruthTable.ofFormulas
  split_ifs
  · exact .nothing rfl nofun
  · exact .nothing rfl nofun
  · exact .rows (.refl formulas) (lists_lettersOfAll formulas) _ fun _ => rfl

/-- A table of normalized formulas is a tabulation of them, with their sources as headings. -/
theorem tabulates_ofNormalized {sources formulas : List String} (hlength : sources.length = formulas.length)
    (htrim : ∀ f ∈ formulas, Text.trim f.toList = f.toList) :
    Tabulates TruthTable.tabulation formulas (TruthTable.ofNormalized sources formulas) := by
  have hzip : (sources.zip formulas).map Prod.snd = formulas := List.map_snd_zip (Nat.le_of_eq hlength.symm)
  unfold TruthTable.ofNormalized
  dsimp only
  split_ifs
  · exact .nothing rfl nofun
  · refine .rows ?_ (lists_columnLetters htrim) _ fun _ => rfl
    exact (List.filter_sublist.map Prod.snd).trans (by rw [hzip])

/-- A verdict is a tabulation of its steps. -/
theorem tabulates_ofSteps (steps : List String) : Tabulates Verdict.tabulation steps (Verdict.ofSteps steps) := by
  unfold Verdict.ofSteps
  split_ifs
  · exact .nothing rfl nofun
  · exact .nothing rfl nofun
  · exact .rows (.refl steps) (lists_lettersOfAll steps) _ fun _ => rfl

/-- A table of LaTeX formulas finds its letters in their native notations. -/
theorem exists_tabulates_of_ofLatex {strict : Bool} {sources : List String} {ns : List Latex.Normalized}
    (h : List.Forall₂ (fun s n => Latex.normalize strict s = .ok n) sources ns) :
    ∃ x, (TruthTable.ofLatex strict sources).result = x.mapError .formula ∧
      Tabulates TruthTable.tabulation (ns.map (·.formula)) x := by
  by_cases hne : sources = []
  · subst hne
    exact ⟨.ok { status := .noExpressions }, rfl, .nothing rfl nofun⟩
  · exact ⟨_, by rw [ofLatex_of_normalize hne h], tabulates_ofNormalized (by simpa using h.length_eq) (trim_formulas h)⟩

/-- A result with rows has one for each subset of the letters. -/
theorem Tabulates.lists_of_ok {α : Type} {view : α → Tabulation} {formulas : List String} {x : Except FormulaError α}
    (h : Tabulates view formulas x) {a : α} (ha : x = .ok a) (hstatus : (view a).status = .ok) :
    Lists (view a).letters (letterSet formulas) ∧ (view a).rows.length = 2 ^ (letterSet formulas).card := by
  cases h with
  | nothing hview hne =>
    obtain rfl := Except.ok.inj ha
    rw [hview] at hstatus
    exact absurd hstatus hne
  | @rows columns _ xs hxs make hview =>
    cases hrows : rowsOf xs columns with
    | error e =>
      rw [hrows] at ha
      cases ha
    | ok rows =>
      rw [hrows] at ha
      obtain rfl := Except.ok.inj ha
      rw [hview]
      exact ⟨hxs, (length_rows hrows).trans (by rw [hxs.length])⟩

namespace Command

open Report

/-! ## What a run reads and what it gives -/

/-- The formulas in native notation that a run reads: those of a table as they are or normalized, or the steps of a derivation. -/
inductive ReadsFormulas (w : Surroundings) (c : Config) : Task → List String → Prop where
  | native (formulas : List String) : ReadsFormulas w c (.table formulas false) formulas
  | latex {sources : List String} {ns : List Latex.Normalized}
    (hnormal : List.Forall₂ (fun s n => Latex.normalize c.isStrict s = .ok n) sources ns) :
    ReadsFormulas w c (.table sources true) (ns.map (·.formula))
  | derivation {derivation file : Option String} {json : Bool} {text : String} {steps : List Step}
    (htext : derivationText w derivation file = .ok text) (hsteps : Derivation.steps c.isStrict text = .ok steps) :
    ReadsFormulas w c (.verify derivation file json) (steps.map (·.formula))

/-- The table or verdict that a task asks for, and what comes of showing it. -/
inductive Gives (w : Surroundings) (c : Config) : Task → Tabulation → Except Fault Outcome → Prop where
  | native {formulas : List String} {t : TruthTable} (h : TruthTable.ofFormulas formulas = .ok t) :
    Gives w c (.table formulas false) t.tabulation (tableOutcome c formulas t)
  | latex {sources : List String} {t : TruthTable} (h : (TruthTable.ofLatex c.isStrict sources).result = .ok t) :
    Gives w c (.table sources true) t.tabulation (tableOutcome c sources t)
  | derivation {derivation file : Option String} {json : Bool} {text : String} {steps : List Step} {v : Verdict}
    (htext : derivationText w derivation file = .ok text) (hsteps : Derivation.steps c.isStrict text = .ok steps)
    (h : Verdict.ofSteps (steps.map (·.formula)) = .ok v) :
    Gives w c (.verify derivation file json) v.tabulation (verdictOutcome c text json v)

/-- How a task ends that goes through the valuations of the letters of its formulas: it gives a status without rows, or the rows
for these valuations, or it fails where one of the rows does. -/
inductive GoesThrough (w : Surroundings) (c : Config) (task : Task) (formulas : List String) : Except Fault Outcome → Prop where
  | nothing {status : Status} {r : Except Fault Outcome} (hstatus : status ≠ .ok)
    (hgives : Gives w c task { status := status } r) : GoesThrough w c task formulas r
  | rows {columns : List String} {xs : List Char} {rows : List Row} {r : Except Fault Outcome}
    (hcolumns : columns.Sublist formulas) (hxs : Lists xs (letterSet formulas))
    (hcount : (valuations xs).length = 2 ^ (letterSet formulas).card) (hrows : rowsOf xs columns = .ok rows)
    (hgives : Gives w c task ⟨.ok, xs, rows⟩ r) : GoesThrough w c task formulas r
  | failure {columns : List String} {xs : List Char} {e : FormulaError} (hcolumns : columns.Sublist formulas)
    (hxs : Lists xs (letterSet formulas)) (hcount : (valuations xs).length = 2 ^ (letterSet formulas).card)
    (hrows : rowsOf xs columns = .error e) : GoesThrough w c task formulas (.error (.failure (.logic (.formula e))))

/-! ## One computation for all tasks -/

/-- A run counts the letters of its formulas and goes on with one computation. -/
structure Computes {α : Type} (w : Surroundings) (c : Config) (i : Invocation) (formulas : List String) (view : α → Tabulation)
    (x : Except FormulaError α) (present : α → Except Fault Outcome) : Prop where
  result : (runTask w i).result = ((checkBudget c formulas).mapError .failure).bind fun _ =>
    (x.mapError fun e => .failure (.logic (.formula e))).bind present
  tabulates : Tabulates view formulas x
  gives_iff : ∀ t r, Gives w c i.task t r ↔ ∃ a, x = .ok a ∧ view a = t ∧ present a = r
  present_ne : ∀ a f, present a ≠ .error (.failure f)

variable {w : Surroundings} {args : List String} {i : Invocation} {c : Config} {formulas : List String}

/-- A task for a table of formulas in native notation counts their letters and goes on with the table. -/
theorem result_runTask_native (hload : loadConfig w i = .ok c) (htask : i.task = .table formulas false) :
    (runTask w i).result = ((checkBudget c formulas).mapError .failure).bind fun _ =>
      ((TruthTable.ofFormulas formulas).mapError fun e => .failure (.logic (.formula e))).bind (tableOutcome c formulas) := by
  rw [runTask_table hload htask, result_runTable, result_findTable_native, mapError_bind_bind]
  rfl

/-- A task for a table of formulas in LaTeX counts the letters of their native notations and goes on with the table. -/
theorem result_runTask_latex (hload : loadConfig w i = .ok c) {sources : List String} (htask : i.task = .table sources true)
    {ns : List Latex.Normalized} (hnormal : List.Forall₂ (fun s n => Latex.normalize c.isStrict s = .ok n) sources ns) :
    (runTask w i).result = ((checkBudget c (ns.map (·.formula))).mapError .failure).bind fun _ =>
      ((TruthTable.ofLatex c.isStrict sources).result.mapError fun e => .failure (.logic e)).bind (tableOutcome c sources) := by
  have hall : (Latex.normalizeAll c.isStrict sources).result = .ok ns := by
    rw [Latex.normalizeAll, mapM_eq_ok_iff.mpr hnormal]
  rw [runTask_table hload htask, result_runTable, result_findTable_latex, mapError_bind_of_eq_ok hall, mapError_bind_bind]
  rfl

/-- A run that reads formulas computes something with rows for them. -/
theorem exists_computes (hload : loadConfig w i = .ok c) (hreads : ReadsFormulas w c i.task formulas) :
    ∃ (α : Type) (view : α → Tabulation) (x : Except FormulaError α) (present : α → Except Fault Outcome),
      Computes w c i formulas view x present := by
  generalize htask : i.task = task at hreads
  cases hreads with
  | native formulas =>
    have hresult := result_runTask_native hload htask
    refine ⟨_, _, _, _, hresult, tabulates_ofFormulas formulas, fun t r => ?_, tableOutcome_ne_failure c formulas⟩
    rw [htask]
    constructor
    · rintro ⟨h⟩
      exact ⟨_, h, rfl, rfl⟩
    · rintro ⟨t, h, rfl, rfl⟩
      exact .native h
  | @latex sources ns hnormal =>
    obtain ⟨x, hx, htabulates⟩ := exists_tabulates_of_ofLatex hnormal
    refine ⟨_, _, x, tableOutcome c sources, ?_, htabulates, fun t r => ?_, tableOutcome_ne_failure c sources⟩
    · rw [result_runTask_latex hload htask hnormal, hx, Except.mapError_mapError]
      rfl
    · rw [htask]
      constructor
      · rintro (_ | h)
        exact ⟨_, mapError_eq_ok_iff.mp (hx.symm.trans h), rfl, rfl⟩
      · rintro ⟨t, h, rfl, rfl⟩
        exact .latex (hx.trans (mapError_eq_ok_iff.mpr h))
  | @derivation derivation file json text steps htext hsteps =>
    refine ⟨_, _, _, verdictOutcome c text json, result_runTask_of_reads htask ⟨hload, htext, hsteps⟩, tabulates_ofSteps _,
      fun t r => ?_, verdictOutcome_ne_failure c text json⟩
    rw [htask]
    constructor
    · rintro (_ | _ | ⟨htext', hsteps', h⟩)
      obtain rfl := Except.ok.inj (htext.symm.trans htext')
      obtain rfl := Except.ok.inj (hsteps.symm.trans hsteps')
      exact ⟨_, h, rfl, rfl⟩
    · rintro ⟨v, h, rfl, rfl⟩
      exact .derivation htext hsteps h

/-! ## The budget -/

/-- Whether formulas are over the budget depends on nothing but the number of their letters. -/
theorem checkBudget_eq (c : Config) (formulas : List String) : checkBudget c formulas =
    if c.exceeds (letterSet formulas).card then .error (.budget (letterSet formulas).card c.maxVariables) else .ok () := by
  rw [checkBudget, (lists_lettersOfAll formulas).length]

namespace Computes

variable {α : Type} {view : α → Tabulation} {x : Except FormulaError α} {present : α → Except Fault Outcome}
  (h : Computes w c i formulas view x present)

include h

/-- With more letters than the limit allows, the run fails for the number of letters. -/
theorem result_of_exceeds (hexceeds : c.exceeds (letterSet formulas).card = true) :
    (runTask w i).result = .error (.failure (.budget (letterSet formulas).card c.maxVariables)) := by
  rw [h.result, checkBudget_eq, if_pos hexceeds]
  rfl

/-- With no more letters than the limit allows, the run goes through the limit. -/
theorem goesThrough (hwithin : c.exceeds (letterSet formulas).card = false) :
    GoesThrough w c i.task formulas (runTask w i).result := by
  rw [h.result, checkBudget_eq, if_neg (by simpa using hwithin)]
  show GoesThrough w c i.task _ ((x.mapError _).bind present)
  have hgives : ∀ a, x = .ok a → Gives w c i.task (view a) (present a) := fun a ha => (h.gives_iff _ _).mpr ⟨a, ha, rfl, rfl⟩
  cases h.tabulates with
  | @nothing a status hview hstatus => exact .nothing hstatus (hview ▸ hgives a rfl)
  | @rows columns hcolumns xs hxs make hview =>
    cases hrows : rowsOf xs columns with
    | error e => exact .failure hcolumns hxs hxs.length_valuations hrows
    | ok rows => exact .rows hcolumns hxs hxs.length_valuations hrows (hview rows ▸ hgives (make rows) (by rw [hrows]; rfl))

/-- A run that gives a tabulation does not fail. -/
theorem ne_failure_of_gives {t : Tabulation} {r : Except Fault Outcome} (hgives : Gives w c i.task t r) (f : Failure) :
    r ≠ .error (.failure f) := by
  obtain ⟨a, -, -, rfl⟩ := (h.gives_iff t r).mp hgives
  exact h.present_ne a f

/-- What a run shows never fails any more with a message, and what it evaluates fails with another. -/
theorem ne_budget (hwithin : c.exceeds (letterSet formulas).card = false) (count : Nat) (limit : Json) :
    (runTask w i).result ≠ .error (.failure (.budget count limit)) := by
  intro hbudget
  have hends := h.goesThrough hwithin
  rw [hbudget] at hends
  cases hends with
  | nothing _ hgives => exact h.ne_failure_of_gives hgives _ rfl
  | rows _ _ _ _ hgives => exact h.ne_failure_of_gives hgives _ rfl

/-- A tabulation that is given has the letters of the formulas, and a row for each of their valuations. -/
theorem lists_of_gives {t : Tabulation} {r : Except Fault Outcome} (hgives : Gives w c i.task t r) (hstatus : t.status = .ok) :
    Lists t.letters (letterSet formulas) ∧ t.rows.length = 2 ^ (letterSet formulas).card := by
  obtain ⟨a, ha, rfl, -⟩ := (h.gives_iff t r).mp hgives
  exact h.tabulates.lists_of_ok ha hstatus

end Computes

/-- The outcome of a run over the budget. -/
theorem result_run_of_failure (hparse : parse args = .ok i) {f : Failure} (h : (runTask w i).result = .error (.failure f)) :
    (run w args).result = .ok (failed f) := by
  rw [run_eq_conclude hparse, conclude, h]

/-- The wording of the failure for the number of letters. -/
theorem message_budget (k : Nat) (limit : Json) : (Failure.budget k limit).message =
    s!"{k} variables would produce {2 ^ k} rows (max_variables={limit.display})" := rfl

/-- How this failure is shown on the console. -/
theorem console_failed_budget (k : Nat) (limit : Json) : (failed (.budget k limit)).console = [.text ("[bold red]❌ " ++
    escaped s!"{k} variables would produce {2 ^ k} rows (max_variables={limit.display})" ++ "[/]")] := by
  rw [← message_budget]
  exact (isMessage_failed _).console

/-- The budget is exact and comes first. A run that has read its formulas counts their letters. If there are more than the limit,
be it an integer or another number, it fails with a message that has this number and that of the rows, and nothing else about the
formulas matters. Otherwise the budget is no reason to fail: the run goes through one valuation for each subset of these letters,
and they are at most `n` if the limit does not allow `n + 1`. Each table or verdict with rows has exactly these letters, and a row
for each subset of them. -/
theorem budget_of_run (hparse : parse args = .ok i) (hload : loadConfig w i = .ok c) (hreads : ReadsFormulas w c i.task formulas)
    {k : Nat} (hk : k = (letterSet formulas).card) :
    (∀ limit : Int, c.maxVariables = .int limit → (c.exceeds k = true ↔ limit < k)) ∧
    (c.exceeds k = true →
      (runTask w i).result = .error (.failure (.budget k c.maxVariables)) ∧
      ∃ o, (run w args).result = .ok o ∧ o.exit = 1 ∧ o.stdout = "" ∧ o.console = [.text ("[bold red]❌ " ++
        escaped s!"{k} variables would produce {2 ^ k} rows (max_variables={c.maxVariables.display})" ++ "[/]")]) ∧
    (c.exceeds k = false →
      (∀ count limit, (runTask w i).result ≠ .error (.failure (.budget count limit))) ∧
      GoesThrough w c i.task formulas (runTask w i).result ∧
      ∀ n, c.exceeds (n + 1) = true → 2 ^ k ≤ 2 ^ n) ∧
    ∀ t r, Gives w c i.task t r → t.status = .ok →
      Lists t.letters (letterSet formulas) ∧ t.letters.length = k ∧ t.rows.length = 2 ^ k := by
  obtain ⟨α, view, x, present, hcomputes⟩ := exists_computes hload hreads
  subst hk
  refine ⟨fun limit => Config.exceeds_int_iff, fun hexceeds => ?_,
    fun hwithin => ⟨hcomputes.ne_budget hwithin, hcomputes.goesThrough hwithin, fun n hn => ?_⟩, fun t r hgives hstatus => ?_⟩
  · have hresult := hcomputes.result_of_exceeds hexceeds
    exact ⟨hresult, _, result_run_of_failure hparse hresult, rfl, rfl, console_failed_budget _ _⟩
  · refine Nat.pow_le_pow_right Nat.two_pos (Nat.le_of_not_lt fun hlt => ?_)
    rw [Config.exceeds_mono hlt hn] at hwithin
    cases hwithin
  · obtain ⟨hlists, hrows⟩ := hcomputes.lists_of_gives hgives hstatus
    exact ⟨hlists, hlists.length, hrows⟩

/-- Thirteen letters are one too many for the usual limit, in formulas that have no value at all. Two letters are not, and the
table of LaTeX formulas that has them in another order has both of them, and four rows. -/
theorem budget_of_run_thirteen :
    (∃ o, (run {} ["table", "ABC", "DEFGHIJKLM", "--style", "plain"]).result = .ok o ∧
      o.console = [.text "[bold red]❌ 13 variables would produce 8192 rows (max_variables=12)[/]"]) ∧
    (∀ count limit, (runTask {} ⟨some (some .plain), none, false, .table ["B", "A \\lor B"] true⟩).result ≠
      .error (.failure (.budget count limit))) ∧
    ∃ t, (TruthTable.ofLatex false ["B", "A \\lor B"]).result = .ok t ∧ t.letters = ['B', 'A'] ∧ t.rows.length = 2 ^ 2 := by
  have hparse : parse ["table", "ABC", "DEFGHIJKLM", "--style", "plain"] =
      .ok ⟨some (some .plain), none, false, .table ["ABC", "DEFGHIJKLM"] false⟩ := by decide
  have hparse' : parse ["table", "--latex", "B", "A \\lor B", "--style", "plain"] =
      .ok ⟨some (some .plain), none, false, .table ["B", "A \\lor B"] true⟩ := by decide
  have hnormal : List.Forall₂ (fun s n => Latex.normalize false s = .ok n) ["B", "A \\lor B"] [⟨"B", []⟩, ⟨"A | B", []⟩] :=
    .cons (by decide) (.cons (by decide) .nil)
  have hcards : 13 = (letterSet ["ABC", "DEFGHIJKLM"]).card ∧ 2 = (letterSet ["B", "A | B"]).card := by decide
  obtain ⟨hlimit, hover, -⟩ := budget_of_run (w := {}) (c := { style := .plain }) hparse rfl (.native _) hcards.1
  obtain ⟨hlimit', -, hunder, hgives⟩ := budget_of_run (w := {}) (c := { style := .plain }) hparse' rfl (.latex hnormal) hcards.2
  obtain ⟨-, o, ho, -, -, hconsole⟩ := hover ((hlimit 12 rfl).mpr (by decide))
  have hwithin : ¬Config.exceeds { style := .plain } 2 = true := fun h => absurd ((hlimit' 12 rfl).mp h) (by decide)
  obtain ⟨t, ht, hstatus, hletters⟩ : ∃ t, (TruthTable.ofLatex false ["B", "A \\lor B"]).result = .ok t ∧ t.status = .ok ∧
      t.letters = ['B', 'A'] := ⟨_, rfl, rfl, rfl⟩
  exact ⟨⟨o, ho, hconsole.trans (by decide)⟩, (hunder (by simpa using hwithin)).1, t, ht, hletters,
    (hgives _ _ (.latex ht) hstatus).2.2⟩

end Command

end Propositional
