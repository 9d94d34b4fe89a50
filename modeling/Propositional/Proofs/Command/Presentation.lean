import Propositional.Proofs.Command.Outcome
import Propositional.Proofs.Command.Paths
import Propositional.Proofs.Config.File

/-!
# What style and glyphs have no part in

What is found out depends on a configuration through its strictness and its limit alone (`findTable_congr`, `findVerdict_congr`).
Style and glyphs, from options, a file or the environment, choose only how it is shown: two runs that are given the same otherwise
give the same warnings, fail alike if one fails, and have the same exit code (`run_of_sameTask`).
-/

namespace Propositional.Command

open Config Report

/-! ## Loading -/

/-- With a file that can be read, a run starts from the values in it. -/
theorem baseValues_of_file {w : Surroundings} {file : Option String} {name text : String} (hgiven : given? file = some name)
    (hread : readFile w name = .ok text) : baseValues w file = (Values.ofFile text).mapError faultOfFile := by
  rw [baseValues, hgiven]
  simp only [hread]
  rfl

/-- The options make the checks again on the configuration that they change. -/
theorem withOverrides_optionChanges (c : Config) {i : Invocation} (hstyle : i.style ≠ some none) :
    c.withOverrides (optionChanges i) =
      check (.str (i.style.join.getD c.style).name) c.trueGlyph c.falseGlyph
        (if i.strict then .bool true else c.strictImplication) c.maxVariables := by
  obtain ⟨style, config, strict, task⟩ := i
  cases style with
  | none => cases strict <;> rfl
  | some style =>
    cases style with
    | none => exact absurd rfl hstyle
    | some s => cases strict <;> rfl

variable {w : Surroundings} {i : Invocation}

/-- A run that is given a style and glyphs has a configuration with its strictness and its limit, unless the limit is refused. -/
theorem loadConfig_of_presentable {v : Values} (hvalues : baseValues w i.config = .ok v) (hv : v.Presentable)
    (hstyle : i.style ≠ some none) :
    ∃ c : Config, c.HasTexts ∧ c.isStrict = (i.strict || v.strict.isTruthy) ∧ c.maxVariables = v.limit ∧
      loadConfig w i = ((checkLimit v.limit).map fun _ => c).mapError faultOfConfig := by
  obtain ⟨style, yes, no, strict, limit⟩ := v
  obtain ⟨⟨s, hs⟩, yes, no, rfl, rfl, hglyphs⟩ := hv
  have hload : loadConfig w i =
      (((checkLimit limit).map fun _ => (⟨s, .str yes, .str no, strict, limit⟩ : Config)).mapError faultOfConfig).bind
        fun c => (c.withOverrides (optionChanges i)).mapError faultOfConfig := by
    unfold loadConfig
    rw [baseConfig, hvalues, ← check_eq_checkLimit hs hglyphs]
    rfl
  refine ⟨⟨i.style.join.getD s, .str yes, .str no, if i.strict then .bool true else strict, limit⟩,
    ⟨yes, no, rfl, rfl⟩, ?_, rfl, ?_⟩
  · cases i.strict <;> rfl
  · rw [hload]
    cases hlimit : checkLimit limit with
    | error e => rfl
    | ok _ =>
      show ((⟨s, .str yes, .str no, strict, limit⟩ : Config).withOverrides (optionChanges i)).mapError faultOfConfig = _
      rw [withOverrides_optionChanges _ hstyle, check_eq_checkLimit (Style.ofJson?_name _) hglyphs, hlimit]

/-! ## Finding out -/

section Congr

variable {c d : Config} (hstrict : c.isStrict = d.isStrict) (hlimit : c.maxVariables = d.maxVariables)

include hlimit in
/-- The check of the number of letters depends on the limit alone. -/
theorem checkBudget_congr (formulas : List String) : checkBudget c formulas = checkBudget d formulas := by
  unfold checkBudget Config.exceeds
  rw [hlimit]

include hstrict hlimit

/-- The table that is found depends on strictness and limit alone. -/
theorem findTable_congr (formulas : List String) (latex : Bool) : findTable c formulas latex = findTable d formulas latex := by
  unfold findTable
  simp only [hstrict, checkBudget_congr hlimit]

/-- The verdict that is found depends on the text, on strictness and on the limit alone. -/
theorem findVerdict_congr {w' : Surroundings} {derivation file : Option String}
    (htext : derivationText w derivation file = derivationText w' derivation file) :
    findVerdict w c derivation file = findVerdict w' d derivation file := by
  unfold findVerdict
  simp only [htext, hstrict, checkBudget_congr hlimit]

end Congr

/-! ## Showing -/

/-- A table that is shown has exit code 0. -/
theorem exit_tableShown (c : Config) (formulas : List String) (t : TruthTable) : (tableShown c formulas t).exit = 0 := rfl

/-- A verdict that is shown has its exit code, whatever its form. -/
theorem exit_verdictShown (c : Config) (json : Bool) (text : String) (v : Verdict) :
    (verdictShown c json text v).exit = exitCode v := rfl

/-- A verdict as JSON shows no glyph and has no style. -/
theorem verdictShown_json (c : Config) (text : String) (v : Verdict) :
    verdictShown c true text v = printed (exitCode v) v.toJson.render := rfl

/-! ## Two runs -/

/-- Two runs are given the same values but for style and glyphs. A run may be given strictness by an option. Where one is given no
values, since a file cannot be read or describes none or a text writes no limit, the other is given none for the same reason. -/
inductive SameButShown (strict strict' : Bool) : Except Fault Values → Except Fault Values → Prop where
  | none (e : Fault) : SameButShown strict strict' (.error e) (.error e)
  | some {v v' : Values} (hv : v.Presentable) (hv' : v'.Presentable)
    (hstrict : (strict || v.strict.isTruthy) = (strict' || v'.strict.isTruthy)) (hlimit : v.limit = v'.limit) :
    SameButShown strict strict' (.ok v) (.ok v')

/-- Two runs are to do the same task on the same text, every style option has a style, and they are given the same but for what is
shown. -/
structure SameTask (w w' : Surroundings) (i i' : Invocation) : Prop where
  task : i.task = i'.task
  text : ∀ derivation file json, i.task = .verify derivation file json →
    derivationText w derivation file = derivationText w' derivation file
  style : i.style ≠ some none ∧ i'.style ≠ some none
  values : SameButShown i.strict i'.strict (baseValues w i.config) (baseValues w' i'.config)

/-- Runs of the same task fail with the same fault before they start, or start with configurations of one strictness and one
limit. -/
theorem loadConfig_of_sameTask {w w' : Surroundings} {i i' : Invocation} (h : SameTask w w' i i') :
    (∃ e, loadConfig w i = .error e ∧ loadConfig w' i' = .error e) ∨
    ∃ c d, loadConfig w i = .ok c ∧ loadConfig w' i' = .ok d ∧ c.HasTexts ∧ d.HasTexts ∧
      c.isStrict = d.isStrict ∧ c.maxVariables = d.maxVariables := by
  have hvalues := h.values
  generalize hx : baseValues w i.config = x at hvalues
  generalize hy : baseValues w' i'.config = y at hvalues
  cases hvalues with
  | none e =>
    refine .inl ⟨e, ?_, ?_⟩
    · rw [loadConfig, baseConfig, hx]
      rfl
    · rw [loadConfig, baseConfig, hy]
      rfl
  | @some v v' hv hv' hstrict hlimit =>
    obtain ⟨c, hc, hcstrict, hclimit, hload⟩ := loadConfig_of_presentable hx hv h.style.1
    obtain ⟨d, hd, hdstrict, hdlimit, hload'⟩ := loadConfig_of_presentable hy hv' h.style.2
    rw [hlimit] at hload
    cases hcheck : checkLimit v'.limit with
    | error e =>
      rw [hcheck] at hload hload'
      exact .inl ⟨faultOfConfig e, hload, hload'⟩
    | ok _ =>
      rw [hcheck] at hload hload'
      have hstrict : c.isStrict = d.isStrict := by rw [hcstrict, hdstrict, hstrict]
      have hlimit : c.maxVariables = d.maxVariables := by rw [hclimit, hdlimit, hlimit]
      exact .inr ⟨c, d, hload, hload', hc, hd, hstrict, hlimit⟩

/-- What two tasks come to that are given the same but for what is shown: they warn alike, and fail with the same fault, or have
an outcome each, with the same exit code and a relation besides. -/
structure Alike (x x' : Logged Fault Outcome) (same : Outcome → Outcome → Prop) : Prop where
  warnings : x.warnings = x'.warnings
  result :
    (∃ e, x.result = .error e ∧ x'.result = .error e) ∨
    ∃ o o', x.result = .ok o ∧ x'.result = .ok o' ∧ o.exit = o'.exit ∧ same o o'

/-- Tasks that find out the same and show it each in its way come to the same. -/
theorem alike_of_find {α : Type} {x x' : Logged Fault Outcome} (y : Logged Failure α) {present present' : α → Outcome}
    (hx : x = y.mapError .failure >>= fun a => pure (present a))
    (hx' : x' = y.mapError .failure >>= fun a => pure (present' a)) {same : Outcome → Outcome → Prop}
    (hexit : ∀ a, (present a).exit = (present' a).exit) (hsame : ∀ a, same (present a) (present' a)) : Alike x x' same := by
  subst hx hx'
  obtain ⟨ws, r⟩ := y
  cases r with
  | error f => exact ⟨rfl, .inl ⟨.failure f, rfl, rfl⟩⟩
  | ok a => exact ⟨rfl, .inr ⟨present a, present' a, rfl, rfl, hexit a, hsame a⟩⟩

/-- Two tasks that are given the same but for what is shown come to the same, and have the same outcome where it is JSON. -/
theorem alike_of_sameTask {w w' : Surroundings} {i i' : Invocation} (htask : i.task ≠ .demo) (h : SameTask w w' i i') :
    Alike (runTask w i) (runTask w' i') fun o o' => ∀ derivation file, i.task = .verify derivation file true → o = o' := by
  rcases loadConfig_of_sameTask h with ⟨e, hload, hload'⟩ | ⟨c, d, hload, hload', hc, hd, hstrict, hlimit⟩
  · rw [runTask_of_error hload, runTask_of_error hload']
    exact ⟨rfl, .inl ⟨e, rfl, rfl⟩⟩
  · cases hi : i.task with
    | demo => exact absurd hi htask
    | table formulas latex =>
      have hi' : i'.task = .table formulas latex := h.task ▸ hi
      rw [runTask_table hload hi, runTask_table hload' hi', runTable_eq hc, runTable_eq hd, ← findTable_congr hstrict hlimit]
      refine alike_of_find _ rfl rfl (fun t => ?_) nofun
      rw [exit_tableShown, exit_tableShown]
    | verify derivation file json =>
      have hi' : i'.task = .verify derivation file json := h.task ▸ hi
      rw [runTask_verify hload hi, runTask_verify hload' hi', runVerify_eq hc, runVerify_eq hd,
        ← findVerdict_congr hstrict hlimit (h.text derivation file json hi)]
      refine alike_of_find _ rfl rfl (fun p => ?_) fun p derivation' file' hjson => ?_
      · rw [exit_verdictShown, exit_verdictShown]
      · obtain rfl : json = true := (Task.verify.inj hjson).2.2
        rw [verdictShown_json, verdictShown_json]

/-- Style and glyphs have no part in what is computed. Two runs of one task on one terminal that are given the same but for them
warn alike. Either both fail for the same reason before anything is shown, and leave the same; or both have something to show,
with the same exit code. A verdict as JSON is the same in both, and so are the runs. In any other form it is shown as far as the
terminal comes: where it comes to the end in both runs, both leave all of it, and the runs end with the same exit code exactly
if that code is 1 or the terminal comes to the end in both or in neither. -/
theorem run_of_sameTask {σ : Type} (t : Terminal (StateM σ)) (s : σ) {w w' : Surroundings} {args args' : List String}
    {i i' : Invocation} (hparse : parse args = .ok i) (hparse' : parse args' = .ok i') (htask : i.task ≠ .demo)
    (h : SameTask w w' i i') :
    (runOn t w args s).1.warnings = (runOn t w' args' s).1.warnings ∧
    ((∃ e, (runTask w i).result = .error e ∧ (runTask w' i').result = .error e ∧ runOn t w args s = runOn t w' args' s) ∨
      ∃ o o', (runTask w i).result = .ok o ∧ (runTask w' i').result = .ok o' ∧ o.exit = o'.exit ∧
        (∀ derivation file, i.task = .verify derivation file true → runOn t w args s = runOn t w' args' s) ∧
        ((present t o s).1.2 = none → (present t o' s).1.2 = none →
          (runOn t w args s).1.result = .ok o ∧ (runOn t w' args' s).1.result = .ok o') ∧
        ∀ q q', (runOn t w args s).1.result = .ok q → (runOn t w' args' s).1.result = .ok q' →
          (q.exit = q'.exit ↔ o.exit = 1 ∨ ((present t o s).1.2 = none ↔ (present t o' s).1.2 = none))) := by
  obtain ⟨hwarnings, hresult⟩ := alike_of_sameTask htask h
  rw [runOn_eq hparse, runOn_eq hparse', hwarnings]
  refine ⟨rfl, ?_⟩
  rcases hresult with ⟨e, he, he'⟩ | ⟨o, o', ho, ho', hexit, hjson⟩
  · rw [he, he']
    exact .inl ⟨e, rfl, rfl, rfl⟩
  · rw [ho, ho']
    have hends := ends_finish t o s
    have hends' := ends_finish t o' s
    refine .inr ⟨o, o', rfl, rfl, hexit, fun derivation file hi => ?_, fun hshown hshown' => ?_, fun q q' hq hq' => ?_⟩
    · rw [hjson derivation file hi]
    · exact ⟨hends.eq_of_shown hshown, hends'.eq_of_shown hshown'⟩
    · dsimp only at hq hq'
      rw [hq] at hends
      rw [hq'] at hends'
      exact hends.exit_eq_exit_iff hends' hexit

/-- A file with a style and glyphs of its own. -/
def styleText : String :=
  Json.render (.obj [("style", .str "markdown"), ("true_glyph", .str "yes"), ("false_glyph", .str "no")])

/-- Files among which there is this one. -/
def styleFiles : Surroundings where
  file := (FileTree.ofFiles [("c.json", styleText)]).read

/-- The file is read. -/
theorem readFile_styleFiles : readFile styleFiles "c.json" = .ok styleText := by
  have hplain : FileTree.IsPlain "c.json".toList := ⟨by decide, by decide, by decide, by decide, by decide⟩
  have hread : styleFiles.file "c.json" = .ok styleText := FileTree.read_ofFiles [] hplain styleText
  have hcodes : Text.unencodable? 0 (styleFiles.standIns.codes "c.json".toList) = none := by decide
  unfold readFile
  rw [hcodes, hread]
  rfl

/-- A verdict as JSON is the same with the usual style and glyphs and with those of the file. -/
theorem run_of_sameTask_json :
    ∃ o, (runOn colourTerminal {} ["verify", "A \\to B = B", "--json"] ()).1.result = .ok o ∧ o.exit = 1 ∧
      runOn colourTerminal {} ["verify", "A \\to B = B", "--json"] () =
        runOn colourTerminal styleFiles ["verify", "A \\to B = B", "--json", "--config", "c.json", "--style", "plain"] () := by
  have hparse : parse ["verify", "A \\to B = B", "--json"] =
      .ok ⟨none, none, false, .verify (some "A \\to B = B") none true⟩ := by decide
  have hparse' : parse ["verify", "A \\to B = B", "--json", "--config", "c.json", "--style", "plain"] =
      .ok ⟨some (some .plain), some "c.json", false, .verify (some "A \\to B = B") none true⟩ := by decide
  have hvalues : baseValues {} none = .ok ⟨.str "colorized", .str "T", .str "F", .bool false, .int 12⟩ := rfl
  have hvalues' : baseValues styleFiles (some "c.json") = .ok ⟨.str "markdown", .str "yes", .str "no", .bool false, .int 12⟩ := by
    have hexact : Json.Exact (some Text.digitLimit)
        (.obj [("style", .str "markdown"), ("true_glyph", .str "yes"), ("false_glyph", .str "no")]) :=
      .obj (by decide) (by simp) (by simp [Json.Exact.str])
    have hgiven : given? (some "c.json") = some "c.json" := by decide
    rw [baseValues_of_file hgiven readFile_styleFiles, Values.ofFile, Values.ofFileWithin, styleText, hexact.readWithin_lineFeeds]
    rfl
  have hsame : SameTask {} styleFiles ⟨none, none, false, .verify (some "A \\to B = B") none true⟩
      ⟨some (some .plain), some "c.json", false, .verify (some "A \\to B = B") none true⟩ := by
    refine ⟨rfl, ?_, by decide, ?_⟩
    · rintro derivation file json htask
      cases htask
      rfl
    · rw [hvalues, hvalues']
      exact .some ⟨⟨.colorized, by decide⟩, "T", "F", rfl, rfl, by decide, by decide⟩
        ⟨⟨.markdown, by decide⟩, "yes", "no", rfl, rfl, by decide, by decide⟩ rfl rfl
  obtain ⟨-, hresult⟩ := run_of_sameTask colourTerminal () hparse hparse' (by decide) hsame
  obtain ⟨o, ho, hexit, hconsole⟩ : ∃ o,
      (runTask {} ⟨none, none, false, .verify (some "A \\to B = B") none true⟩).result = .ok o ∧
      o.exit = 1 ∧ o.console = [] := ⟨_, rfl, rfl, rfl⟩
  have hrun : (runOn colourTerminal {} ["verify", "A \\to B = B", "--json"] ()).1.result = .ok o := by
    rw [runOn_eq hparse, ho]
    exact (ends_finish colourTerminal o ()).eq_of_shown (present_colourTerminal hconsole)
  rcases hresult with ⟨-, -, -, hruns⟩ | ⟨-, -, -, -, -, hjson, -⟩
  · exact ⟨o, hrun, hexit, hruns⟩
  · exact ⟨o, hrun, hexit, hjson _ _ rfl⟩

/-- In another form the glyphs can decide: the table of `A` is shown with the usual ones, and fails with a tag for a colour that
has no numbers. -/
theorem run_of_sameTask_tag_glyph : ∃ i o o', parse ["table", "A"] = .ok i ∧ SameTask {} tagGlyph i i ∧
    (runOn colourTerminal {} ["table", "A"] ()).1.result = .ok o ∧ o.exit = 0 ∧
    (runOn colourTerminal tagGlyph ["table", "A"] ()).1.result = .ok o' ∧ o'.exit = 1 := by
  have hparse : parse ["table", "A"] = .ok ⟨none, none, false, .table ["A"] false⟩ := by decide
  have hvalues : baseValues {} none = .ok ⟨.str "colorized", .str "T", .str "F", .bool false, .int 12⟩ := rfl
  have hvalues' : baseValues tagGlyph none = .ok ⟨.str "colorized", .str "[rgb(,,)]T", .str "F", .bool false, .int 12⟩ := rfl
  have hsame : SameTask {} tagGlyph ⟨none, none, false, .table ["A"] false⟩ ⟨none, none, false, .table ["A"] false⟩ := by
    refine ⟨rfl, nofun, by decide, ?_⟩
    rw [hvalues, hvalues']
    exact .some ⟨⟨.colorized, by decide⟩, "T", "F", rfl, rfl, by decide, by decide⟩
      ⟨⟨.colorized, by decide⟩, "[rgb(,,)]T", "F", rfl, rfl, by decide, by decide⟩ rfl rfl
  refine ⟨_, _, _, hparse, hsame, rfl, ?_, rfl, ?_⟩
  · rfl
  · rfl

end Propositional.Command
