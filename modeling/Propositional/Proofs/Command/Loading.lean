import Propositional.Proofs.Command.Presentation
import Propositional.Proofs.Config.Layers

/-!
# Where a run gets its configuration

A run starts from the file that is named, whatever the environment, and else from the environment. What it starts from has to be
valid by itself, also where an option would replace what is not. The options change the style and switch strictness on, and
nothing else (`loadConfig_of_layers`).
-/

namespace Propositional.Command

open Config

/-- The configuration that a run starts from is that of the file, if one is named by a text that is not empty, else that of the
environment. -/
inductive StartsFrom (w : Surroundings) (file : Option String) (c : Config) : Prop where
  | file {name text : String} (hfile : file = some name) (hname : name ≠ "") (hread : readFile w name = .ok text)
    (hvalues : Config.ofFile text = .ok c)
  | environment (hfile : file = none ∨ file = some "") (hread : w.environmentFault = none)
    (hset : Config.ofEnvironment w.environment = .ok c)

/-- The configuration with the changes that options make: a style that is given, and strictness, which is never taken back. -/
def changed (i : Invocation) (c : Config) : Config :=
  { c with style := i.style.join.getD c.style, strictImplication := if i.strict then .bool true else c.strictImplication }

/-- A text is named by an option exactly if the option has it and it is not empty. -/
theorem given?_eq_some_iff {o : Option String} {name : String} : given? o = some name ↔ o = some name ∧ name ≠ "" := by
  rw [given?, Option.filter_eq_some_iff]
  simp

/-- No text is named by an option exactly if the option has none or the empty text. -/
theorem given?_eq_none_iff {o : Option String} : given? o = none ↔ o = none ∨ o = some "" := by
  cases o with
  | none => simp [given?]
  | some s => simp [given?]

section Base

variable {w : Surroundings} {file : Option String} {c : Config}

/-- With a file named, a run starts from the configuration in it. -/
theorem baseConfig_of_named {name : String} (hname : given? file = some name) :
    baseConfig w file = ((readFile w name).mapError .failure).bind fun text => (Config.ofFile text).mapError faultOfFile := by
  rw [baseConfig, baseValues, hname]
  dsimp only
  cases readFile w name with
  | error f => rfl
  | ok text =>
    show ((Values.ofFile text).mapError faultOfFile).bind _ = ((Values.ofFile text).bind _).mapError faultOfFile
    cases Values.ofFile text with
    | error e => rfl
    | ok v =>
      show v.check.mapError faultOfConfig = (v.check.mapError FileError.config).mapError faultOfFile
      rw [Except.mapError_mapError]
      rfl

/-- With no file named, a run starts from the configuration of the environment, if that can be read. -/
theorem baseConfig_of_not_named (hname : given? file = none) :
    baseConfig w file = match w.environmentFault with
      | some message => .error (.failure (.unreadable message))
      | none => (Config.ofEnvironment w.environment).mapError faultOfConfig := by
  rw [baseConfig, baseValues, hname]
  cases w.environmentFault with
  | some message => rfl
  | none =>
    show ((Values.ofEnvironment w.environment).mapError faultOfConfig).bind _ =
      ((Values.ofEnvironment w.environment).bind Values.check).mapError faultOfConfig
    cases Values.ofEnvironment w.environment <;> rfl

/-- What a run starts from is the configuration of the file or of the environment. -/
theorem baseConfig_eq_ok_iff : baseConfig w file = .ok c ↔ StartsFrom w file c := by
  cases hgiven : given? file with
  | none =>
    rw [baseConfig_of_not_named hgiven]
    constructor
    · intro h
      cases hfault : w.environmentFault with
      | some message =>
        rw [hfault] at h
        cases h
      | none =>
        rw [hfault] at h
        exact .environment (given?_eq_none_iff.mp hgiven) hfault (mapError_eq_ok_iff.mp h)
    · rintro (⟨hfile, hname, -, -⟩ | ⟨-, hfault, hset⟩)
      · cases (given?_eq_some_iff.mpr ⟨hfile, hname⟩).symm.trans hgiven
      · rw [hfault]
        exact mapError_eq_ok_iff.mpr hset
  | some name =>
    obtain ⟨hfile, hname⟩ := given?_eq_some_iff.mp hgiven
    rw [baseConfig_of_named hgiven]
    constructor
    · intro h
      obtain ⟨text, hread, hvalues⟩ := mapError_bind_eq_ok_iff.mp h
      exact .file hfile hname hread (mapError_eq_ok_iff.mp hvalues)
    · rintro (⟨hfile', -, hread, hvalues⟩ | ⟨hnone, -, -⟩)
      · obtain rfl := Option.some.inj (hfile'.symm.trans hfile)
        exact mapError_bind_eq_ok_iff.mpr ⟨_, hread, mapError_eq_ok_iff.mpr hvalues⟩
      · cases (given?_eq_none_iff.mpr hnone).symm.trans hgiven

/-- What a run starts from passes the checks. -/
theorem isChecked_of_baseConfig (h : baseConfig w file = .ok c) : c.IsChecked :=
  isChecked_of_bind h fun _ hv => mapError_eq_ok_iff.mp hv

/-- A file is read without regard to the environment. -/
theorem baseConfig_of_file {name : String} (hfile : file = some name) (hname : name ≠ "") (e : Environment) :
    baseConfig { w with environment := e } file = baseConfig w file := by
  have hgiven := given?_eq_some_iff.mpr ⟨hfile, hname⟩
  rw [baseConfig_of_named hgiven, baseConfig_of_named hgiven]
  rfl

end Base

section Options

variable {i : Invocation} {c : Config}

/-- Options change a configuration that passes the checks to one that passes them. -/
theorem withOverrides_of_isChecked (hc : c.IsChecked) (hstyle : i.style ≠ some none) :
    c.withOverrides (optionChanges i) = .ok (changed i c) := by
  rw [withOverrides_optionChanges c hstyle, hc.check_eq]
  rfl

/-- A style option without a style is refused. -/
theorem withOverrides_of_no_style (hstyle : i.style = some none) :
    c.withOverrides (optionChanges i) = .error (.refused (.style (.arr []))) := by
  obtain ⟨style, config, strict, task⟩ := i
  obtain rfl : style = some none := hstyle
  cases strict <;> rfl

end Options

section Load

variable {w : Surroundings} {i : Invocation}

/-- A run that cannot start has no configuration. -/
theorem loadConfig_of_error {fault : Fault} (hbase : baseConfig w i.config = .error fault) : loadConfig w i = .error fault := by
  rw [loadConfig, hbase]
  rfl

/-- A run that can start has the configuration it starts from, changed. -/
theorem loadConfig_of_ok {c : Config} (hbase : baseConfig w i.config = .ok c) :
    loadConfig w i = (c.withOverrides (optionChanges i)).mapError faultOfConfig := by
  rw [loadConfig, hbase]
  rfl

/-- A run has the configuration that it starts from, with the changes that its options make, unless a style option is without a
style. -/
theorem loadConfig_eq_ok_iff {d : Config} :
    loadConfig w i = .ok d ↔ i.style ≠ some none ∧ ∃ c, StartsFrom w i.config c ∧ d = changed i c := by
  constructor
  · intro h
    cases hbase : baseConfig w i.config with
    | error fault =>
      rw [loadConfig_of_error hbase] at h
      cases h
    | ok c =>
      rw [loadConfig_of_ok hbase, mapError_eq_ok_iff] at h
      by_cases hstyle : i.style = some none
      · rw [withOverrides_of_no_style hstyle] at h
        cases h
      · rw [withOverrides_of_isChecked (isChecked_of_baseConfig hbase) hstyle] at h
        exact ⟨hstyle, c, baseConfig_eq_ok_iff.mp hbase, (Except.ok.inj h).symm⟩
  · rintro ⟨hstyle, c, hc, rfl⟩
    have hbase := baseConfig_eq_ok_iff.mpr hc
    rw [loadConfig_of_ok hbase, withOverrides_of_isChecked (isChecked_of_baseConfig hbase) hstyle]
    rfl

end Load

/-- The layers of a configuration. Where the entries of its file can be set and none refers to another setting, the environment
gives each field by itself, and fails exactly if the fields are not valid or the text of the limit writes no integer. A run
starts from the file named, whatever the environment, or else from the environment. It fails if what it starts from fails, with
the same fault. Otherwise it changes the style to the one given, if one is, and switches strictness on if asked to; only a style
option without a style is refused. -/
theorem loadConfig_of_layers (w : Surroundings) (i : Invocation) :
    (w.environment.IsPlain →
      (∀ c, Config.ofEnvironment w.environment = .ok c ↔
        ∃ f : Fields, f.IsGiven w.environment.given? ∧ f.IsValid ∧ f.AreOf c) ∧
      ((∃ err, Config.ofEnvironment w.environment = .error err) ↔
        (∃ s, w.environment.given? "TRUTHTAB_MAX_VARIABLES" = some s ∧ Text.readInteger? s.toList = none) ∨
          ∃ f : Fields, f.IsGiven w.environment.given? ∧ ¬f.IsValid)) ∧
    (∀ name, i.config = some name → name ≠ "" → ∀ e, loadConfig { w with environment := e } i = loadConfig w i) ∧
    (∀ fault, baseConfig w i.config = .error fault → loadConfig w i = .error fault) ∧
    (∀ d, loadConfig w i = .ok d ↔ i.style ≠ some none ∧ ∃ c, StartsFrom w i.config c ∧ d = changed i c) := by
  refine ⟨fun hplain => ?_, fun name hfile hname e => ?_, fun fault => loadConfig_of_error, fun d => loadConfig_eq_ok_iff⟩
  · have hfault := Environment.fault?_of_isPlain hplain
    rw [← Environment.setting?_of_isPlain hplain]
    refine ⟨fun c => ?_, ofEnvironment_eq_error_iff hfault⟩
    rw [ofEnvironment_eq_ok_iff]
    exact and_iff_right hfault
  · rw [loadConfig, loadConfig, baseConfig_of_file hfile hname]

/-- An environment file with entries for true, twice for the style, and for the limit. -/
def layerText : String :=
  "TRUTHTAB_TRUE_GLYPH=1\nTRUTHTAB_STYLE=plain\nexport TRUTHTAB_STYLE = ' Markdown '\nTRUTHTAB_MAX_VARIABLES=3 # few\n"

/-- A variable comes before an entry, the last entry before the first, and the option for strictness before the usual value.
With the variable for the style set to the empty text, the run fails, though an option gives it a style. -/
theorem loadConfig_of_layers_entries :
    loadConfig { environment := ⟨[("TRUTHTAB_TRUE_GLYPH", "yes")], EntryFile.entries layerText⟩ }
        { strict := true, task := .table ["A"] false } = .ok ⟨.markdown, .str "yes", .str "F", .bool true, .int 3⟩ ∧
      ∃ fault, loadConfig { environment := ⟨[("TRUTHTAB_STYLE", "")], EntryFile.entries layerText⟩ }
        { style := some (some .plain), task := .table ["A"] false } = .error fault := by
  have hentries : EntryFile.entries layerText = [("TRUTHTAB_TRUE_GLYPH", some "1"), ("TRUTHTAB_STYLE", some "plain"),
      ("TRUTHTAB_STYLE", some " Markdown "), ("TRUTHTAB_MAX_VARIABLES", some "3")] := by decide +kernel
  rw [hentries]
  have hplain : ∀ settings, Environment.IsPlain ⟨settings, [("TRUTHTAB_TRUE_GLYPH", some "1"), ("TRUTHTAB_STYLE", some "plain"),
      ("TRUTHTAB_STYLE", some " Markdown "), ("TRUTHTAB_MAX_VARIABLES", some "3")]⟩ := by
    intro settings
    refine ⟨?_, ?_⟩ <;> simp only [List.forall_mem_cons, Option.some.injEq, forall_eq'] <;> decide
  constructor
  · obtain ⟨henvironment, -, -, hload⟩ := loadConfig_of_layers { environment := ⟨[("TRUTHTAB_TRUE_GLYPH", "yes")], _⟩ }
      { strict := true, task := .table ["A"] false }
    have hset := ((henvironment (hplain _)).1 ⟨.markdown, .str "yes", .str "F", .bool false, .int 3⟩).mpr
      ⟨⟨"markdown", "yes", "F", false, 3⟩, ⟨by decide, by decide, by decide, by decide, by decide⟩,
        ⟨⟨.markdown, rfl⟩, by decide, by decide, by decide⟩, ⟨rfl, rfl, rfl, rfl, rfl⟩⟩
    exact (hload _).mpr ⟨by decide, _, .environment (.inl rfl) rfl hset, rfl⟩
  · obtain ⟨henvironment, -, hbase, -⟩ := loadConfig_of_layers { environment := ⟨[("TRUTHTAB_STYLE", "")], _⟩ }
      { style := some (some .plain), task := .table ["A"] false }
    have hinvalid : ¬Fields.IsValid ⟨"", "1", "F", false, 3⟩ := by
      rintro ⟨⟨s, hs⟩, -⟩
      cases s <;> exact absurd hs (by decide)
    obtain ⟨err, herr⟩ := (henvironment (hplain _)).2.mpr
      (.inr ⟨⟨"", "1", "F", false, 3⟩, ⟨by decide, by decide, by decide, by decide, by decide⟩, hinvalid⟩)
    refine ⟨faultOfConfig err, hbase _ ?_⟩
    rw [baseConfig_of_not_named rfl]
    exact congrArg (·.mapError faultOfConfig) herr

end Propositional.Command
