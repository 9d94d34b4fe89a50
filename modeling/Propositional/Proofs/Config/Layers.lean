import Propositional.Proofs.Config.Values

/-!
# Where fields come from

An environment gives a text for each field by itself: that of the variable if it is set, even if the text is empty, else that of
the last entry of the name. The field is what the text says, or its usual value if there is none (`Fields.IsGiven`). An
environment sets a configuration exactly if the text of the limit writes an integer and the fields are valid together
(`ofEnvironment_eq_ok_iff`).
-/

namespace Propositional

/-! ## Entries -/

namespace EntryFile

/-- A text without the start of a reference does not start with one. -/
theorem reference?_of_notInfix {s : List Char} (h : ¬['$', '{'] <:+: s) : reference? s = none := by
  unfold reference?
  split
  · exact absurd (List.prefix_append ['$', '{'] _).isInfix h
  · rfl

/-- A text without references stays as it is. -/
theorem expandFrom_of_notInfix {setting : String → Option (Option String)} {s : List Char} (h : ¬['$', '{'] <:+: s) :
    expandFrom setting 0 s = s := by
  induction s with
  | nil => rfl
  | cons c s ih =>
    have hrest : ¬['$', '{'] <:+: s := fun hs => h (hs.trans (List.suffix_cons c s).isInfix)
    unfold expandFrom
    rw [reference?_of_notInfix h, ih hrest]

/-- Entries without the start of a reference stay as they are. -/
theorem expandAll_of_notInfix {settings : List (String × String)} {es : List Entry}
    (h : ∀ entry ∈ es, ∀ s, entry.2 = some s → ¬['$', '{'] <:+: s.toList) : expandAll settings es = es := by
  suffices hfold : ∀ done,
      es.foldl (fun done e => done ++ [(e.1, e.2.map (expand (settingIn settings done)))]) done = done ++ es from
    hfold []
  induction es with
  | nil => exact fun done => (List.append_nil done).symm
  | cons entry es ih =>
    intro done
    obtain ⟨hentry, hes⟩ := List.forall_mem_cons.mp h
    have hvalue : entry.2.map (expand (settingIn settings done)) = entry.2 := by
      cases hs : entry.2 with
      | none => rfl
      | some s => rw [Option.map_some, expand, expandFrom_of_notInfix (hentry s hs), String.ofList_toList]
    rw [List.foldl_cons, hvalue, ih hes, List.append_assoc]
    rfl

/-- What a file gives to a name is the value of an entry of the name. -/
theorem mem_of_value? {es : List Entry} {name s : String} (h : value? es name = some s) : (name, some s) ∈ es := by
  obtain ⟨v, hv, rfl⟩ := Option.bind_eq_some_iff.mp h
  obtain ⟨before, after, hsplit, -⟩ := List.lookup_eq_some_iff.mp hv
  rw [← List.mem_reverse, hsplit]
  simp

end EntryFile

namespace Environment

/-- The text that is given for a name: that of the variable if it is set, else that of the last entry of the name. -/
def given? (e : Environment) (name : String) : Option String := (e.settings.lookup name).or (EntryFile.value? e.entries name)

/-- Entries that can all be set, and of which none refers to another setting. -/
structure IsPlain (e : Environment) : Prop where
  names : ∀ entry ∈ e.entries, '\x00' ∉ entry.1.toList ∧ '=' ∉ entry.1.toList
  values : ∀ entry ∈ e.entries, ∀ s, entry.2 = some s → '\x00' ∉ s.toList ∧ ¬['$', '{'] <:+: s.toList

section Plain

variable {e : Environment} (h : e.IsPlain)

include h

/-- Plain entries give each setting what was given for it. -/
theorem setting?_of_isPlain : e.setting? = e.given? := by
  funext name
  rw [setting?, EntryFile.expandAll_of_notInfix fun entry hentry s hs => (h.values entry hentry s hs).2]
  rfl

/-- Plain entries can be set. -/
theorem fault?_of_isPlain : e.fault? = none := by
  rw [fault?, List.findSome?_eq_none_iff, List.forall_mem_map]
  intro entry hentry
  split
  · rfl
  · rename_i hunset
    rw [Option.bind_eq_none_iff, setting?_of_isPlain h, given?, Option.not_isSome_iff_eq_none.mp hunset, Option.none_or]
    intro s hs
    obtain ⟨hnull, hequals⟩ := h.names entry hentry
    have hvalue := (h.values _ (EntryFile.mem_of_value? hs) s rfl).1
    simp [settingFault?, hnull, hequals, hvalue]

end Plain

end Environment

/-! ## Fields -/

/-- A text names a style exactly if it is the name of the style. -/
theorem Style.ofJson?_str_eq_some_iff {name : String} {s : Style} : Style.ofJson? (.str name) = some s ↔ s.name = name := by
  constructor
  · intro h
    simpa using List.find?_some (p := fun t : Style => t.name == name) h
  · rintro rfl
    exact Style.ofJson?_name s

/-- The fields of a configuration in the forms that an environment gives them. -/
structure Fields where
  style : String
  yes : String
  no : String
  strict : Bool
  limit : Int

namespace Fields

open Environment Text

/-- Each field is what the text for its name says, if there is one, and else its usual value. -/
structure IsGiven (f : Fields) (given : String → Option String) : Prop where
  style : f.style = ((given "TRUTHTAB_STYLE").map folded).getD "colorized"
  yes : f.yes = (given "TRUTHTAB_TRUE_GLYPH").getD "T"
  no : f.no = (given "TRUTHTAB_FALSE_GLYPH").getD "F"
  strict : f.strict = (given "TRUTHTAB_STRICT_IMPLICATION").any fun s => switchedOn.contains (folded s)
  limit : (given "TRUTHTAB_MAX_VARIABLES").elim (some 12) (fun s => readInteger? s.toList) = some f.limit

/-- Fields that pass the checks. -/
structure IsValid (f : Fields) : Prop where
  style : ∃ s : Style, s.name = f.style
  nonempty : f.yes ≠ "" ∧ f.no ≠ ""
  ne : f.yes ≠ f.no
  limit : 1 ≤ f.limit

/-- The configuration with such fields. -/
structure AreOf (f : Fields) (c : Config) : Prop where
  style : c.style.name = f.style
  yes : c.trueGlyph = .str f.yes
  no : c.falseGlyph = .str f.no
  strict : c.strictImplication = .bool f.strict
  limit : c.maxVariables = .int f.limit

/-- Valid fields are those of a configuration. -/
theorem IsValid.exists_areOf {f : Fields} (h : f.IsValid) : ∃ c, f.AreOf c := by
  obtain ⟨s, hs⟩ := h.style
  exact ⟨⟨s, .str f.yes, .str f.no, .bool f.strict, .int f.limit⟩, hs, rfl, rfl, rfl, rfl⟩

/-- The fields before they are checked. -/
def values (f : Fields) : Config.Values := ⟨.str f.style, .str f.yes, .str f.no, .bool f.strict, .int f.limit⟩

end Fields

namespace Config

/-! ## Checks -/

/-- A configuration passes the checks on glyphs and limit. -/
structure IsChecked (c : Config) : Prop where
  nonempty : c.trueGlyph.isTruthy ∧ c.falseGlyph.isTruthy
  ne : Json.same c.trueGlyph c.falseGlyph = false
  limit : ∃ order, c.maxVariables.compareInt? 1 = some order ∧ order ≠ some .lt

/-- Values pass the checks exactly if the style has a name and the configuration made of them is checked. -/
theorem check_eq_ok_iff {style yes no strict limit : Json} {c : Config} : check style yes no strict limit = .ok c ↔
    ∃ s, Style.ofJson? style = some s ∧ c = ⟨s, yes, no, strict, limit⟩ ∧ c.IsChecked := by
  constructor
  · intro h
    unfold check at h
    split at h
    · cases h
    · rename_i s hs
      split at h
      · cases h
      · rename_i hnonempty
        split at h
        · cases h
        · rename_i hne
          split at h
          · cases h
          · cases h
          · rename_i order hlow hlimit
            obtain rfl := Except.ok.inj h
            exact ⟨s, hs, rfl, by simpa using hnonempty, by simpa using hne, order, hlimit, hlow⟩
  · rintro ⟨s, hs, rfl, ⟨hyes, hno⟩, hne, order, hlimit, hlow⟩
    dsimp only at hyes hno hne hlimit
    simp [check, hs, hyes, hno, hne, hlimit]

/-- A configuration that passes the checks passes them with another style and another strictness. -/
theorem IsChecked.check_eq {c : Config} (h : c.IsChecked) (s : Style) (strict : Json) :
    check (.str s.name) c.trueGlyph c.falseGlyph strict c.maxVariables = .ok { c with style := s, strictImplication := strict } :=
  check_eq_ok_iff.mpr ⟨s, Style.ofJson?_name s, rfl, h.nonempty, h.ne, h.limit⟩

/-- The configuration of values that pass the checks is checked. -/
theorem isChecked_of_values {v : Values} {c : Config} (h : v.check = .ok c) : c.IsChecked := by
  obtain ⟨-, -, -, hc⟩ := check_eq_ok_iff.mp h
  exact hc

/-- A configuration that was made through the checks is checked. -/
theorem isChecked_of_bind {ε : Type} {x : Except ε Values} {r : Values → Except ε Config} {c : Config} (h : x.bind r = .ok c)
    (hcheck : ∀ v, r v = .ok c → v.check = .ok c) : c.IsChecked := by
  cases x with
  | error e => cases h
  | ok v => exact isChecked_of_values (hcheck v h)

/-- An integer passes as a limit exactly if it is at least one. -/
theorem limit_int_iff {n : Int} : (∃ order, (Json.int n).compareInt? 1 = some order ∧ order ≠ some .lt) ↔ 1 ≤ n := by
  have hlow : compare n 1 ≠ .lt ↔ 1 ≤ n := by
    rw [Ne, Int.compare_eq_lt]
    omega
  rw [← hlow, Json.compareInt?]
  simp

/-- Fields pass the checks exactly if they are valid. -/
theorem check_values_eq_ok_iff {f : Fields} {c : Config} : f.values.check = .ok c ↔ f.IsValid ∧ f.AreOf c := by
  rw [Values.check, check_eq_ok_iff]
  constructor
  · rintro ⟨s, hs, rfl, ⟨hyes, hno⟩, hne, hlimit⟩
    refine ⟨⟨⟨s, Style.ofJson?_str_eq_some_iff.mp hs⟩, ⟨?_, ?_⟩, ?_, limit_int_iff.mp hlimit⟩,
      ⟨Style.ofJson?_str_eq_some_iff.mp hs, rfl, rfl, rfl, rfl⟩⟩
    · simpa [Fields.values, Json.isTruthy, JsonText.isEmpty] using hyes
    · simpa [Fields.values, Json.isTruthy, JsonText.isEmpty] using hno
    · simpa [Fields.values, Json.same] using hne
  · rintro ⟨⟨-, ⟨hyes, hno⟩, hne, hlimit⟩, hf⟩
    obtain ⟨style, trueGlyph, falseGlyph, strict, limit⟩ := c
    obtain ⟨hstyle, rfl, rfl, rfl, rfl⟩ := hf
    refine ⟨style, Style.ofJson?_str_eq_some_iff.mpr hstyle, rfl, ⟨?_, ?_⟩, ?_, limit_int_iff.mpr hlimit⟩
    · simpa [Json.isTruthy, JsonText.isEmpty] using hyes
    · simpa [Json.isTruthy, JsonText.isEmpty] using hno
    · simpa [Json.same] using hne

end Config

/-! ## Environments -/

namespace Config

/-- A field, if there is a value for it. -/
def optionalField (name : JsonText) (x : Option Json) : List (JsonText × Json) := (x.map (name, ·)).toList

/-- A field that may be there is found by its name alone. -/
theorem lookup_optionalField (name : JsonText) (x : Option Json) (key : JsonText) :
    (optionalField name x).lookup key = if key = name then x else none := by
  cases x with
  | none => simp [optionalField]
  | some x =>
    simp only [optionalField, Option.map_some, Option.toList_some]
    by_cases h : key = name <;> simp [h]

/-- A field that may be there has its name. -/
theorem eq_of_mem_optionalField {name : JsonText} {x : Option Json} {f : JsonText × Json} (h : f ∈ optionalField name x) :
    f.1 = name := by
  obtain ⟨y, -, rfl⟩ := Option.map_eq_some_iff.mp (Option.mem_toList.mp h)
  rfl

/-- Fields for which there are values take them, each its own, and the others have their usual values. -/
theorem valuesOfFields_optionalFields (style yes no strict limit : Option Json) :
    Values.ofFields (optionalField "style" style ++ optionalField "true_glyph" yes ++ optionalField "false_glyph" no ++
        optionalField "strict_implication" strict ++ optionalField "max_variables" limit) =
      .ok ⟨style.getD (.str "colorized"), yes.getD (.str "T"), no.getD (.str "F"), strict.getD (.bool false),
        limit.getD (.int 12)⟩ := by
  unfold Values.ofFields
  split
  · rename_i f hf
    have hunknown := List.find?_some hf
    have hmem := List.mem_of_find?_eq_some hf
    simp only [List.mem_append] at hmem
    rcases hmem with (((hmem | hmem) | hmem) | hmem) | hmem <;>
      rw [eq_of_mem_optionalField hmem] at hunknown <;> exact absurd hunknown (by decide)
  · simp [Json.field?, List.lookup_append, lookup_optionalField, Style.name]

end Config

open Environment Config Text

/-- There are fields that texts give unless the text of the limit writes no integer. -/
theorem Fields.exists_isGiven_or (given : String → Option String) : (∃ f : Fields, f.IsGiven given) ∨
    ∃ s, given "TRUTHTAB_MAX_VARIABLES" = some s ∧ readInteger? s.toList = none := by
  cases hlimit : (given "TRUTHTAB_MAX_VARIABLES").elim (some 12) (fun s => readInteger? s.toList) with
  | some n => exact .inl ⟨⟨_, _, _, _, n⟩, rfl, rfl, rfl, rfl, hlimit⟩
  | none =>
    cases hmax : given "TRUTHTAB_MAX_VARIABLES" with
    | none =>
      rw [hmax] at hlimit
      cases hlimit
    | some s =>
      rw [hmax] at hlimit
      exact .inr ⟨s, rfl, hlimit⟩

section Given

variable {e : Environment}

/-- The fields of an environment are those of the settings that it has. -/
theorem fields_eq (e : Environment) : e.fields =
    let texts := optionalField "style" ((e.setting? "TRUTHTAB_STYLE").map fun s => .str (folded s)) ++
      optionalField "true_glyph" ((e.setting? "TRUTHTAB_TRUE_GLYPH").map fun s => .str s) ++
      optionalField "false_glyph" ((e.setting? "TRUTHTAB_FALSE_GLYPH").map fun s => .str s) ++
      optionalField "strict_implication"
        ((e.setting? "TRUTHTAB_STRICT_IMPLICATION").map fun s => .bool (switchedOn.contains (folded s)))
    match e.setting? "TRUTHTAB_MAX_VARIABLES" with
    | none => .ok (texts ++ optionalField "max_variables" none)
    | some s =>
      match readInteger? s.toList with
      | some n => .ok (texts ++ optionalField "max_variables" (some (.int n)))
      | none => .error (.limitNoInteger s) := by
  simp only [Environment.fields, optionalField, Option.map_map, Option.map_none, Option.toList_none, List.append_nil]
  cases e.setting? "TRUTHTAB_MAX_VARIABLES" with
  | none => rfl
  | some s => cases readInteger? s.toList <;> rfl

/-- The fields that are given are the values that the environment sets. -/
theorem valuesOfEnvironment_of_isGiven (hfault : e.fault? = none) {f : Fields} (hf : f.IsGiven e.setting?) :
    Values.ofEnvironment e = .ok f.values := by
  have hstyle : ((e.setting? "TRUTHTAB_STYLE").map fun s => Json.str (folded s)).getD (.str "colorized") = .str f.style := by
    rw [hf.style]
    cases e.setting? "TRUTHTAB_STYLE" <;> rfl
  have hyes : ((e.setting? "TRUTHTAB_TRUE_GLYPH").map fun s => Json.str s).getD (.str "T") = .str f.yes := by
    rw [hf.yes]
    cases e.setting? "TRUTHTAB_TRUE_GLYPH" <;> rfl
  have hno : ((e.setting? "TRUTHTAB_FALSE_GLYPH").map fun s => Json.str s).getD (.str "F") = .str f.no := by
    rw [hf.no]
    cases e.setting? "TRUTHTAB_FALSE_GLYPH" <;> rfl
  have hstrict :
      ((e.setting? "TRUTHTAB_STRICT_IMPLICATION").map fun s => Json.bool (switchedOn.contains (folded s))).getD (.bool false) =
        .bool f.strict := by
    rw [hf.strict]
    cases e.setting? "TRUTHTAB_STRICT_IMPLICATION" with
    | none => rfl
    | some s => rw [Option.map_some, Option.getD_some, Option.any_some]
  have hlimit := hf.limit
  unfold Values.ofEnvironment
  rw [hfault, fields_eq]
  cases hmax : e.setting? "TRUTHTAB_MAX_VARIABLES" with
  | none =>
    rw [hmax, Option.elim_none, Option.some_inj] at hlimit
    dsimp only
    rw [valuesOfFields_optionalFields, hstyle, hyes, hno, hstrict, Option.getD_none, hlimit, Fields.values]
  | some s =>
    rw [hmax, Option.elim_some] at hlimit
    dsimp only
    rw [hlimit]
    dsimp only
    rw [valuesOfFields_optionalFields, hstyle, hyes, hno, hstrict, Option.getD_some, Fields.values]

/-- The fields that are given are checked together. -/
theorem ofEnvironment_of_isGiven (hfault : e.fault? = none) {f : Fields} (hf : f.IsGiven e.setting?) :
    ofEnvironment e = f.values.check := by
  rw [ofEnvironment, valuesOfEnvironment_of_isGiven hfault hf]
  rfl

/-- A text for the limit that writes no integer is refused. -/
theorem ofEnvironment_of_noInteger (hfault : e.fault? = none) {s : String}
    (hs : e.setting? "TRUTHTAB_MAX_VARIABLES" = some s) (hno : readInteger? s.toList = none) :
    ofEnvironment e = .error (.refused (.limitNoInteger s)) := by
  unfold ofEnvironment Values.ofEnvironment
  rw [hfault, fields_eq, hs]
  dsimp only
  rw [hno]
  rfl

/-- An entry that cannot be set is refused, whatever the fields. -/
theorem ofEnvironment_of_fault {fault : SettingFault} (hfault : e.fault? = some fault) :
    ofEnvironment e = .error (.refused (.setting fault)) := by
  unfold ofEnvironment Values.ofEnvironment
  rw [hfault]
  rfl

/-- An environment sets the configuration that has the fields it gives, if its entries can be set and the fields are valid. -/
theorem ofEnvironment_eq_ok_iff {c : Config} : ofEnvironment e = .ok c ↔
    e.fault? = none ∧ ∃ f : Fields, f.IsGiven e.setting? ∧ f.IsValid ∧ f.AreOf c := by
  constructor
  · intro hc
    cases hfault : e.fault? with
    | some fault =>
      rw [ofEnvironment_of_fault hfault] at hc
      cases hc
    | none =>
      rcases Fields.exists_isGiven_or e.setting? with ⟨f, hf⟩ | ⟨s, hs, hno⟩
      · rw [ofEnvironment_of_isGiven hfault hf] at hc
        exact ⟨rfl, f, hf, check_values_eq_ok_iff.mp hc⟩
      · rw [ofEnvironment_of_noInteger hfault hs hno] at hc
        cases hc
  · rintro ⟨hfault, f, hf, hvalid⟩
    rw [ofEnvironment_of_isGiven hfault hf]
    exact check_values_eq_ok_iff.mpr hvalid

/-- If its entries can be set, it sets none exactly if the text of the limit writes no integer, or the fields are not valid. -/
theorem ofEnvironment_eq_error_iff (hfault : e.fault? = none) : (∃ err, ofEnvironment e = .error err) ↔
    (∃ s, e.setting? "TRUTHTAB_MAX_VARIABLES" = some s ∧ readInteger? s.toList = none) ∨
      ∃ f : Fields, f.IsGiven e.setting? ∧ ¬f.IsValid := by
  constructor
  · rintro ⟨err, herr⟩
    rcases Fields.exists_isGiven_or e.setting? with ⟨f, hf⟩ | hno
    · refine .inr ⟨f, hf, fun hvalid => ?_⟩
      obtain ⟨c, hc⟩ := hvalid.exists_areOf
      cases herr.symm.trans (ofEnvironment_eq_ok_iff.mpr ⟨hfault, f, hf, hvalid, hc⟩)
    · exact .inl hno
  · rintro (⟨s, hs, hno⟩ | ⟨f, hf, hinvalid⟩)
    · exact ⟨_, ofEnvironment_of_noInteger hfault hs hno⟩
    · cases hc : ofEnvironment e with
      | error err => exact ⟨err, rfl⟩
      | ok c =>
        rw [ofEnvironment_of_isGiven hfault hf] at hc
        exact absurd (check_values_eq_ok_iff.mp hc).1 hinvalid

end Given

end Propositional
