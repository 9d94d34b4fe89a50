import Propositional.Proofs.Config.Layers
import Propositional.Proofs.Json.Value

/-!
# Changes to a configuration

A configuration is changed by values for its fields, and checked again. What a change leaves is said field by field
(`withOverrides_eq_ok_iff`): the last value other than null that the changes have for it, and else the value that it had. So two
changes one after the other are one change, in which the later values count (`obtainable_and_merged`); the one change may pass the
checks where the first of the two alone does not.

Every configuration that can be made passes the checks, also after any number of changes (`isChecked_of_obtainable`). These keep
every limit below one out, but a limit that is not a number is not below one (`obtainable_limit_nan`).
-/

namespace Propositional

/-! ## Fields that are set one after the other -/

namespace Json

/-- The value null. -/
def isNull : Json → Bool
  | null => true
  | _ => false

variable {name key : JsonText} {value : Json} {f : JsonText × Json} {fs gs : List (JsonText × Json)}

/-- The first field decides for its name. -/
theorem lookup_cons (f : JsonText × Json) (fs : List (JsonText × Json)) (key : JsonText) :
    (f :: fs).lookup key = if key = f.1 then some f.2 else fs.lookup key := by
  rw [List.lookup_cons]
  split_ifs with h
  · rw [h, beq_self_eq_true]
  · rw [beq_eq_false_iff_ne.mpr h]

/-- A field that is set has the value it was set to, and the others theirs. -/
theorem lookup_setField (name : JsonText) (value : Json) (fs : List (JsonText × Json)) (key : JsonText) :
    (setField name value fs).lookup key = if key = name then some value else fs.lookup key := by
  induction fs with
  | nil => rw [setField, lookup_cons]
  | cons f fs ih =>
    obtain ⟨n, v⟩ := f
    rw [setField, lookup_cons]
    split
    · rename_i hn
      subst hn
      rw [lookup_cons]
      split_ifs <;> rfl
    · rename_i hn
      rw [lookup_cons, ih]
      dsimp only
      split_ifs with h h'
      · exact absurd (h.symm.trans h') hn
      · rfl
      · rfl
      · rfl

/-- A field behind a setting is the one set or was there before. -/
theorem mem_of_mem_setField (h : f ∈ setField name value fs) : f = (name, value) ∨ f ∈ fs := by
  induction fs with
  | nil => exact .inl (List.mem_singleton.mp h)
  | cons g fs ih =>
    obtain ⟨n, v⟩ := g
    rw [setField] at h
    split at h
    · rename_i hn
      rcases List.mem_cons.mp h with rfl | h
      · exact .inl (by rw [hn])
      · exact .inr (List.mem_cons_of_mem _ h)
    · rcases List.mem_cons.mp h with rfl | h
      · exact .inr List.mem_cons_self
      · exact (ih h).imp_right (List.mem_cons_of_mem _)

/-- Setting a field keeps the names distinct. -/
theorem nodup_names_setField (h : (fs.map (·.1)).Nodup) : ((setField name value fs).map (·.1)).Nodup := by
  induction fs with
  | nil => exact List.nodup_singleton name
  | cons g fs ih =>
    obtain ⟨n, v⟩ := g
    obtain ⟨hnot, hrest⟩ := List.nodup_cons.mp h
    rw [setField]
    split
    · exact h
    · rename_i hn
      refine List.nodup_cons.mpr ⟨fun hmem => ?_, ih hrest⟩
      obtain ⟨f, hf, hname⟩ := List.mem_map.mp hmem
      rcases mem_of_mem_setField hf with rfl | hf
      · exact hn hname.symm
      · exact hnot (hname ▸ List.mem_map_of_mem hf)

/-- Fields that are set one after the other have their last values. -/
theorem lookup_foldl_setField (gs fs : List (JsonText × Json)) (key : JsonText) :
    (gs.foldl (fun fs f => setField f.1 f.2 fs) fs).lookup key = (gs.reverse.lookup key).or (fs.lookup key) := by
  induction gs generalizing fs with
  | nil => rfl
  | cons g gs ih =>
    rw [List.foldl_cons, ih, lookup_setField, List.reverse_cons, List.lookup_append, Option.or_assoc, lookup_cons]
    split_ifs <;> rfl

/-- A field behind some settings is one of those set or was there before. -/
theorem mem_of_mem_foldl_setField (h : f ∈ gs.foldl (fun fs f => setField f.1 f.2 fs) fs) : f ∈ gs ∨ f ∈ fs := by
  induction gs generalizing fs with
  | nil => exact .inr h
  | cons g gs ih =>
    rcases ih h with h | h
    · exact .inl (List.mem_cons_of_mem _ h)
    · rcases mem_of_mem_setField h with rfl | h
      · exact .inl List.mem_cons_self
      · exact .inr h

/-- A field that is set stays set. -/
theorem exists_mem_foldl_setField (h : f ∈ gs) (fs : List (JsonText × Json)) :
    ∃ x, (f.1, x) ∈ gs.foldl (fun fs f => setField f.1 f.2 fs) fs := by
  have hset : gs.reverse.lookup f.1 ≠ none := by
    intro hnone
    simpa using List.lookup_eq_none_iff.mp hnone f (List.mem_reverse.mpr h)
  obtain ⟨x, hx⟩ := Option.ne_none_iff_exists'.mp hset
  have hlookup := lookup_foldl_setField gs fs f.1
  rw [hx, Option.some_or] at hlookup
  obtain ⟨before, after, hsplit, -⟩ := List.lookup_eq_some_iff.mp hlookup
  exact ⟨x, by rw [hsplit]; simp⟩

/-- The fields of an object have distinct names. -/
theorem nodup_names_ofFields (gs : List (JsonText × Json)) : ((ofFields gs).map (·.1)).Nodup := by
  suffices h : ∀ fs : List (JsonText × Json), (fs.map (·.1)).Nodup →
      ((gs.foldl (fun fs f => setField f.1 f.2 fs) fs).map (·.1)).Nodup from h [] List.nodup_nil
  induction gs with
  | nil => exact fun fs h => h
  | cons g gs ih => exact fun fs h => ih _ (nodup_names_setField h)

end Json

/-- A value names a style exactly if it is the text of its name. -/
theorem Style.ofJson?_eq_some_iff {x : Json} {s : Style} : ofJson? x = some s ↔ x = .str s.name := by
  constructor
  · intro h
    cases x with
    | str t =>
      cases t with
      | string t => rw [ofJson?_str_eq_some_iff.mp h]
      | unpaired => cases h
    | _ => cases h
  · rintro rfl
    exact ofJson?_name s

namespace Config

variable {c d e : Config}

/-! ## The checks, field by field -/

theorem field?_fields (c : Config) :
    Json.field? c.fields "style" = some (.str c.style.name) ∧ Json.field? c.fields "true_glyph" = some c.trueGlyph ∧
      Json.field? c.fields "false_glyph" = some c.falseGlyph ∧
      Json.field? c.fields "strict_implication" = some c.strictImplication ∧
      Json.field? c.fields "max_variables" = some c.maxVariables := ⟨rfl, rfl, rfl, rfl, rfl⟩

/-- What holds of all names of fields holds of each of the five. -/
theorem forall_mem_fieldNames {P : JsonText → Prop} : (∀ name ∈ fieldNames, P name) ↔
    P "style" ∧ P "true_glyph" ∧ P "false_glyph" ∧ P "strict_implication" ∧ P "max_variables" := by
  simp [fieldNames]

/-- Given fields make a configuration exactly if they all are fields of it, it has their values and its usual ones for the
others, and it passes the checks. -/
theorem ofFields_eq_ok_iff {given : List (JsonText × Json)} : ofFields given = .ok d ↔
    (∀ f ∈ given, f.1 ∈ fieldNames) ∧ d.IsChecked ∧
      ∀ name ∈ fieldNames, Json.field? d.fields name = (Json.field? given name).or (Json.field? ({} : Config).fields name) := by
  simp only [forall_mem_fieldNames, field?_fields, Option.or_some, Option.some_inj]
  unfold ofFields Values.ofFields
  cases hunknown : given.find? fun f => !fieldNames.contains f.1 with
  | some f =>
    have hf := List.find?_some hunknown
    refine ⟨nofun, fun h => ?_⟩
    have hknown := h.1 f (List.mem_of_find?_eq_some hunknown)
    simp [hknown] at hf
  | none =>
    have hknown : ∀ f ∈ given, f.1 ∈ fieldNames := fun f hf => by simpa using List.find?_eq_none.mp hunknown f hf
    dsimp only [Except.bind, Values.check]
    rw [check_eq_ok_iff]
    constructor
    · rintro ⟨s, hs, rfl, hchecked⟩
      exact ⟨hknown, hchecked, (Style.ofJson?_eq_some_iff.mp hs).symm, rfl, rfl, rfl, rfl⟩
    · rintro ⟨-, hchecked, hs, hy, hn, ht, hl⟩
      refine ⟨d.style, Style.ofJson?_eq_some_iff.mpr hs.symm, ?_, hchecked⟩
      rw [← hy, ← hn, ← ht, ← hl]

/-! ## Changes -/

/-- Values for the fields of a configuration. Null changes nothing. -/
abbrev Changes := List (JsonText × Json)

namespace Changes

variable {first second : Changes} {name : JsonText}

/-- The changes to other values than null. -/
def effective (changes : Changes) : Changes := changes.filter fun f => !f.2.isNull

/-- The value that a field is changed to, if it is changed. Of several values the last one counts. -/
def value? (changes : Changes) (name : JsonText) : Option Json := changes.effective.reverse.lookup name

/-- Two sets of changes as one, with one value for each field that is changed: of two values other than null the later one. -/
def merged (first second : Changes) : Changes := Json.ofFields (first ++ second).effective

/-- All changes are to fields. A change to null may have any name but that of the configuration itself. -/
def AreKnown (changes : Changes) : Prop := ∀ f ∈ changes, f.1 ∈ fieldNames ∨ f.2.isNull = true ∧ f.1 ≠ ownName

/-- The changes that take effect are those to something else than null. -/
theorem mem_effective {changes : Changes} {f : JsonText × Json} : f ∈ changes.effective ↔ f ∈ changes ∧ f.2.isNull = false := by
  rw [effective, List.mem_filter, Bool.not_eq_true']

/-- A merged change is one of either list, and takes effect. -/
theorem mem_of_mem_merged {f : JsonText × Json} (h : f ∈ merged first second) :
    (f ∈ first ∨ f ∈ second) ∧ f.2.isNull = false := by
  rcases Json.mem_of_mem_foldl_setField h with h | h
  · rwa [mem_effective, List.mem_append] at h
  · cases h

/-- In the one set of changes the later value counts. -/
theorem value?_merged : value? (merged first second) name = (second.value? name).or (first.value? name) := by
  have heffective : (merged first second).effective = merged first second :=
    List.filter_eq_self.mpr fun f hf => by rw [(mem_of_mem_merged hf).2]; rfl
  have honce : Json.ofFields (merged first second) = merged first second := Json.ofFields_of_nodup (Json.nodup_names_ofFields _)
  calc value? (merged first second) name
      = (merged first second).reverse.lookup name := by rw [value?, heffective]
    _ = (Json.ofFields (merged first second)).lookup name := by
      rw [Json.ofFields, Json.lookup_foldl_setField, List.lookup_nil, Option.or_none]
    _ = (first ++ second).effective.reverse.lookup name := by
      rw [honce, merged, Json.ofFields, Json.lookup_foldl_setField, List.lookup_nil, Option.or_none]
    _ = (second.value? name).or (first.value? name) := by
      rw [effective, List.filter_append, List.reverse_append, List.lookup_append]
      rfl

end Changes

/-- The changes that are made: null is left out, but not where it has the name of the configuration itself. -/
def Changes.made (changes : Changes) : Changes := changes.filter fun f => !f.2.isNull || f.1 == ownName

/-- Overriding sets the fields of the changes that are made and checks again. -/
theorem withOverrides_eq (c : Config) (changes : Changes) :
    c.withOverrides changes = ofFields (changes.made.foldl (fun fs f => Json.setField f.1 f.2 fs) c.fields) := by
  unfold withOverrides Changes.made
  refine congrArg (fun gs : Changes => ofFields (gs.foldl (fun fs f => Json.setField f.1 f.2 fs) c.fields)) ?_
  refine List.filter_congr fun f _ => ?_
  obtain ⟨name, x⟩ := f
  cases x <;> rfl

/-- The changes that are made are all to fields exactly if the changes are known, and then they are those to other values than
null. -/
theorem Changes.forall_mem_made_iff {changes : Changes} : (∀ f ∈ changes.made, f.1 ∈ fieldNames) ↔ changes.AreKnown := by
  simp only [made, AreKnown, List.mem_filter, Bool.or_eq_true, Bool.not_eq_true', beq_iff_eq]
  refine forall_congr' fun f => ⟨fun h hf => ?_, fun h hf => ?_⟩
  · cases hnull : f.2.isNull with
    | false => exact .inl (h ⟨hf, .inl hnull⟩)
    | true =>
      refine .inr ⟨rfl, fun hname => ?_⟩
      have hfield := h ⟨hf, .inr hname⟩
      rw [hname] at hfield
      exact absurd hfield (by decide)
  · rcases h hf.1 with h | ⟨hnull, hname⟩
    · exact h
    · rcases hf.2 with h | h
      · cases hnull.symm.trans h
      · exact absurd h hname

/-- Of changes to fields, those that take effect are made. -/
theorem Changes.AreKnown.made_eq {changes : Changes} (h : changes.AreKnown) : changes.made = changes.effective := by
  refine List.filter_congr fun f hf => ?_
  rcases h f hf with hname | ⟨-, hname⟩
  · have hne : f.1 ≠ ownName := by
      intro hname'
      rw [hname'] at hname
      exact absurd hname (by decide)
    rw [beq_eq_false_iff_ne.mpr hne, Bool.or_false]
  · rw [beq_eq_false_iff_ne.mpr hname, Bool.or_false]

/-- Changes make a configuration of another exactly if they are to fields of it, what they leave has their values and else those
of the other, and it passes the checks. A change that is made leaves a field of its name, so a change to no field is refused. -/
theorem withOverrides_eq_ok_iff {changes : Changes} : c.withOverrides changes = .ok d ↔
    changes.AreKnown ∧ d.IsChecked ∧
      ∀ name ∈ fieldNames, Json.field? d.fields name = (changes.value? name).or (Json.field? c.fields name) := by
  have hlookup : ∀ name ∈ fieldNames,
      (Json.field? (changes.made.foldl (fun fs f => Json.setField f.1 f.2 fs) c.fields) name).or
        (Json.field? ({} : Config).fields name) =
        (changes.made.reverse.lookup name).or (Json.field? c.fields name) := by
    simp only [Json.field?, Json.lookup_foldl_setField, Option.or_assoc]
    exact forall_mem_fieldNames.mpr ⟨rfl, rfl, rfl, rfl, rfl⟩
  have hnames : (∀ f ∈ changes.made.foldl (fun fs f => Json.setField f.1 f.2 fs) c.fields, f.1 ∈ fieldNames) ↔
    changes.AreKnown := by
    rw [← Changes.forall_mem_made_iff]
    constructor
    · intro h f hf
      obtain ⟨x, hx⟩ := Json.exists_mem_foldl_setField hf c.fields
      exact h (f.1, x) hx
    · intro h f hf
      rcases Json.mem_of_mem_foldl_setField hf with hf | hf
      · exact h f hf
      · have hfields : c.fields.map (·.1) = fieldNames := rfl
        exact hfields ▸ List.mem_map_of_mem hf
  rw [withOverrides_eq, ofFields_eq_ok_iff, hnames]
  refine and_congr_right fun hknown => and_congr_right fun _ => forall₂_congr fun name hname => ?_
  rw [hlookup name hname, hknown.made_eq, Changes.value?]

/-! ## What can be made -/

/-- A configuration that can be made: of given fields, of a file, of an environment, or by changes to one that can be made. -/
inductive Obtainable : Config → Prop where
  | fields {given : List (JsonText × Json)} {c : Config} (h : ofFields given = .ok c) : Obtainable c
  | file {text : String} {c : Config} (h : ofFile text = .ok c) : Obtainable c
  | environment {e : Environment} {c : Config} (h : ofEnvironment e = .ok c) : Obtainable c
  | overrides {c d : Config} {changes : Changes} (hc : Obtainable c) (h : c.withOverrides changes = .ok d) : Obtainable d

/-- Whatever it is made of and however it is changed, a configuration passes the checks. -/
theorem isChecked_of_obtainable (h : Obtainable c) : c.IsChecked := by
  induction h with
  | fields h => exact (ofFields_eq_ok_iff.mp h).2.1
  | @file text c h =>
    refine isChecked_of_bind h fun v hv => ?_
    cases hcheck : v.check with
    | error e =>
      rw [hcheck] at hv
      cases hv
    | ok d =>
      rw [hcheck] at hv
      rw [Except.ok.inj hv]
  | @environment e c h => exact isChecked_of_bind h fun v hv => hv
  | overrides _ h _ => exact (withOverrides_eq_ok_iff.mp h).2.1

end Config

namespace Json

/-- A number is at least an integer. What is not a number is not. -/
def IsAtLeast (x : Json) (n : Int) : Prop := x.compareInt? n = some (some .eq) ∨ x.compareInt? n = some (some .gt)

/-- Only the float that is no number has no order with an integer. -/
theorem compareInt?_eq_some_none_iff {x : Json} {n : Int} : x.compareInt? n = some none ↔ x = .float .nan := by
  cases x with
  | float x => cases x <;> simp [compareInt?, Binary64.compareInt]
  | _ => simp [compareInt?]

/-- The fields of a value that is an object. -/
def fields? : Json → Option (List (JsonText × Json))
  | .obj fields => some fields
  | _ => none

/-- Only an object has fields. -/
theorem fields?_eq_some_iff {x : Json} {fields : List (JsonText × Json)} : fields? x = some fields ↔ x = .obj fields := by
  cases x <;> simp [fields?]

end Json

namespace Config

/-- The checks leave a limit that is at least one, or is not a number. -/
theorem IsChecked.isAtLeast_iff {c : Config} (h : c.IsChecked) : c.maxVariables.IsAtLeast 1 ↔ c.maxVariables ≠ .float .nan := by
  obtain ⟨order, hcompare, hlow⟩ := h.limit
  rw [Ne, ← Json.compareInt?_eq_some_none_iff (n := 1), Json.IsAtLeast, hcompare]
  rcases order with _ | _ | _ | _ <;> simp_all

/-- Two changes that succeed one after the other succeed as one, and leave the same. -/
theorem withOverrides_merged {c d e : Config} {first second : Changes} (hfirst : c.withOverrides first = .ok d)
    (hsecond : d.withOverrides second = .ok e) : c.withOverrides (first.merged second) = .ok e := by
  obtain ⟨hknown, -, hd⟩ := withOverrides_eq_ok_iff.mp hfirst
  obtain ⟨hknown', hchecked, he⟩ := withOverrides_eq_ok_iff.mp hsecond
  refine withOverrides_eq_ok_iff.mpr ⟨fun f hf => ?_, hchecked, fun name hname => ?_⟩
  · obtain ⟨hf, -⟩ := Changes.mem_of_mem_merged hf
    exact hf.elim (hknown f) (hknown' f)
  · rw [he name hname, hd name hname, Changes.value?_merged, Option.or_assoc]

/-- Configurations that can be made, and their changes. The style of such a configuration is one of the three; two texts as its
glyphs are not empty and differ, so they tell true from false; and its limit is at least one, unless it is not a number. Two
changes one after the other leave in each field the later value other than null, and else the value that the field had. The one
change that merges them leaves the same where both succeed, and where it fails, they do not both succeed. -/
theorem obtainable_and_merged {c : Config} (hc : Obtainable c) :
    (∃ s ∈ ["plain", "colorized", "markdown"], Json.field? c.fields "style" = some (.str (.string s))) ∧
    (∀ yes no : JsonText, c.trueGlyph = .str yes → c.falseGlyph = .str no → Distinct yes no ∧ Function.Injective c.glyph) ∧
    (c.maxVariables.IsAtLeast 1 ↔ c.maxVariables ≠ .float .nan) ∧
    ∀ first second : Changes,
      (∀ e, (c.withOverrides first).bind (·.withOverrides second) = .ok e →
        c.withOverrides (first.merged second) = .ok e ∧
        ∀ name ∈ fieldNames, Json.field? e.fields name =
          ((second.value? name).or (first.value? name)).or (Json.field? c.fields name)) ∧
      ∀ err, c.withOverrides (first.merged second) = .error err →
        ∃ err', (c.withOverrides first).bind (·.withOverrides second) = .error err' := by
  have hchecked := isChecked_of_obtainable hc
  have hmerged : ∀ {first second : Changes} {e : Config}, (c.withOverrides first).bind (·.withOverrides second) = .ok e →
      c.withOverrides (first.merged second) = .ok e := by
    intro first second e he
    cases hd : c.withOverrides first with
    | error err =>
      rw [hd] at he
      cases he
    | ok d =>
      rw [hd] at he
      exact withOverrides_merged hd he
  refine ⟨?_, ?_, hchecked.isAtLeast_iff,
    fun first second => ⟨fun e he => ⟨hmerged he, fun name hname => ?_⟩, fun err herr => ?_⟩⟩
  · exact ⟨c.style.name, by cases c.style <;> decide, rfl⟩
  · intro yes no hyes hno
    have hdistinct : Distinct yes no := by
      obtain ⟨hnonempty, hne, -⟩ := hchecked
      rw [hyes, hno] at hnonempty hne
      refine ⟨by simpa [Json.isTruthy] using hnonempty, by simpa [Json.same] using hne⟩
    have hglyphs : c.trueGlyph ≠ c.falseGlyph := fun h => hdistinct.ne (Json.str.inj (hyes.symm.trans (h.trans hno)))
    refine ⟨hdistinct, fun a b hab => ?_⟩
    cases a <;> cases b
    · rfl
    · exact absurd hab.symm hglyphs
    · exact absurd hab hglyphs
    · rfl
  · obtain ⟨-, -, hvalues⟩ := withOverrides_eq_ok_iff.mp (hmerged he)
    rw [hvalues name hname, Changes.value?_merged]
  · cases htwo : (c.withOverrides first).bind (·.withOverrides second) with
    | error err' => exact ⟨err', rfl⟩
    | ok e => cases herr.symm.trans (hmerged htwo)

/-- The glyphs are exchanged by way of a third one, and the style is changed on the way. The one change has no third glyph. -/
theorem obtainable_and_merged_exchange :
    let first : Changes := [("true_glyph", .str "X"), ("style", .str "markdown"), ("max_variables", .null)]
    let second : Changes := [("false_glyph", .str "T"), ("style", .null), ("true_glyph", .str "F")]
    let one : Changes := [("true_glyph", .str "F"), ("style", .str "markdown"), ("false_glyph", .str "T")]
    let exchanged : Config := ⟨.markdown, .str "F", .str "T", .bool false, .int 12⟩
    (({} : Config).withOverrides first).bind (·.withOverrides second) = .ok exchanged ∧ first.merged second = one ∧
      ({} : Config).withOverrides one = .ok exchanged ∧ Function.Injective exchanged.glyph ∧
        exchanged.maxVariables.IsAtLeast 1 := by
  intro first second one exchanged
  have hmade : Obtainable {} := .fields (show ofFields [] = .ok {} from rfl)
  have htwo : (({} : Config).withOverrides first).bind (·.withOverrides second) = .ok exchanged := rfl
  obtain ⟨-, -, -, hchanges⟩ := obtainable_and_merged hmade
  have hone := ((hchanges first second).1 exchanged htwo).1
  obtain ⟨-, hglyphs, hlimit, -⟩ := obtainable_and_merged (hmade.overrides hone)
  exact ⟨htwo, rfl, hone, (hglyphs "F" "T" rfl rfl).2, hlimit.mpr nofun⟩

/-- Where the first change alone is refused, both as one may pass the checks. -/
example : (∃ err, ({} : Config).withOverrides [("true_glyph", .str "F")] = .error err) ∧
    ({} : Config).withOverrides (Changes.merged [("true_glyph", .str "F")] [("false_glyph", .str "T")]) =
      .ok { trueGlyph := .str "F", falseGlyph := .str "T" } := ⟨⟨_, rfl⟩, rfl⟩

/-- A file with a limit that is not a number is read as such. -/
theorem read_limit_nan :
    Json.readWithin (some Text.digitLimit) (Text.lineFeeds "\x7b\"max_variables\": NaN\x7d".toList) =
      .ok (.obj [("max_variables", .float .nan)]) := by
  have hshape : ((Json.readWithin (some Text.digitLimit) (Text.lineFeeds "\x7b\"max_variables\": NaN\x7d".toList)).toOption.bind
      Json.fields?).map (·.map fun f => (f.1, f.2.compareInt? 1)) =
    some [(("max_variables" : JsonText), some none)] := by decide +kernel
  obtain ⟨fields, hfields, hlimit⟩ := Option.map_eq_some_iff.mp hshape
  obtain ⟨x, hread, hx⟩ := Option.bind_eq_some_iff.mp hfields
  obtain ⟨⟨name, value⟩, rfl, hfield⟩ := List.map_eq_singleton_iff.mp hlimit
  obtain ⟨rfl, hvalue⟩ := Prod.mk.inj hfield
  obtain rfl : value = .float .nan := Json.compareInt?_eq_some_none_iff.mp hvalue
  rw [Json.fields?_eq_some_iff.mp hx] at hread
  cases hresult : Json.readWithin (some Text.digitLimit) (Text.lineFeeds "\x7b\"max_variables\": NaN\x7d".toList) with
  | error e =>
    rw [hresult] at hread
    cases hread
  | ok y =>
    rw [hresult] at hread
    rw [Option.some.inj hread]

/-- A file can give a limit that is not a number. It passes the checks and is not at least one, and no number of letters exceeds
it. -/
theorem obtainable_limit_nan : ∃ c, ofFile "\x7b\"max_variables\": NaN\x7d" = .ok c ∧ Obtainable c ∧
    c.trueGlyph = .str "T" ∧ c.falseGlyph = .str "F" ∧ ¬c.maxVariables.IsAtLeast 1 ∧ ∀ count, c.exceeds count = false := by
  have hfile : ofFile "\x7b\"max_variables\": NaN\x7d" = .ok { maxVariables := .float .nan } := by
    rw [ofFile, ofFileWithin, Values.ofFileWithin]
    simp only [read_limit_nan]
    rfl
  refine ⟨_, hfile, .file hfile, rfl, rfl, ?_, fun count => rfl⟩
  rintro (h | h) <;> cases h

end Config

end Propositional
