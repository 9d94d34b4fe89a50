import Mathlib.Data.List.Forall2
import Propositional.Proofs.Evaluation.Variables
import Propositional.Proofs.Valuation.Enumeration
import Propositional.Table

/-!
# The rows of a table

A table has one row for each valuation of its letters, and the row holds the values of the formulas under that valuation
(`rowsOf_eq_ok_iff`). There are rows exactly when every formula is well formed (`exists_rowsOf_iff`). What a row says about a
formula is what the formula's own table says in the row of the letters that the formula has (`truthTable_of_formulas`).
-/

namespace Propositional

/-- A computation on all members of a list has results exactly if it has one for each. -/
theorem mapM_eq_ok_iff {α β ε : Type} {f : α → Except ε β} {xs : List α} :
    ∀ {ys : List β}, xs.mapM f = .ok ys ↔ List.Forall₂ (fun x y => f x = .ok y) xs ys := by
  induction xs with
  | nil => intro ys; cases ys <;> simp [pure, Except.pure]
  | cons x xs ih =>
    intro ys
    rw [List.mapM_cons]
    cases hx : f x with
    | error e => cases ys <;> simp [bind, Except.bind, hx]
    | ok y =>
      cases hxs : xs.mapM f with
      | error e => cases ys <;> simp [bind, Except.bind, ← ih, hx, hxs]
      | ok ys' => cases ys <;> simp [bind, Except.bind, pure, Except.pure, ← ih, hx, hxs]

/-- A list is worked off exactly when each of its members is. -/
theorem exists_mapM_iff {α β ε : Type} {f : α → Except ε β} {xs : List α} :
    (∃ ys, xs.mapM f = .ok ys) ↔ ∀ x ∈ xs, ∃ y, f x = .ok y := by
  simp only [mapM_eq_ok_iff]
  induction xs with
  | nil => simp
  | cons x xs ih => simp [List.forall₂_cons_left_iff, ← ih]

/-- A member of a list has one beside it in the other. -/
theorem exists_getElem?_of_forall₂ {α β : Type} {R : α → β → Prop} {xs : List α} {ys : List β} (h : List.Forall₂ R xs ys) :
    ∀ {j : Nat} {x : α}, xs[j]? = some x → ∃ y, ys[j]? = some y ∧ R x y := by
  induction h with
  | nil => intro j x hj; cases hj
  | @cons x y xs ys hxy _ ih =>
    intro j x' hj
    cases j with
    | zero =>
      obtain rfl : x = x' := by simpa using hj
      exact ⟨y, rfl, hxy⟩
    | succ j => exact ih (by simpa using hj)

/-- A member of a list is related to one of the other. -/
theorem exists_mem_of_forall₂ {α β : Type} {R : α → β → Prop} {xs : List α} {ys : List β} (h : List.Forall₂ R xs ys) {x : α}
    (hx : x ∈ xs) : ∃ y ∈ ys, R x y := by
  obtain ⟨j, hj⟩ := List.mem_iff_getElem?.mp hx
  obtain ⟨y, hy, hxy⟩ := exists_getElem?_of_forall₂ h hj
  exact ⟨y, List.mem_of_getElem? hy, hxy⟩

/-- Lists that are related side by side through a third one are related side by side. -/
theorem forall₂_trans {α β γ : Type} {R : α → β → Prop} {S : β → γ → Prop} {T : α → γ → Prop} {xs : List α} {ys : List β}
    (h : List.Forall₂ R xs ys) (hT : ∀ x y z, R x y → S y z → T x z) :
    ∀ {zs : List γ}, List.Forall₂ S ys zs → List.Forall₂ T xs zs := by
  induction h with
  | nil => rintro zs ⟨⟩; exact .nil
  | cons hxy _ ih => rintro zs (_ | ⟨hyz, hrest⟩); exact .cons (hT _ _ _ hxy hyz) (ih hrest)

/-! ## Letters -/

/-- The alphabet is in its order. -/
theorem pairwise_alphabet : alphabet.Pairwise (· < ·) := by decide

/-- The letters of formulas are in alphabetical order. -/
theorem pairwise_lettersOfAll (formulas : List String) : (lettersOfAll formulas).Pairwise (· < ·) :=
  pairwise_alphabet.sublist List.filter_sublist

/-- The letters of formulas are distinct. -/
theorem nodup_lettersOfAll (formulas : List String) : (lettersOfAll formulas).Nodup :=
  (by decide : alphabet.Nodup).sublist List.filter_sublist

/-- The letters of formulas are those of each of them. -/
theorem mem_lettersOfAll {formulas : List String} {c : Char} : c ∈ lettersOfAll formulas ↔ ∃ f ∈ formulas, c ∈ letters f := by
  simp only [lettersOfAll, List.mem_filter, mem_alphabet, List.any_eq_true, List.contains_iff_mem, mem_letters]
  constructor
  · rintro ⟨hc, f, hf, hm⟩
    exact ⟨f, hf, hc, hm⟩
  · rintro ⟨f, hf, hc, hm⟩
    exact ⟨hc, f, hf, hm⟩

/-- Formulas have letters if one of them has. -/
theorem lettersOfAll_ne_nil {formulas : List String} (h : ∃ f ∈ formulas, letters f ≠ []) : lettersOfAll formulas ≠ [] := by
  obtain ⟨f, hf, hletters⟩ := h
  obtain ⟨c, hc⟩ := List.exists_mem_of_ne_nil _ hletters
  exact List.ne_nil_of_mem (mem_lettersOfAll.mpr ⟨f, hf, hc⟩)

/-- The letters of one formula are its letters. -/
theorem lettersOfAll_singleton (formula : String) : lettersOfAll [formula] = letters formula := by
  simp [lettersOfAll, letters, lettersIn]

/-- A valuation of the letters of formulas is one of letters. -/
theorem ofLetters_of_keys {formulas : List String} {v : Valuation Char} (h : v.keys = lettersOfAll formulas) : v.OfLetters := by
  rw [Valuation.ofLetters_iff, h]
  intro c hc
  obtain ⟨f, -, hf⟩ := mem_lettersOfAll.mp hc
  exact (mem_letters.mp hf).1

/-! ## Rows -/

/-- A row has the value of each formula under its valuation. -/
theorem ofValuation_eq_ok_iff {formulas : List String} {v : Valuation Char} {r : Row} :
    Row.ofValuation formulas v = .ok r ↔
      r.assignment = v ∧ List.Forall₂ (fun f b => evaluateLetters f v = .ok b) formulas r.results := by
  rw [← mapM_eq_ok_iff]
  unfold Row.ofValuation
  cases formulas.mapM (evaluateLetters · v) with
  | error e => simp [Except.map]
  | ok bs =>
    obtain ⟨a, bs'⟩ := r
    simp [Except.map, eq_comm]

/-- The rows of a table are those of the valuations of its letters, in their order, with the values of the formulas. -/
theorem rowsOf_eq_ok_iff {xs : List Char} {formulas : List String} {rows : List Row} :
    rowsOf xs formulas = .ok rows ↔ rows.map Row.assignment = valuations xs ∧
      ∀ r ∈ rows, List.Forall₂ (fun f b => evaluateLetters f r.assignment = .ok b) formulas r.results := by
  simp only [rowsOf, mapM_eq_ok_iff, ofValuation_eq_ok_iff]
  generalize valuations xs = vs
  constructor
  · intro h
    induction h with
    | nil => simp
    | cons hr _ ih =>
      obtain ⟨rfl, hr⟩ := hr
      exact ⟨by rw [List.map_cons, ih.1], List.forall_mem_cons.mpr ⟨hr, ih.2⟩⟩
  · rintro ⟨rfl, h⟩
    induction rows with
    | nil => exact .nil
    | cons r rows ih =>
      obtain ⟨hr, h⟩ := List.forall_mem_cons.mp h
      exact .cons ⟨rfl, hr⟩ (ih h)

section Rows

variable {xs : List Char} {formulas : List String} {rows : List Row}

/-- Each valuation of the letters has exactly one row. -/
theorem exists_filter_assignment (hx : xs.Nodup) (h : rowsOf xs formulas = .ok rows) {v : Valuation Char} (hv : v.keys = xs) :
    ∃ r ∈ rows, rows.filter (·.assignment = v) = [r] ∧ r.assignment = v ∧
      List.Forall₂ (fun f b => evaluateLetters f v = .ok b) formulas r.results := by
  obtain ⟨hrows, hvalues⟩ := rowsOf_eq_ok_iff.mp h
  have hcount : (rows.filter (·.assignment = v)).length = 1 := by
    rw [← List.countP_eq_length_filter, ← List.count_eq_one_of_mem (Valuation.nodup_valuations hx)
      (Valuation.mem_valuations hx |>.mpr hv),
      ← hrows, List.count, List.countP_map]
    exact List.countP_congr fun r _ => by simp
  obtain ⟨r, hr⟩ := List.length_eq_one_iff.mp hcount
  have hmem : r ∈ rows.filter (·.assignment = v) := by simp [hr]
  obtain ⟨hm, ha⟩ := List.mem_filter.mp hmem
  obtain rfl : r.assignment = v := by simpa using ha
  exact ⟨r, hm, hr, rfl, hvalues r hm⟩

/-- Each row is about the letters of the table. -/
theorem keys_assignment (hx : xs.Nodup) (h : rowsOf xs formulas = .ok rows) {r : Row} (hr : r ∈ rows) :
    r.assignment.keys = xs := by
  rw [← Valuation.mem_valuations hx, ← (rowsOf_eq_ok_iff.mp h).1]
  exact List.mem_map_of_mem hr

/-- There are two to the number of letters rows. -/
theorem length_rows (h : rowsOf xs formulas = .ok rows) : rows.length = 2 ^ xs.length := by
  rw [← Valuation.length_valuations, ← (rowsOf_eq_ok_iff.mp h).1, List.length_map]

end Rows

/-- A list of formulas has rows exactly when all formulas are well formed. -/
theorem exists_rowsOf_iff {formulas : List String} :
    (∃ rows, rowsOf (lettersOfAll formulas) formulas = .ok rows) ↔ ∀ f ∈ formulas, WellFormed f := by
  have hrow : ∀ v, (∃ r, Row.ofValuation formulas v = .ok r) ↔ ∀ f ∈ formulas, ∃ b, evaluateLetters f v = .ok b := by
    intro v
    simp only [ofValuation_eq_ok_iff, ← mapM_eq_ok_iff (f := (evaluateLetters · v)), ← exists_mapM_iff]
    exact ⟨fun ⟨r, _, h⟩ => ⟨r.results, h⟩, fun ⟨bs, h⟩ => ⟨⟨v, bs⟩, rfl, h⟩⟩
  rw [rowsOf, exists_mapM_iff]
  simp only [hrow, Valuation.mem_valuations (nodup_lettersOfAll formulas)]
  constructor
  · intro h f hf
    obtain ⟨b, hb⟩ := h (Valuation.assign (lettersOfAll formulas) fun _ => true) (Valuation.keys_assign _ _) f hf
    exact wellFormed_of_evaluateLetters (ofLetters_of_keys (Valuation.keys_assign (lettersOfAll formulas) _)) hb
  · intro h v hv f hf
    exact (h f hf).exists_value (ofLetters_of_keys hv) fun c hc => hv ▸ mem_lettersOfAll.mpr ⟨f, hf, hc⟩

/-! ## Tables -/

/-- The table of formulas with letters is made of the rows for these. -/
theorem ofFormulas_eq_map {formulas : List String} (hl : lettersOfAll formulas ≠ []) : TruthTable.ofFormulas formulas =
    (rowsOf (lettersOfAll formulas) formulas).map fun rows =>
      { letters := lettersOfAll formulas, formulas := formulas, headers := formulas, rows := rows } := by
  have hne : formulas ≠ [] := by
    rintro rfl
    exact hl rfl
  rw [TruthTable.ofFormulas, if_neg (by simpa using hne), if_neg (by simpa using hl)]
  rfl

/-- Formulas with letters have a table exactly if they have rows, and it is the table of these. -/
theorem truthTable_eq_ok_iff {formulas : List String} {t : TruthTable} (hl : lettersOfAll formulas ≠ []) :
    TruthTable.ofFormulas formulas = .ok t ↔ ∃ rows, rowsOf (lettersOfAll formulas) formulas = .ok rows ∧
      t = { letters := lettersOfAll formulas, formulas := formulas, headers := formulas, rows := rows } := by
  rw [ofFormulas_eq_map hl]
  cases rowsOf (lettersOfAll formulas) formulas <;> simp [Except.map, eq_comm]

/-- A table of formulas in LaTeX is that of their normal forms, headed by the texts given. -/
theorem ofLatex_of_ne_nil {strict : Bool} {sources : List String} (hne : sources ≠ []) : TruthTable.ofLatex strict sources =
    ((Latex.normalizeAll strict sources).mapError .scope).bind fun normal =>
      .ofExcept ((TruthTable.ofNormalized sources (normal.map (·.formula))).mapError .formula) := by
  rw [TruthTable.ofLatex, if_neg (by simpa using hne)]
  rfl

/-- Formulas that have native notations have the table of these, with the warnings on the way. -/
theorem ofLatex_of_normalize {strict : Bool} {sources : List String} {ns : List Latex.Normalized} (hne : sources ≠ [])
    (h : List.Forall₂ (fun s n => Latex.normalize strict s = .ok n) sources ns) : TruthTable.ofLatex strict sources =
      ⟨ns.flatMap fun n => n.diagnostics.map .degraded,
        (TruthTable.ofNormalized sources (ns.map (·.formula))).mapError .formula⟩ := by
  rw [ofLatex_of_ne_nil hne, Latex.normalizeAll, mapM_eq_ok_iff.mpr h]
  simp [Logged.mapError, Logged.bind, Logged.ofExcept]

section Restriction

variable {formulas : List String} {formula : String} {v : Valuation Char}

/-- A valuation of all letters gives one of the letters of each formula. -/
theorem keys_restrict_letters (hf : formula ∈ formulas) (hv : v.keys = lettersOfAll formulas) :
    (v.restrict (letters formula)).keys = letters formula := by
  rw [Valuation.keys_restrict, hv, lettersOfAll, List.filter_filter, letters, lettersIn]
  refine List.filter_congr fun c hc => ?_
  have hany : formula.toList.contains c → formulas.any fun f => f.toList.contains c := fun h =>
    List.any_eq_true.mpr ⟨formula, hf, h⟩
  rw [Bool.eq_iff_iff, Bool.and_eq_true, decide_eq_true_iff, List.mem_filter]
  exact ⟨fun h => h.1.2, fun h => ⟨⟨hc, h⟩, hany h⟩⟩

/-- The own table of a formula that has a value has one row for the letters of the formula, and that value in it. -/
theorem exists_filter_restrict (hf : formula ∈ formulas) (hl : letters formula ≠ []) (hv : v.keys = lettersOfAll formulas)
    {b : Bool} (hb : evaluateLetters formula v = .ok b) :
    ∃ t, TruthTable.ofFormulas [formula] = .ok t ∧
      t.rows.filter (·.assignment = v.restrict (letters formula)) = [⟨v.restrict (letters formula), [b]⟩] := by
  have hkeys := keys_restrict_letters hf hv
  rw [← lettersOfAll_singleton] at hkeys hl ⊢
  obtain ⟨w, hw⟩ : ∃ w, w = v.restrict (lettersOfAll [formula]) := ⟨_, rfl⟩
  rw [← hw] at hkeys ⊢
  have hletters := ofLetters_of_keys hv
  have hread := (evaluateLetters_eq_ok_iff_reads hletters).mp hb
  obtain ⟨rows, hrows⟩ : ∃ rows, rowsOf (lettersOfAll [formula]) [formula] = .ok rows :=
    exists_rowsOf_iff.mpr (by simpa [wellFormed_iff] using hread.2.imp fun t ht => ht.1)
  refine ⟨_, (truthTable_eq_ok_iff hl).mpr ⟨rows, hrows, rfl⟩, ?_⟩
  obtain ⟨r, -, hr, ha, hvalues⟩ := exists_filter_assignment (nodup_lettersOfAll [formula]) hrows hkeys
  have hcongr : evaluateLetters formula w = evaluateLetters formula v := by
    refine evaluateLetters_congr hletters (ofLetters_of_keys hkeys) fun c hc => ?_
    rw [hw, lettersOfAll_singleton, Valuation.lookup_restrict hc]
  obtain ⟨r₁, r₂⟩ := r
  obtain rfl : r₁ = w := ha
  obtain ⟨b', hb', rfl⟩ : ∃ b', evaluateLetters formula r₁ = .ok b' ∧ r₂ = [b'] := by
    simpa [List.forall₂_cons_left_iff] using hvalues
  rw [hcongr, hb] at hb'
  obtain rfl := Except.ok.inj hb'
  exact hr

/-- A formula without letters has its value under any valuation. -/
theorem evaluateLetters_of_letters_eq_nil (hl : letters formula = []) (hv : v.OfLetters) :
    evaluateLetters formula [] = evaluateLetters formula v :=
  evaluateLetters_congr hv (by simp [Valuation.OfLetters]) (by simp [hl])

end Restriction

/-- What the table of formulas with letters says, if there is one. Its letters are those of the formulas in alphabetical order,
each valuation of them has exactly one row, and what a row says about a formula is what the formula's own table says in the row
of the letters that the formula has. -/
theorem truthTable_of_formulas {formulas : List String} (hl : ∃ f ∈ formulas, letters f ≠ []) {t : TruthTable}
    (h : TruthTable.ofFormulas formulas = .ok t) :
    t.status = .ok ∧
    (t.letters.Pairwise (· < ·) ∧ ∀ c, c ∈ t.letters ↔ c.isUpper ∧ ∃ f ∈ formulas, c ∈ f.toList) ∧
    (t.rows.length = 2 ^ t.letters.length ∧
      ∀ r ∈ t.rows, (r.cells t.letters).length = t.letters.length + formulas.length) ∧
    ((∀ r ∈ t.rows, r.assignment.keys = t.letters) ∧
      ∀ v : Valuation Char, v.keys = t.letters → ∃ r, t.rows.filter (·.assignment = v) = [r]) ∧
    ∀ r ∈ t.rows, ∀ (j : Nat) (f : String), formulas[j]? = some f → ∃ b, r.results[j]? = some b ∧
      (letters f ≠ [] → ∃ u, TruthTable.ofFormulas [f] = .ok u ∧
        u.rows.filter (·.assignment = r.assignment.restrict (letters f)) = [⟨r.assignment.restrict (letters f), [b]⟩]) ∧
      (letters f = [] → evaluateLetters f [] = .ok b) := by
  obtain ⟨rows, hrows, rfl⟩ := (truthTable_eq_ok_iff (lettersOfAll_ne_nil hl)).mp h
  have hx := nodup_lettersOfAll formulas
  have hvalues := (rowsOf_eq_ok_iff.mp hrows).2
  refine ⟨rfl, ⟨pairwise_lettersOfAll formulas, fun c => ?_⟩, ⟨length_rows hrows, fun r hr => ?_⟩,
    ⟨fun r => keys_assignment hx hrows, fun v hv => ?_⟩, fun r hr j f hj => ?_⟩
  · rw [mem_lettersOfAll]
    simp only [mem_letters, ← exists_and_left]
    exact ⟨fun ⟨f, hf, hu, hc⟩ => ⟨f, hu, hf, hc⟩, fun ⟨f, hu, hf, hc⟩ => ⟨f, hf, hu, hc⟩⟩
  · rw [Row.cells, List.length_append, List.length_map, (hvalues r hr).length_eq]
  · obtain ⟨r, -, hr, -⟩ := exists_filter_assignment hx hrows hv
    exact ⟨r, hr⟩
  · have hkeys := keys_assignment hx hrows hr
    have hf := List.mem_of_getElem? hj
    obtain ⟨b, hb, heval⟩ := exists_getElem?_of_forall₂ (hvalues r hr) hj
    refine ⟨b, hb, fun hletters => exists_filter_restrict hf hletters hkeys heval, fun hnil => ?_⟩
    rw [evaluateLetters_of_letters_eq_nil hnil (ofLetters_of_keys hkeys), heval]

/-- The row of `A & B` and `!B` for a true `A` and a false `B`, and the row for `B` in the table of `!B`. -/
theorem truthTable_of_and_not :
    (∃ t, TruthTable.ofFormulas ["A & B", "!B"] = .ok t ∧ t.rows.length = 4 ∧
      ∃ r, t.rows.filter (·.assignment = [('A', true), ('B', false)]) = [r]) ∧
    ∃ u, TruthTable.ofFormulas ["!B"] = .ok u ∧ u.rows.filter (·.assignment = [('B', false)]) = [⟨[('B', false)], [true]⟩] := by
  have htable : TruthTable.ofFormulas ["A & B", "!B"] = .ok
      { letters := ['A', 'B'], formulas := ["A & B", "!B"], headers := ["A & B", "!B"],
        rows := [⟨[('A', true), ('B', true)], [true, false]⟩, ⟨[('A', true), ('B', false)], [false, true]⟩,
          ⟨[('A', false), ('B', true)], [false, false]⟩, ⟨[('A', false), ('B', false)], [false, true]⟩] } := by decide
  obtain ⟨-, -, ⟨hlength, -⟩, ⟨-, hrow⟩, hown⟩ := truthTable_of_formulas ⟨"A & B", by simp, by decide⟩ htable
  obtain ⟨b, hb, hown, -⟩ := hown ⟨[('A', true), ('B', false)], [false, true]⟩ (by simp) 1 "!B" rfl
  obtain rfl : true = b := by simpa using hb
  exact ⟨⟨_, htable, hlength, hrow _ rfl⟩, hown (by decide)⟩

end Propositional
