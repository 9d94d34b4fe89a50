import Propositional.Proofs.Latex.Acceptance
import Propositional.Proofs.Table.Rows
import Propositional.Verdict

/-!
# Strictness

With the demand for strictness an arrow without a left operand is an error, without it the arrow is put on record. The two runs
over a formula go in step up to the first such arrow, so the error is the first entry of the record, and where nothing is put on
record the runs are the same (`eliminateFrom_strict`). A list of formulas is normalized as a whole before anything is evaluated,
so the same holds for tables and verdicts, whatever becomes of the formulas later (`strict_of_lenient`).
-/

namespace Propositional

open Latex

/-! ## One formula -/

namespace Latex

/-- Without strictness every text is normalized. -/
theorem exists_normalize (s : String) : ∃ n, normalize false s = .ok n := by
  obtain ⟨e, he⟩ := exists_eliminateFrom (lexemes s) []
  exact ⟨_, normalize_eq_ok_iff.mpr ⟨e, he, rfl⟩⟩

/-- A strict run over a formula looks at what the other one puts on record. -/
theorem normalize_strict {s : String} {n : Normalized} (h : normalize false s = .ok n) :
    normalize true s = heed n.diagnostics n := by
  obtain ⟨e, he, rfl⟩ := normalize_eq_ok_iff.mp h
  rw [normalize, eliminate, eliminateFrom_strict he]
  cases hd : e.degraded with
  | nil => simp [heed, Except.map, hd]
  | cons c cs => rfl

/-! ## Many formulas -/

/-- Without strictness all texts are normalized. -/
theorem exists_forall₂_normalize (ss : List String) :
    ∃ ns, List.Forall₂ (fun s n => normalize false s = .ok n) ss ns := by
  obtain ⟨ns, h⟩ := exists_mapM_iff.mpr fun s (_ : s ∈ ss) => exists_normalize s
  exact ⟨ns, mapM_eq_ok_iff.mp h⟩

/-- Results that are heeded one after the other are heeded together. -/
theorem heed_bind {α β γ : Type} (cs ds : List String) (a : α) (b : β) (f : α → β → γ) :
    (heed cs a).bind (fun a => (heed ds b).map (f a)) = heed (cs ++ ds) (f a b) := by
  cases cs with
  | nil => cases ds <;> rfl
  | cons c cs => rfl

/-- A strict run over a list of formulas looks at all the records, one behind the other. -/
theorem mapM_strict {ss : List String} {ns : List Normalized}
    (h : List.Forall₂ (fun s n => normalize false s = .ok n) ss ns) :
    ss.mapM (normalize true) = heed (ns.map (·.diagnostics)).flatten ns := by
  induction h with
  | nil => rfl
  | @cons s n ss ns hn _ ih =>
    rw [List.mapM_cons, normalize_strict hn, ih]
    exact heed_bind n.diagnostics _ n ns List.cons

end Latex

/-- Without strictness every derivation has steps. -/
theorem Derivation.exists_stepsFrom (ss : List (List Char)) : ∀ i, ∃ ts, stepsFrom false i ss = .ok ts := by
  induction ss with
  | nil => exact fun i => ⟨[], rfl⟩
  | cons s ss ih =>
    intro i
    obtain ⟨n, hn⟩ := exists_normalize (String.ofList s)
    obtain ⟨ts, hts⟩ := ih (i + 1)
    exact ⟨⟨i, n.formula, String.ofList (Text.collapse s), n.diagnostics⟩ :: ts, by simp only [stepsFrom, hn, hts]; rfl⟩

/-- A strict run over the steps of a derivation looks at all the records, one behind the other. -/
theorem Derivation.stepsFrom_strict {ss : List (List Char)} :
    ∀ {i : Nat} {ts : List Step}, stepsFrom false i ss = .ok ts →
      stepsFrom true i ss = heed (ts.map (·.diagnostics)).flatten ts := by
  induction ss with
  | nil =>
    intro i ts h
    obtain rfl := Except.ok.inj h
    rfl
  | cons s ss ih =>
    intro i ts h
    obtain ⟨n, hn⟩ := exists_normalize (String.ofList s)
    obtain ⟨us, hus⟩ := exists_stepsFrom ss (i + 1)
    obtain rfl : ⟨i, n.formula, String.ofList (Text.collapse s), n.diagnostics⟩ :: us = ts := by
      simp only [stepsFrom, hn, hus] at h
      exact Except.ok.inj h
    rw [stepsFrom, normalize_strict hn, ih hus]
    exact heed_bind n.diagnostics _ n us fun n us => ⟨i, n.formula, String.ofList (Text.collapse s), n.diagnostics⟩ :: us

/-! ## Records as warnings -/

section Recorded

variable {α : Type} (record : α → List String)

/-- Results with a warning for each entry of their records. -/
def recorded (r : Except UnresolvedScope (List α)) : Logged UnresolvedScope (List α) :=
  match r with
  | .ok as => ⟨as.flatMap fun a => (record a).map .degraded, .ok as⟩
  | .error e => ⟨[], .error e⟩

/-- Results that are there come with a warning for each entry of their records. -/
theorem recorded_ok (as : List α) : recorded record (.ok as) = ⟨(as.map record).flatten.map .degraded, .ok as⟩ := by
  rw [recorded, List.map_flatten, List.map_map]
  rfl

/-- Records that are heeded leave no warnings: there is an error for the first entry, or there is no entry. -/
theorem recorded_heed (as : List α) :
    recorded record (heed (as.map record).flatten as) = ⟨[], heed (as.map record).flatten as⟩ := by
  cases hr : (as.map record).flatten with
  | nil =>
    rw [heed, recorded_ok, hr]
    rfl
  | cons c cs => rfl

end Recorded

/-- Formulas are normalized with a warning for each entry of their records. -/
theorem Latex.normalizeAll_eq (strict : Bool) (ss : List String) :
    normalizeAll strict ss = recorded (·.diagnostics) (ss.mapM (normalize strict)) := by
  unfold normalizeAll
  cases ss.mapM (normalize strict) <;> rfl

/-- Steps come with a warning for each entry of their records. -/
theorem Derivation.stepsLogged_eq (strict : Bool) (s : String) :
    stepsLogged strict s = recorded (·.diagnostics) (steps strict s) := by
  unfold stepsLogged
  cases steps strict s <;> rfl

/-! ## Tables and verdicts -/

/-- How a strict run goes where the other one puts the given contexts on record, formula by formula. It fails for an arrow
without a left operand exactly when some formula has an entry, for the first entry of the first such formula; and it does
all that the other run does if there is no entry. -/
structure HeedsFirst {α : Type} (records : List (List String)) (strict lenient : Logged LogicError α) : Prop where
  scope_iff : (∃ e, strict.result = .error (.scope e)) ↔ ∃ record ∈ records, record ≠ []
  first : ∀ (before after : List (List String)) (c : String) (cs : List String), (∀ record ∈ before, record = []) →
    records = before ++ (c :: cs) :: after → strict = ⟨[], .error (.scope ⟨c⟩)⟩
  otherwise : (∀ record ∈ records, record = []) → strict = lenient

/-- Where nothing is put on record, runs that are the same and fail for no arrow go as they should. -/
theorem heedsFirst_of_empty {α : Type} {records : List (List String)} (hempty : ∀ record ∈ records, record = [])
    {x : Logged LogicError α} (hx : ∀ e, x.result ≠ .error (.scope e)) : HeedsFirst records x x := by
  refine ⟨⟨fun ⟨e, he⟩ => absurd he (hx e), fun ⟨record, hm, hne⟩ => absurd (hempty record hm) hne⟩, ?_, fun _ => rfl⟩
  rintro before after c cs - rfl
  cases hempty (c :: cs) (by simp)

/-- A run that normalizes first and fails for no arrow later on. The strict run ends before the rest starts if there is an entry,
so only what is on record matters here. -/
theorem heedsFirst_bind {α β : Type} (records : List (List String)) (a : α) {k : α → Logged LogicError β}
    (hk : ∀ e, (k a).result ≠ .error (.scope e)) :
    HeedsFirst records ((⟨[], (heed records.flatten a).mapError .scope⟩ : Logged LogicError α).bind k)
      ((⟨records.flatten.map .degraded, .ok a⟩ : Logged LogicError α).bind k) := by
  cases hr : records.flatten with
  | nil =>
    exact heedsFirst_of_empty (List.flatten_eq_nil_iff.mp hr) hk
  | cons d ds =>
    have hentry : ∃ record ∈ records, record ≠ [] := by
      by_contra hno
      rw [List.flatten_eq_nil_iff.mpr (by simpa using hno)] at hr
      cases hr
    refine ⟨⟨fun _ => hentry, fun _ => ⟨⟨d⟩, rfl⟩⟩, ?_, fun hempty => ?_⟩
    · rintro before after c cs hbefore rfl
      rw [List.flatten_append, List.flatten_eq_nil_iff.mpr hbefore] at hr
      obtain ⟨rfl, -⟩ := List.cons.inj hr
      rfl
    · rw [List.flatten_eq_nil_iff.mpr hempty] at hr
      cases hr

section

variable {ss : List String} {ns : List Normalized} (h : List.Forall₂ (fun s n => normalize false s = .ok n) ss ns)

include h

/-- With strictness, the first entry that the other run makes is the error, and there are no warnings. -/
theorem Latex.normalizeAll_strict : normalizeAll true ss = ⟨[], heed (ns.map (·.diagnostics)).flatten ns⟩ := by
  rw [normalizeAll_eq, mapM_strict h, recorded_heed]

/-- Without strictness, each entry is a warning. -/
theorem Latex.normalizeAll_lenient : normalizeAll false ss = ⟨(ns.map (·.diagnostics)).flatten.map .degraded, .ok ns⟩ := by
  rw [normalizeAll_eq, mapM_eq_ok_iff.mpr h, recorded_ok]

/-- A strict table heeds the first entry on record. -/
theorem TruthTable.heedsFirst_ofLatex : HeedsFirst (ns.map (·.diagnostics)) (ofLatex true ss) (ofLatex false ss) := by
  by_cases hne : ss = []
  · subst hne
    cases h
    have hresult : (ofLatex true []).result = .ok { status := .noExpressions } := rfl
    refine heedsFirst_of_empty (by simp) fun e => ?_
    rw [hresult]
    nofun
  · rw [ofLatex_of_ne_nil hne, ofLatex_of_ne_nil hne, normalizeAll_strict h, normalizeAll_lenient h]
    refine heedsFirst_bind (ns.map (·.diagnostics)) ns fun e => ?_
    show (ofNormalized ss (ns.map (·.formula))).mapError LogicError.formula ≠ _
    cases ofNormalized ss (ns.map (·.formula)) <;> nofun

end

/-- With strictness, the first entry that the other run makes is the error of the derivation. -/
theorem Derivation.stepsLogged_strict {s : String} {ts : List Step} (h : steps false s = .ok ts) :
    stepsLogged true s = ⟨[], heed (ts.map (·.diagnostics)).flatten ts⟩ := by
  rw [stepsLogged_eq, steps, stepsFrom_strict h, recorded_heed]

/-- Without strictness, each entry is a warning on the derivation. -/
theorem Derivation.stepsLogged_lenient {s : String} {ts : List Step} (h : steps false s = .ok ts) :
    stepsLogged false s = ⟨(ts.map (·.diagnostics)).flatten.map .degraded, .ok ts⟩ := by
  rw [stepsLogged_eq, h, recorded_ok]

/-- A strict verdict heeds the first entry on record. -/
theorem Verdict.heedsFirst_ofDerivation {s : String} {ts : List Step} (h : Derivation.steps false s = .ok ts) :
    HeedsFirst (ts.map (·.diagnostics)) (ofDerivation true s) (ofDerivation false s) := by
  have hsteps : ∀ strict, ofDerivation strict s = ((Derivation.stepsLogged strict s).mapError .scope).bind fun steps =>
      .ofExcept ((ofSteps (steps.map (·.formula))).mapError .formula) := fun _ => rfl
  rw [hsteps, hsteps, Derivation.stepsLogged_strict h, Derivation.stepsLogged_lenient h]
  refine heedsFirst_bind (ts.map (·.diagnostics)) ts fun e => ?_
  show (ofSteps (ts.map (·.formula))).mapError LogicError.formula ≠ _
  cases ofSteps (ts.map (·.formula)) <;> nofun

/-- The demand for strictness makes no difference but for its error. A formula is refused exactly when something is put on record
without the demand, and the error is the first entry; otherwise the native notation is the same both times. Tables of formulas
and verdicts on derivations are refused for the first entry of the first formula or step that has one, and otherwise there is no
difference at all, in results, errors and warnings. -/
theorem strict_of_lenient :
    (∀ s, ∃ n, normalize false s = .ok n ∧ ((∃ e, normalize true s = .error e) ↔ n.diagnostics ≠ []) ∧
      (∀ c cs, n.diagnostics = c :: cs → normalize true s = .error ⟨c⟩) ∧
      (n.diagnostics = [] → normalize true s = .ok n)) ∧
    (∀ sources, ∃ ns, List.Forall₂ (fun s n => normalize false s = .ok n) sources ns ∧
      HeedsFirst (ns.map (·.diagnostics)) (TruthTable.ofLatex true sources) (TruthTable.ofLatex false sources)) ∧
    ∀ s, ∃ steps, Derivation.steps false s = .ok steps ∧
      HeedsFirst (steps.map (·.diagnostics)) (Verdict.ofDerivation true s) (Verdict.ofDerivation false s) := by
  refine ⟨fun s => ?_, fun sources => ?_, fun s => ?_⟩
  · obtain ⟨n, hn⟩ := exists_normalize s
    refine ⟨n, hn, ?_⟩
    rw [normalize_strict hn]
    cases n.diagnostics <;> simp [heed]
  · obtain ⟨ns, h⟩ := exists_forall₂_normalize sources
    exact ⟨ns, h, TruthTable.heedsFirst_ofLatex h⟩
  · obtain ⟨ts, h⟩ := Derivation.exists_stepsFrom (Derivation.segments s.toList) 1
    exact ⟨ts, h, Verdict.heedsFirst_ofDerivation h⟩

/-- Of `A -> B`, `A & -> B` and `-> C` the second is the first with an arrow that has no operand, and the table of `A -> B` is the
same both times. -/
theorem strict_of_second_formula :
    (TruthTable.ofLatex true ["A -> B", "A & -> B", "-> C"]) = ⟨[], .error (.scope ⟨"A & -> B"⟩)⟩ ∧
      TruthTable.ofLatex true ["A -> B"] = TruthTable.ofLatex false ["A -> B"] ∧
      Verdict.ofDerivation true "A = -> B" = ⟨[], .error (.scope ⟨"-> B"⟩)⟩ := by
  obtain ⟨-, htable, hverdict⟩ := strict_of_lenient
  have hand : normalize false "A & -> B" = .ok ⟨"A & | B", ["A & -> B"]⟩ := by decide
  have harrow : normalize false "A -> B" = .ok ⟨"!A | B", []⟩ := by decide
  have hstart : normalize false "-> C" = .ok ⟨"| C", ["-> C"]⟩ := by decide
  have hsteps : Derivation.steps false "A = -> B" = .ok [⟨1, "A", "A", []⟩, ⟨2, "| B", "-> B", ["-> B"]⟩] := by decide
  refine ⟨?_, ?_, ?_⟩
  · obtain ⟨ns, hns, h⟩ := htable ["A -> B", "A & -> B", "-> C"]
    simp only [List.forall₂_cons_left_iff, List.forall₂_nil_left_iff, harrow, hand, hstart, Except.ok.injEq] at hns
    obtain ⟨_, _, rfl, ⟨_, _, rfl, ⟨_, _, rfl, rfl, rfl⟩, rfl⟩, rfl⟩ := hns
    exact h.first [[]] [["-> C"]] "A & -> B" [] (by simp) rfl
  · obtain ⟨ns, hns, h⟩ := htable ["A -> B"]
    simp only [List.forall₂_cons_left_iff, List.forall₂_nil_left_iff, harrow, Except.ok.injEq] at hns
    obtain ⟨_, _, rfl, rfl, rfl⟩ := hns
    exact h.otherwise (by simp)
  · obtain ⟨steps, hs, h⟩ := hverdict "A = -> B"
    obtain rfl := Except.ok.inj (hs.symm.trans hsteps)
    exact h.first [[]] [] "-> B" [] (by simp) rfl

end Propositional
