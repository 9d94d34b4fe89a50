import Propositional.Proofs.Command.Finding
import Propositional.Proofs.Report.ConsoleGlyphs

/-!
# What a run leaves

Everything is found out before the first print, so a run that fails by then leaves its message and nothing else. What it shows
is printed in several pieces on the console, and the terminal decides how far it comes: a print that fails leaves what was tried
before it, with the message of the fault behind. So a run does all or nothing exactly if no print of its result fails on the
console (`outcome_of_run`). A glyph that the console takes for a tag can make one fail, since glyphs are not escaped
(`outcome_of_run_cut_short`).
-/

namespace Propositional

section State

variable {σ α β : Type}

/-- One step after another starts from the state that the first one leaves. -/
theorem stateM_bind_apply (x : StateM σ α) (f : α → StateM σ β) (s : σ) : (x >>= f) s = f (x s).1 (x s).2 := rfl

/-- A result alone leaves the state as it is. -/
theorem stateM_pure_apply (a : α) (s : σ) : (pure a : StateM σ α) s = (a, s) := rfl

end State

namespace Report

variable {σ : Type}

/-- Prints are tried in order, all of them or up to one that fails. -/
theorem Terminal.printAll_cases (t : Terminal (StateM σ)) (standIns : Text.StandIns) (ps : List Print) (s : σ) :
    (t.printAll standIns ps s).1 = (ps, none) ∨
      ∃ n fault, n < ps.length ∧ (t.printAll standIns ps s).1 = (ps.take (n + 1), some fault) := by
  induction ps generalizing s with
  | nil => exact .inl rfl
  | cons p ps ih =>
    rw [printAll, stateM_bind_apply]
    cases (t.print standIns p s).1 with
    | some fault => exact .inr ⟨0, fault, Nat.succ_pos _, rfl⟩
    | none =>
      dsimp only
      rw [stateM_bind_apply, stateM_pure_apply]
      rcases ih (t.print standIns p s).2 with h | ⟨n, fault, hn, h⟩
      · exact .inl (by rw [h])
      · exact .inr ⟨n + 1, fault, Nat.succ_lt_succ hn, by rw [h, List.take_succ_cons]⟩

/-- Nothing fails on a terminal. -/
structure Terminal.IsFaultless (t : Terminal (StateM σ)) : Prop where
  print : ∀ standIns p s, (t.print standIns p s).1 = none
  write : ∀ standIns text s, (t.write standIns text s).1 = none

/-- Where nothing fails, all prints are made. -/
theorem Terminal.IsFaultless.printAll {t : Terminal (StateM σ)} (ht : t.IsFaultless) (standIns : Text.StandIns) (ps : List Print)
    (s : σ) : (t.printAll standIns ps s).1 = (ps, none) := by
  induction ps generalizing s with
  | nil => rfl
  | cons p ps ih =>
    rw [Terminal.printAll, stateM_bind_apply, ht.print]
    dsimp only
    rw [stateM_bind_apply, ih]
    rfl

end Report

namespace Command

open Report

variable {σ : Type} {w : Surroundings} {args : List String} {i : Invocation} {c : Config}

/-! ## On a terminal -/

/-- What is left of an outcome if a print of it fails: a part of its text, or its prints up to one of them. -/
inductive IsCut (whole : Outcome) : Outcome → Prop where
  | text (part : String) (h : whole.stdout ≠ "") : IsCut whole { whole with stdout := part, console := [] }
  | console {n : Nat} (h : n < whole.console.length) : IsCut whole { whole with console := whole.console.take (n + 1) }

/-- An outcome is shown whole, or a print of it fails and something is left. -/
theorem present_cases (t : Terminal (StateM σ)) (o : Outcome) (s : σ) :
    (present t o s).1 = (o, none) ∨ ∃ left fault, IsCut o left ∧ (present t o s).1 = (left, some fault) := by
  rw [present, stateM_bind_apply]
  cases hwrite : (t.writeText o.standIns o.stdout s).1 with
  | some p =>
    obtain ⟨part, fault⟩ := p
    refine .inr ⟨_, fault, .text part fun hempty => ?_, rfl⟩
    rw [Terminal.writeText, if_pos (by rw [hempty]; rfl)] at hwrite
    cases hwrite
  | none =>
    dsimp only
    rw [stateM_bind_apply, stateM_pure_apply]
    rcases t.printAll_cases o.standIns o.console (t.writeText o.standIns o.stdout s).2 with h | ⟨n, fault, hn, h⟩
    · exact .inl (by rw [h])
    · exact .inr ⟨_, fault, .console hn, by rw [h]⟩

/-- Where nothing fails, an outcome is shown whole. -/
theorem present_of_faultless {t : Terminal (StateM σ)} (ht : t.IsFaultless) (o : Outcome) (s : σ) :
    (present t o s).1 = (o, none) := by
  have hwrite : (t.writeText o.standIns o.stdout s).1 = none := by
    unfold Terminal.writeText
    split_ifs
    · rfl
    · exact ht.write _ _ _
  rw [present, stateM_bind_apply, hwrite]
  dsimp only
  rw [stateM_bind_apply, ht.printAll]
  rfl

/-- A message is reported behind what is left before it, or its print fails. -/
theorem complain_cases (t : Terminal (StateM σ)) (left : Outcome) (message : String) (s : σ) :
    (t.print left.standIns (messagePrint message) s).1 = none ∧ (complain t left message s).1 = .ok (left.failing message) ∨
      (t.print left.standIns (messagePrint message) s).1 ≠ none ∧ (complain t left message s).1 = .error .print := by
  rw [complain, stateM_bind_apply]
  cases (t.print left.standIns (messagePrint message) s).1 with
  | none => exact .inl ⟨rfl, rfl⟩
  | some fault => exact .inr ⟨nofun, rfl⟩

/-- How a run ends that shows an outcome on a terminal: it is shown whole; or a print fails, and the message of the
fault is printed behind what is left; or there is no outcome, since the fault has no message or the print of the message
fails as well. -/
inductive Ends (t : Terminal (StateM σ)) (s : σ) (whole : Outcome) : Except Abort Outcome → Prop where
  | whole (h : (present t whole s).1.2 = none) : Ends t s whole (.ok whole)
  | cut {left : Outcome} {message : String} (h : (present t whole s).1.2 = some (.reported message)) (hleft : IsCut whole left) :
    Ends t s whole (.ok (left.failing message))
  | lost (h : (present t whole s).1.2 ≠ none) : Ends t s whole (.error .print)

/-- Where it can be shown whole, it is. -/
theorem Ends.eq_of_shown {t : Terminal (StateM σ)} {s : σ} {whole : Outcome} {r : Except Abort Outcome} (h : Ends t s whole r)
    (hshown : (present t whole s).1.2 = none) : r = .ok whole := by
  cases h with
  | whole => rfl
  | cut hfault => cases hshown.symm.trans hfault
  | lost hfault => exact absurd hshown hfault

/-- The exit code is that of the outcome if it is shown whole, and else 1. -/
theorem Ends.exit_eq {t : Terminal (StateM σ)} {s : σ} {whole o : Outcome} (h : Ends t s whole (.ok o)) :
    o.exit = if (present t whole s).1.2 = none then whole.exit else 1 := by
  cases h with
  | whole hshown => rw [if_pos hshown]
  | cut hfault =>
    rw [if_neg (by simp [hfault])]
    rfl

/-- Where two outcomes have one exit code, so have the runs that show them exactly if the code is 1, or both outcomes are shown
whole, or neither is. -/
theorem Ends.exit_eq_exit_iff {t : Terminal (StateM σ)} {s : σ} {whole whole' o o' : Outcome} (h : Ends t s whole (.ok o))
    (h' : Ends t s whole' (.ok o')) (hexit : whole.exit = whole'.exit) :
    o.exit = o'.exit ↔ whole.exit = 1 ∨ ((present t whole s).1.2 = none ↔ (present t whole' s).1.2 = none) := by
  rw [h.exit_eq, h'.exit_eq, ← hexit]
  split_ifs with hshown hshown' hshown'
  · exact iff_of_true rfl (.inr (iff_of_true hshown hshown'))
  · simp [hshown, hshown']
  · simp [hshown, hshown', eq_comm]
  · exact iff_of_true rfl (.inr (iff_of_false hshown hshown'))

/-- A run that has something to show ends in one of these ways. -/
theorem ends_finish (t : Terminal (StateM σ)) (whole : Outcome) (s : σ) : Ends t s whole (finish t (.ok whole) s).1 := by
  rw [finish, stateM_bind_apply]
  rcases present_cases t whole s with h | ⟨left, fault, hleft, h⟩
  · rw [h]
    exact .whole (by rw [h])
  · rw [h]
    cases fault with
    | unexpected => exact .lost (by rw [h]; nofun)
    | reported message =>
      rcases complain_cases t left message (present t whole s).2 with ⟨-, hcomplain⟩ | ⟨-, hcomplain⟩
      · dsimp only
        rw [hcomplain]
        exact .cut (by rw [h]) hleft
      · dsimp only
        rw [hcomplain]
        exact .lost (by rw [h]; nofun)

/-- A run on a terminal warns of what its task does, and ends as its terminal lets it. -/
theorem runOn_eq (hparse : parse args = .ok i) (t : Terminal (StateM σ)) (s : σ) : runOn t w args s =
    (⟨(runTask w i).warnings, (finish t (runTask w i).result s).1⟩, (finish t (runTask w i).result s).2) := by
  rw [runOn, hparse]
  rfl

/-- The run where every print succeeds is that of the task. -/
theorem run_eq_conclude (hparse : parse args = .ok i) : run w args = conclude (runTask w i) := by
  rw [run, hparse]

/-- On a terminal where nothing fails, a run leaves what `run` says. -/
theorem runOn_of_faultless {t : Terminal (StateM σ)} (ht : t.IsFaultless) (w : Surroundings) (args : List String) (s : σ) :
    (runOn t w args s).1 = (run w args).mapError .crash := by
  cases hparse : parse args with
  | error stop =>
    rw [runOn, run, hparse]
    rfl
  | ok i =>
    rw [runOn_eq hparse, run_eq_conclude hparse, conclude]
    cases (runTask w i).result with
    | error e =>
      cases e with
      | crash k => rfl
      | failure f =>
        rcases complain_cases t { exit := 1 } f.message s with ⟨-, h⟩ | ⟨hprint, -⟩
        · rw [finish, h]
          rfl
        · exact absurd (ht.print _ _ _) hprint
    | ok o =>
      rw [(ends_finish t o s).eq_of_shown (by rw [present_of_faultless ht])]
      rfl

/-! ## All or nothing -/

/-- An outcome that is the message of a failure: the message is the only print, and there is nothing else. -/
structure IsMessage (message : String) (o : Outcome) : Prop where
  exit : o.exit = 1
  stdout : o.stdout = ""
  console : o.console = [.text ("[bold red]❌ " ++ escaped message ++ "[/]")]

/-- A failure before anything is shown leaves its message. -/
theorem isMessage_failed (f : Failure) : IsMessage f.message (failed f) := ⟨rfl, rfl, rfl⟩

/-- A failure before anything is shown is reported if its message can be printed, and leaves nothing else. -/
theorem reported_of_failure (t : Terminal (StateM σ)) (s : σ) (f : Failure) :
    ((t.print [] (messagePrint f.message) s).1 = none → ∃ o, (finish t (.error (.failure f)) s).1 = .ok o) ∧
      ∀ o, (finish t (.error (.failure f)) s).1 = .ok o → IsMessage f.message o := by
  rw [finish]
  rcases complain_cases t { exit := 1 } f.message s with ⟨-, h⟩ | ⟨hprint, h⟩
  · rw [h]
    refine ⟨fun _ => ⟨_, rfl⟩, fun o ho => ?_⟩
    rw [← Except.ok.inj ho]
    exact ⟨rfl, rfl, rfl⟩
  · rw [h]
    exact ⟨fun hnone => absurd hnone hprint, nofun⟩

/-- An outcome that shows the result of a task under a configuration: the whole table or verdict and nothing else, on the channel
that the style and the form ask for. The exit code is 1 for steps that are not all equal, else 0. -/
inductive ShowsResult (w : Surroundings) (c : Config) : Task → Outcome → Prop where
  | table {formulas : List String} {latex : Bool} {t : TruthTable} {o : Outcome}
    (hfind : (findTable c formulas latex).result = .ok t) (hexit : o.exit = 0)
    (houtput : (o.stdout, o.console) = tableOutput c.style (c.shownGlyphs formulas) t)
    (hstandIns : o.standIns = c.standIns formulas) : ShowsResult w c (.table formulas latex) o
  | verdict {derivation file : Option String} {json : Bool} {text : String} {v : Verdict} {o : Outcome}
    (hfind : (findVerdict w c derivation file).result = .ok (text, v)) (hexit : o.exit = if v.allEqual then 0 else 1)
    (houtput : (o.stdout, o.console) = verdictOutput json c.style (c.shownGlyphs [text]) v)
    (hstandIns : o.standIns = if json then [] else c.standIns [text]) : ShowsResult w c (.verify derivation file json) o

/-- All or nothing: an outcome is a message and nothing else, or it shows the whole result of a task. -/
def AllOrNothing (w : Surroundings) (c : Config) (task : Task) (o : Outcome) : Prop :=
  (∃ message, IsMessage message o) ∨ ShowsResult w c task o

/-- A verdict on steps that are not all equal has rows to show. -/
theorem status_of_not_allEqual {steps : List String} {v : Verdict} (h : Verdict.ofSteps steps = .ok v)
    (hequal : v.allEqual = false) : v.status = .ok := by
  unfold Verdict.ofSteps at h
  split_ifs at h
  · rw [← Except.ok.inj h] at hequal
    cases hequal
  · rw [← Except.ok.inj h] at hequal
    cases hequal
  · cases hrows : rowsOf (lettersOfAll steps) steps with
    | error e =>
      rw [hrows] at h
      cases h
    | ok rows =>
      rw [hrows] at h
      rw [← Except.ok.inj h]
      rfl

/-- A verdict that is found is one on steps. -/
theorem exists_ofSteps_of_findVerdict {derivation file : Option String} {text : String} {v : Verdict}
    (h : (findVerdict w c derivation file).result = .ok (text, v)) : ∃ steps, Verdict.ofSteps steps = .ok v := by
  rw [result_findVerdict, bind_eq_ok_iff] at h
  obtain ⟨_, -, h⟩ := h
  obtain ⟨steps, -, h⟩ := mapError_bind_eq_ok_iff.mp h
  obtain ⟨_, -, h⟩ := bind_eq_ok_iff.mp h
  cases hv : Verdict.ofSteps (steps.map (·.formula)) with
  | error e =>
    rw [hv] at h
    cases h
  | ok v' =>
    rw [hv] at h
    obtain ⟨-, rfl⟩ := Prod.mk.inj (Except.ok.inj h)
    exact ⟨_, hv⟩

/-- The line that sums up steps which are not all equal is not the text of a message. -/
theorem summary_ne_message {v : Verdict} (hequal : v.allEqual = false) (message : String) :
    Print.text (coloured "bold red" (String.ofList (summary v))) ≠ messagePrint message := by
  intro h
  have hitems : coloured "bold red" (String.ofList (summary v)) = coloured "bold red" ("❌ " ++ escaped message) :=
    Item.text.inj (Option.some.inj (Print.mk.inj h).1)
  have hmarks := congrArg (fun s : String => s.toList[10]?) hitems
  simp only [toList_coloured] at hmarks
  rw [summary, if_neg (by simp [hequal])] at hmarks
  simp [cross] at hmarks

/-- A result with exit code 1 does not end with a message on the console. -/
theorem ShowsResult.getLast?_ne {task : Task} {o : Outcome} (h : ShowsResult w c task o) (hexit : o.exit = 1) (message : String) :
    o.console.getLast? ≠ some (messagePrint message) := by
  cases h with
  | table hfind hzero =>
    rw [hzero] at hexit
    cases hexit
  | @verdict derivation file json text v _ hfind hcode houtput =>
    have hequal : v.allEqual = false := by
      by_contra hequal
      rw [hexit, if_pos (by simpa using hequal)] at hcode
      cases hcode
    obtain ⟨steps, hsteps⟩ := exists_ofSteps_of_findVerdict hfind
    have hstatus := status_of_not_allEqual hsteps hequal
    have hconsole : o.console = (verdictOutput json c.style (c.shownGlyphs [text]) v).2 := congrArg Prod.snd houtput
    rcases verdictOutput_console json c.style (c.shownGlyphs [text]) v with hnone | hreport
    · rw [hconsole, hnone]
      nofun
    · rw [hconsole, hreport, consoleVerdict, if_pos hstatus, hequal, List.getLast?_append]
      simpa using summary_ne_message hequal message

/-- No result looks like a message, even where the exit code is the same. -/
theorem ShowsResult.not_isMessage {task : Task} {o : Outcome} (h : ShowsResult w c task o) (message : String) :
    ¬IsMessage message o := by
  intro hmessage
  refine h.getLast?_ne hmessage.exit message ?_
  rw [hmessage.console]
  rfl

/-- A result is shown on one channel. -/
theorem ShowsResult.console_eq_nil {task : Task} {o : Outcome} (h : ShowsResult w c task o) (hstdout : o.stdout ≠ "") :
    o.console = [] := by
  cases h with
  | @table formulas _ t _ _ _ houtput =>
    obtain ⟨htext, hconsole⟩ := Prod.mk.inj houtput
    rcases tableOutput_oneChannel c.style (c.shownGlyphs formulas) t with hnone | hnone
    · exact absurd (htext.trans hnone) hstdout
    · exact hconsole.trans hnone
  | @verdict _ _ json text v _ _ _ houtput =>
    obtain ⟨htext, hconsole⟩ := Prod.mk.inj houtput
    rcases verdictOutput_oneChannel json c.style (c.shownGlyphs [text]) v with hnone | hnone
    · exact absurd (htext.trans hnone) hstdout
    · exact hconsole.trans hnone

/-- Where a print fails and the fault is reported, all or nothing is left only of a result on the standard output, and only if
no part of its text was written. -/
theorem allOrNothing_of_isCut_iff {task : Task} {whole left : Outcome} (hwhole : ShowsResult w c task whole)
    (hcut : IsCut whole left) (message : String) :
    AllOrNothing w c task (left.failing message) ↔ whole.console = [] ∧ (left.failing message).stdout = "" := by
  have hresult : ¬ShowsResult w c task (left.failing message) := by
    intro hshows
    refine hshows.getLast?_ne rfl message ?_
    simp [Outcome.failing]
  constructor
  · rintro (⟨message', hmessage⟩ | hshows)
    · cases hcut with
      | text part hstdout => exact ⟨hwhole.console_eq_nil hstdout, hmessage.stdout⟩
      | @console n hn =>
        have hlength := congrArg List.length hmessage.console
        simp only [Outcome.failing, List.length_append, List.length_take, List.length_singleton] at hlength
        omega
    · exact absurd hshows hresult
  · rintro ⟨hconsole, hstdout⟩
    refine .inl ⟨message, rfl, hstdout, ?_⟩
    cases hcut with
    | text part h => rfl
    | console hn =>
      rw [hconsole] at hn
      cases hn

/-- What a task for a table or a verdict finds out under a configuration is a failure with a message, or an outcome that shows
all of it. -/
theorem result_runTask_cases (hload : loadConfig w i = .ok c) (hc : c.HasTexts) (htask : i.task ≠ .demo) :
    (∃ f, (runTask w i).result = .error (.failure f)) ∨
      ∃ whole, (runTask w i).result = .ok whole ∧ ShowsResult w c i.task whole := by
  cases hi : i.task with
  | demo => exact absurd hi htask
  | table formulas latex =>
    rw [runTask_table hload hi, result_runTable]
    cases hfind : (findTable c formulas latex).result with
    | error f => exact .inl ⟨f, rfl⟩
    | ok t => exact .inr ⟨_, tableOutcome_of_hasTexts hc formulas t, .table hfind rfl rfl rfl⟩
  | verify derivation file json =>
    rw [runTask_verify hload hi, result_runVerify]
    cases hfind : (findVerdict w c derivation file).result with
    | error f => exact .inl ⟨f, rfl⟩
    | ok p => exact .inr ⟨_, verdictOutcome_of_hasTexts hc json p.1 p.2, .verdict hfind rfl rfl rfl⟩

/-- What a run for a table or a verdict leaves. The configuration may have values of a wrong form, and then there is no outcome.
Or the run fails before anything is shown, and leaves the message and nothing else. Otherwise there is a whole result to show,
which no message looks like, and it is shown as far as the terminal comes. What is left then is all or nothing exactly if no
print fails, or nothing of a text for the standard output is written. -/
theorem outcome_of_run (t : Terminal (StateM σ)) (s : σ) (hparse : parse args = .ok i) (htask : i.task ≠ .demo)
    (hglyphs : ∀ c, loadConfig w i = .ok c → c.HasTexts) :
    (∃ k, loadConfig w i = .error (.crash k) ∧ (runOn t w args s).1.result = .error (.crash k)) ∨
    (∃ f, (runTask w i).result = .error (.failure f) ∧
      ((t.print [] (messagePrint f.message) s).1 = none → ∃ o, (runOn t w args s).1.result = .ok o) ∧
      ∀ o, (runOn t w args s).1.result = .ok o → IsMessage f.message o) ∨
    ∃ c whole, loadConfig w i = .ok c ∧ (runTask w i).result = .ok whole ∧ ShowsResult w c i.task whole ∧
      (∀ message, ¬IsMessage message whole) ∧ Ends t s whole (runOn t w args s).1.result ∧
      ∀ o, (runOn t w args s).1.result = .ok o →
        (AllOrNothing w c i.task o ↔ (present t whole s).1.2 = none ∨ whole.console = [] ∧ o.stdout = "") := by
  rw [runOn_eq hparse]
  cases hload : loadConfig w i with
  | error e =>
    rw [runTask_of_error hload]
    cases e with
    | crash k => exact .inl ⟨k, rfl, rfl⟩
    | failure f =>
      refine .inr (.inl ⟨f, rfl, ?_⟩)
      exact reported_of_failure t s f
  | ok c =>
    rcases result_runTask_cases hload (hglyphs c hload) htask with ⟨f, hfails⟩ | ⟨whole, hresult, hshows⟩
    · rw [hfails]
      exact .inr (.inl ⟨f, rfl, reported_of_failure t s f⟩)
    · rw [hresult]
      have hends := ends_finish t whole s
      refine .inr (.inr ⟨c, whole, rfl, rfl, hshows, hshows.not_isMessage, hends, fun o ho => ?_⟩)
      dsimp only at ho
      rw [ho] at hends
      cases hends with
      | whole h => exact ⟨fun _ => .inl h, fun _ => .inr hshows⟩
      | @cut left message h hleft =>
        rw [allOrNothing_of_isCut_iff hshows hleft, h]
        simp

/-- A cell of a table holds a tag that names a colour and has no numbers for it. -/
def namesNoColour (p : Print) : Bool :=
  match p.item with
  | some (.grid g) => g.columns.any fun column => column.cells.any fun cell =>
    (markupTags cell.toList).any fun tag => tag.text = "[rgb(,,)]".toList
  | _ => false

/-- A terminal whose console reads the numbers of a colour from its tag, and fails where one is empty. -/
def colourTerminal : Terminal (StateM Unit) where
  print _ p := pure (if namesNoColour p then some (.reported "invalid literal for int() with base 10: ''") else none)
  write _ _ := pure none

/-- A text on the standard output does not fail there. -/
theorem present_colourTerminal {o : Outcome} (h : o.console = []) : (present colourTerminal o ()).1.2 = none := by
  have hwrite : (colourTerminal.writeText o.standIns o.stdout ()).1 = none := by
    unfold Terminal.writeText
    split_ifs <;> rfl
  rw [present, stateM_bind_apply, hwrite, h]
  rfl

/-- With the usual glyphs, the verdict on two steps that differ is shown whole in seven prints, which are no message. -/
theorem outcome_of_run_not_equal :
    ∃ o, (runOn colourTerminal {} ["verify", "A = B"] ()).1.result = .ok o ∧ o.exit = 1 ∧ o.stdout = "" ∧ o.console.length = 7 ∧
      (∃ c, ShowsResult {} c (.verify (some "A = B") none false) o) ∧ ∀ message, ¬IsMessage message o := by
  have hparse : parse ["verify", "A = B"] = .ok ⟨none, none, false, .verify (some "A = B") none false⟩ := by decide
  have hload : loadConfig {} ⟨none, none, false, .verify (some "A = B") none false⟩ = .ok {} := rfl
  have hglyphs : ∀ c, loadConfig {} ⟨none, none, false, .verify (some "A = B") none false⟩ = .ok c → c.HasTexts := by
    intro c hc
    obtain rfl := Except.ok.inj (hload.symm.trans hc)
    exact ⟨"T", "F", rfl, rfl⟩
  obtain ⟨o, ho, htask, hexit, hstdout, hconsole⟩ : ∃ o, (runOn colourTerminal {} ["verify", "A = B"] ()).1.result = .ok o ∧
      (runTask {} ⟨none, none, false, .verify (some "A = B") none false⟩).result = .ok o ∧
      o.exit = 1 ∧ o.stdout = "" ∧ o.console.length = 7 := ⟨_, rfl, rfl, rfl, rfl, rfl⟩
  rcases outcome_of_run colourTerminal () hparse (by decide) hglyphs with ⟨k, hk, -⟩ | ⟨f, hf, -⟩ | hshown
  · cases hload.symm.trans hk
  · cases htask.symm.trans hf
  · obtain ⟨c, whole, -, hresult, hshows, hno, -⟩ := hshown
    obtain rfl := Except.ok.inj (htask.symm.trans hresult)
    exact ⟨o, ho, hexit, hstdout, hconsole, ⟨c, hshows⟩, hno⟩

/-- An environment that sets the glyph of true to a tag for a colour without numbers, and a letter. -/
def tagGlyph : Surroundings where
  environment := ⟨[("TRUTHTAB_TRUE_GLYPH", "[rgb(,,)]T")], []⟩

/-- With this glyph the verdict on two equal steps is shown in part: the heading, the steps and a line stand on the console, and
behind the table that was tried the message of the fault. -/
theorem outcome_of_run_cut_short : ∃ i c o, parse ["verify", "A = A"] = .ok i ∧ loadConfig tagGlyph i = .ok c ∧ c.HasTexts ∧
    (runOn colourTerminal tagGlyph ["verify", "A = A"] ()).1.result = .ok o ∧ o.exit = 1 ∧ o.console.length = 6 ∧
    o.console.getLast? = some (messagePrint "invalid literal for int() with base 10: ''") ∧
    ¬AllOrNothing tagGlyph c i.task o := by
  have hparse : parse ["verify", "A = A"] = .ok ⟨none, none, false, .verify (some "A = A") none false⟩ := by decide
  refine ⟨_, { trueGlyph := .str "[rgb(,,)]T" }, _, hparse, rfl, ⟨_, _, rfl, rfl⟩, rfl, ?_, ?_, ?_, ?_⟩
  · rfl
  · rfl
  · rfl
  · rintro (⟨message, hmessage⟩ | hshows)
    · cases congrArg List.length hmessage.console
    · refine hshows.getLast?_ne ?_ "invalid literal for int() with base 10: ''" ?_
      · rfl
      · rfl

end Command

end Propositional
