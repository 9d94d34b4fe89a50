import Propositional.Evaluation
import Propositional.Proofs.Token.Spelling

/-!
# Maximal munch

A text is cut from the left into segments of which none could be longer: a run of `=` with the `!` right before it, if there is
one, and any other character by itself (`Munched`). There is one such cut, and it is the cut into pieces (`munched_iff`). A text
has tokens exactly if it holds no other characters than formulas may hold and no run of `=` that is too long; the tokens are then
the segments that are no blanks, and otherwise the fault is at the first segment that is neither a blank nor a token
(`tokenize_exact`).
-/

namespace Propositional

open Text

/-- A text is cut into segments, from the left: a `!` goes with the run of `=` behind it, a run of `=` is taken whole, and any
other character is a segment by itself. -/
inductive Munched : List Char → List (List Char) → Prop where
  | nil : Munched [] []
  | single {c : Char} {s : List Char} {gs : List (List Char)} : c ≠ '=' → c ≠ '!' → Munched s gs → Munched (c :: s) ([c] :: gs)
  | bang (n : Nat) {s : List Char} {gs : List (List Char)} : s.head? ≠ some '=' → Munched s gs →
      Munched ('!' :: (List.replicate n '=' ++ s)) (('!' :: List.replicate n '=') :: gs)
  | equals (n : Nat) {s : List Char} {gs : List (List Char)} : s.head? ≠ some '=' → Munched s gs →
      Munched (List.replicate (n + 1) '=' ++ s) (List.replicate (n + 1) '=' :: gs)

/-- The texts of a kind of token. -/
inductive Kind.HasText : Kind → List Char → Prop where
  | const (b : Bool) : HasText .const [bit b]
  | not : HasText .not ['!']
  | and : HasText .and ['&']
  | or : HasText .or ['|']
  | equiv {n : Nat} : 1 ≤ n → n ≤ 3 → HasText .equiv (List.replicate n '=')
  | xor {n : Nat} : 1 ≤ n → n ≤ 2 → HasText .xor ('!' :: List.replicate n '=')
  | lparen : HasText .lparen ['(']
  | rparen : HasText .rparen [')']

/-- A segment at a place is no token and no blank: its character may not stand in a formula, or its run of `=` is too long. -/
inductive Offends : List Char → Nat → ScanFault → Prop where
  | character {c : Char} {p : Nat} : isAllowed c = false → Offends [c] p (.unknownCharacter p c)
  | bang {n p : Nat} : 2 < n → Offends ('!' :: List.replicate n '=') p (.unknownOperator p)
  | equals {n p : Nat} : 3 < n → Offends (List.replicate n '=') p (.unknownOperator p)

/-- No run of `=` is too long: wherever one starts and ends, it has three at most, and two if a `!` stands right before it. -/
def RunsFit (s : List Char) : Prop :=
  ∀ a n b, s = a ++ (List.replicate n '=' ++ b) → a.getLast? ≠ some '=' → b.head? ≠ some '=' →
    n ≤ 3 ∧ (a.getLast? = some '!' → n ≤ 2)

/-! ## The cut -/

/-- The text of a piece. -/
def Piece.text : Piece → List Char
  | equals n => List.replicate n '='
  | bang n => '!' :: List.replicate n '='
  | other c => [c]

/-- A text starts with a run of `=`, which may be empty, and goes on with something else. -/
theorem exists_eq_run_append (s : List Char) : ∃ n r, s = List.replicate n '=' ++ r ∧ r.head? ≠ some '=' := by
  induction s with
  | nil => exact ⟨0, [], rfl, by simp⟩
  | cons c s ih =>
    by_cases hc : c = '='
    · obtain ⟨n, r, rfl, hr⟩ := ih
      exact ⟨n + 1, r, by simp [hc, List.replicate_succ], hr⟩
    · exact ⟨0, c :: s, rfl, by simpa using hc⟩

/-- Two runs of `=` at the start of one text are the same, if both are whole. -/
theorem run_append_inj {n m : Nat} {s t : List Char} (hs : s.head? ≠ some '=') (ht : t.head? ≠ some '=')
    (h : List.replicate n '=' ++ s = List.replicate m '=' ++ t) : n = m ∧ s = t := by
  induction n generalizing m with
  | zero =>
    cases m with
    | zero => exact ⟨rfl, h⟩
    | succ m =>
      rw [List.replicate_zero, List.nil_append] at h
      exact absurd (by rw [h]; rfl) hs
  | succ n ih =>
    cases m with
    | zero =>
      rw [List.replicate_zero, List.nil_append] at h
      exact absurd (by rw [← h]; rfl) ht
    | succ m =>
      obtain ⟨rfl, hst⟩ := ih (List.cons.inj h).2
      exact ⟨rfl, hst⟩

/-- Every text is cut into segments. -/
theorem exists_munched (s : List Char) : ∃ gs, Munched s gs := by
  cases s with
  | nil => exact ⟨[], .nil⟩
  | cons c s =>
    by_cases he : c = '='
    · obtain ⟨n, r, rfl, hr⟩ := exists_eq_run_append s
      obtain ⟨gs, hgs⟩ := exists_munched r
      rw [he, ← List.cons_append, ← List.replicate_succ]
      exact ⟨_, hgs.equals n hr⟩
    · by_cases hb : c = '!'
      · obtain ⟨n, r, rfl, hr⟩ := exists_eq_run_append s
        obtain ⟨gs, hgs⟩ := exists_munched r
        rw [hb]
        exact ⟨_, hgs.bang n hr⟩
      · obtain ⟨gs, hgs⟩ := exists_munched s
        exact ⟨_, hgs.single he hb⟩
termination_by s.length

/-- The segments of a text are its pieces. -/
theorem Munched.eq_pieces {s : List Char} {gs : List (List Char)} (h : Munched s gs) : gs = (pieces s).map Piece.text := by
  induction h with
  | nil => rfl
  | single he hb _ ih => rw [Token.pieces_cons_of_other he hb, List.map_cons, ← ih]; rfl
  | bang n hs _ ih => rw [Token.pieces_bang hs, List.map_cons, ← ih]; rfl
  | equals n hs _ ih => rw [Token.pieces_replicate_equals hs, List.map_cons, ← ih]; rfl

/-- A text is cut in one way, which is into the texts of its pieces. -/
theorem munched_iff {s : List Char} {gs : List (List Char)} : Munched s gs ↔ gs = (pieces s).map Piece.text := by
  constructor
  · exact Munched.eq_pieces
  · rintro rfl
    obtain ⟨gs, hgs⟩ := exists_munched s
    rwa [← hgs.eq_pieces]

/-- Nothing is lost or moved by the cut. -/
theorem Munched.flatten {s : List Char} {gs : List (List Char)} (h : Munched s gs) : gs.flatten = s := by
  induction h with
  | nil => rfl
  | single _ _ _ ih | bang _ _ _ ih | equals _ _ _ ih => simp [ih]

/-! ## The tokens of a cut -/

/-- What a cut comes to from its first segment at a place on: blanks are skipped, a segment that is a token is put before the
tokens of the rest, and a segment that offends is the fault, whatever stands behind it. -/
inductive Scanned : List (List Char) → Nat → Except ScanFault (List (Token Bool)) → Prop where
  | nil {p : Nat} : Scanned [] p (.ok [])
  | blank {c : Char} {gs : List (List Char)} {p : Nat} {r : Except ScanFault (List (Token Bool))} : isBlank c →
      Scanned gs (p + 1) r → Scanned ([c] :: gs) p r
  | token {t : Token Bool} {gs : List (List Char)} {p : Nat} {r : Except ScanFault (List (Token Bool))} :
      t.kind.HasText (t.text bit) → Scanned gs (p + (t.text bit).length) r → Scanned (t.text bit :: gs) p (r.map (t :: ·))
  | fault {g : List Char} {gs : List (List Char)} {p : Nat} {f : ScanFault} : Offends g p f → Scanned (g :: gs) p (.error f)

/-- A single character that is no blank is a token, or it may not stand in a formula. -/
theorem Token.ofChar?_bit? {c : Char} (hb : isBlank c = false) (he : c ≠ '=') (hn : c ≠ '!') :
    (∃ t : Token Bool, Token.ofChar? bit? c = some t ∧ t.text bit = [c] ∧ t.kind.HasText [c]) ∨
      (Token.ofChar? bit? c = none ∧ isAllowed c = false) := by
  by_cases hc : c ∈ ['(', ')', '&', '|', '0', '1']
  · left
    simp only [List.mem_cons, List.not_mem_nil, or_false] at hc
    rcases hc with rfl | rfl | rfl | rfl | rfl | rfl
    · exact ⟨.lparen, rfl, rfl, .lparen⟩
    · exact ⟨.rparen, rfl, rfl, .rparen⟩
    · exact ⟨.and, rfl, rfl, .and⟩
    · exact ⟨.or, rfl, rfl, .or⟩
    · exact ⟨.leaf false, rfl, rfl, .const false⟩
    · exact ⟨.leaf true, rfl, rfl, .const true⟩
  · right
    simp only [List.mem_cons, List.not_mem_nil, or_false, not_or] at hc
    obtain ⟨h1, h2, h3, h4, h5, h6⟩ := hc
    have hbit : bit? c = none := by
      unfold bit?
      split
      · exact absurd rfl h5
      · exact absurd rfl h6
      · rfl
    refine ⟨?_, by simp [isAllowed, hb, h1, h2, h3, h4, h5, h6, he, hn]⟩
    unfold Token.ofChar?
    split
    · exact absurd rfl h1
    · exact absurd rfl h2
    · exact absurd rfl h3
    · exact absurd rfl h4
    · rw [hbit]
      rfl

/-- The pieces of a text are read segment by segment. -/
theorem Munched.scanned {s : List Char} {gs : List (List Char)} (h : Munched s gs) :
    ∀ p, Scanned gs p (Token.ofPieces bit? p (pieces s)) := by
  induction h with
  | nil => exact fun p => .nil
  | @single c s gs he hn _ ih =>
    intro p
    rw [Token.pieces_cons_of_other he hn, Token.ofPieces]
    cases hb : isBlank c with
    | true => exact .blank hb (ih (p + 1))
    | false =>
      rcases Token.ofChar?_bit? hb he hn with ⟨t, ht, htext, hk⟩ | ⟨ht, ha⟩
      · rw [ht, ← htext]
        exact .token (htext ▸ hk) (by rw [htext]; exact ih (p + 1))
      · rw [ht]
        exact .fault (.character ha)
  | bang n hs _ ih =>
    intro p
    have hlen : (Token.text bit (.xor n)).length = n + 1 := by simp [Token.text]
    rw [Token.pieces_bang hs, Token.ofPieces]
    by_cases h0 : n = 0
    · subst h0
      exact .token (t := .not) .not (ih (p + 1))
    · rw [if_neg h0]
      by_cases h2 : n ≤ 2
      · rw [if_pos h2]
        exact .token (t := .xor n) (.xor (by omega) h2) (by rw [hlen]; exact ih (p + (n + 1)))
      · rw [if_neg h2]
        exact .fault (.bang (by omega))
  | equals n hs _ ih =>
    intro p
    have hlen : (Token.text bit (.equiv (n + 1))).length = n + 1 := List.length_replicate
    rw [Token.pieces_replicate_equals hs, Token.ofPieces]
    by_cases h3 : n + 1 ≤ 3
    · rw [if_pos h3]
      exact .token (t := .equiv (n + 1)) (.equiv (by omega) h3) (by rw [hlen]; exact ih (p + (n + 1)))
    · rw [if_neg h3]
      exact .fault (.equals (by omega))

/-- A segment does not offend: it holds no other characters than formulas may hold, and its run of `=` is not too long. A run
with the `!` before it is no longer than one without, so both have three characters at most. -/
structure Fits (g : List Char) : Prop where
  char : ∀ c ∈ g, isAllowed c
  length : g.length ≤ 3

/-- A segment that fits does not offend. -/
theorem Fits.not_offends {g : List Char} (h : Fits g) {p : Nat} {f : ScanFault} : ¬Offends g p f := by
  intro ho
  have hl := h.length
  cases ho with
  | character hc => simp [h.char _ (List.mem_singleton_self _)] at hc
  | bang hn =>
    rw [List.length_cons, List.length_replicate] at hl
    omega
  | equals hn =>
    rw [List.length_replicate] at hl
    omega

/-- A blank fits. -/
theorem fits_of_isBlank {c : Char} (h : isBlank c) : Fits [c] where
  char := by simp [isAllowed, h]
  length := by simp

/-- The text of a token fits. -/
theorem Kind.HasText.fits {k : Kind} {g : List Char} (h : k.HasText g) : Fits g := by
  have hrun : ∀ n, ∀ c ∈ List.replicate n '=', isAllowed c := fun n c hc => by
    rw [List.eq_of_mem_replicate hc]
    decide
  cases h with
  | const b => exact ⟨by cases b <;> decide, by simp⟩
  | equiv h1 h3 => exact ⟨hrun _, by simpa using h3⟩
  | @xor n h1 h2 =>
    refine ⟨List.forall_mem_cons.mpr ⟨by decide, hrun n⟩, ?_⟩
    rw [List.length_cons, List.length_replicate]
    exact Nat.succ_le_succ h2
  | _ => exact ⟨by decide, by decide⟩

/-- The text of a token is not blank. -/
theorem Kind.HasText.all_isBlank {k : Kind} {g : List Char} (h : k.HasText g) : g.all isBlank = false := by
  cases h with
  | const b => cases b <;> decide
  | @equiv n h1 h3 =>
    obtain ⟨n, rfl⟩ : ∃ m, n = m + 1 := ⟨n - 1, by omega⟩
    rw [List.replicate_succ, List.all_cons, show isBlank '=' = false by decide, Bool.false_and]
  | xor h1 h2 => rw [List.all_cons, show isBlank '!' = false by decide, Bool.false_and]
  | _ => decide

/-- The tokens of a cut are its segments but the blanks, each with the kind that its text belongs to. -/
theorem Scanned.of_ok {gs : List (List Char)} {p : Nat} {ts : List (Token Bool)} (h : Scanned gs p (.ok ts)) :
    ts.map (Token.text bit) = gs.filter (!·.all isBlank) ∧ (∀ t ∈ ts, t.kind.HasText (t.text bit)) ∧ ∀ g ∈ gs, Fits g := by
  generalize hr : Except.ok ts = r at h
  induction h generalizing ts with
  | nil =>
    obtain rfl := Except.ok.inj hr
    simp
  | blank hb _ ih =>
    obtain ⟨htext, hkind, hfits⟩ := ih hr
    exact ⟨by simp [htext, hb], hkind, List.forall_mem_cons.mpr ⟨fits_of_isBlank hb, hfits⟩⟩
  | @token t gs p r hk _ ih =>
    cases r with
    | error f => cases hr
    | ok us =>
      obtain rfl := Except.ok.inj hr
      obtain ⟨htext, hkind, hfits⟩ := ih rfl
      refine ⟨?_, List.forall_mem_cons.mpr ⟨hk, hkind⟩, List.forall_mem_cons.mpr ⟨hk.fits, hfits⟩⟩
      rw [List.map_cons, List.filter_cons, hk.all_isBlank, htext]
      rfl
  | fault => cases hr

/-- A fault is about the first segment that offends, and its place is where that segment starts. -/
theorem Scanned.of_error {gs : List (List Char)} {p : Nat} {f : ScanFault} (h : Scanned gs p (.error f)) :
    ∃ pre g post, gs = pre ++ g :: post ∧ (∀ g ∈ pre, Fits g) ∧ Offends g (p + pre.flatten.length) f := by
  generalize hr : Except.error f = r at h
  induction h with
  | nil => cases hr
  | @blank c gs p r hb _ ih =>
    obtain ⟨pre, g, post, rfl, hpre, ho⟩ := ih hr
    refine ⟨[c] :: pre, g, post, rfl, List.forall_mem_cons.mpr ⟨fits_of_isBlank hb, hpre⟩, ?_⟩
    rwa [List.flatten_cons, List.length_append, List.length_singleton, ← Nat.add_assoc]
  | @token t gs p r hk _ ih =>
    cases r with
    | ok us => cases hr
    | error e =>
      obtain ⟨pre, g, post, rfl, hpre, ho⟩ := ih hr
      refine ⟨t.text bit :: pre, g, post, rfl, List.forall_mem_cons.mpr ⟨hk.fits, hpre⟩, ?_⟩
      rwa [List.flatten_cons, List.length_append, ← Nat.add_assoc]
  | @fault g gs p e ho =>
    obtain rfl := Except.error.inj hr
    exact ⟨[], g, gs, rfl, by simp, ho⟩

/-! ## Runs -/

/-- Nothing is left before a whole run of `=`, if what would be left ends with something else. -/
theorem eq_nil_of_append_eq_run {a c : List Char} {n : Nat} (ha : a.getLast? ≠ some '=') (h : List.replicate n '=' = a ++ c) :
    a = [] := by
  cases hl : a.getLast? with
  | none => exact List.getLast?_eq_none_iff.mp hl
  | some d =>
    have hd : d ∈ List.replicate n '=' := h ▸ List.mem_append_left c (List.mem_of_getLast? hl)
    exact absurd (by rw [hl, List.eq_of_mem_replicate hd]) ha

/-- The runs behind a text that they do not join are runs of the whole. -/
theorem RunsFit.of_append {g s : List Char} (hg : s.head? = some '=' → g.getLast? ≠ some '=') (h : RunsFit (g ++ s)) :
    RunsFit s := by
  intro a n b hs ha hb
  by_cases hnil : a = []
  · subst hnil
    refine ⟨?_, nofun⟩
    cases n with
    | zero => exact Nat.zero_le 3
    | succ n => exact (h g (n + 1) b (by rw [hs]; rfl) (hg (by rw [hs]; rfl)) hb).1
  · have hlast := List.getLast?_append_of_ne_nil g hnil
    have := h (g ++ a) n b (by rw [hs, List.append_assoc]) (hlast ▸ ha) hb
    rwa [hlast] at this

/-- The runs of a text with something before it are its own, as long as none of them is joined, and those that start in what
stands before. A run that starts behind the first text is one of the second. -/
theorem RunsFit.append {g s : List Char} (hg : s.head? = some '=' → g.getLast? ≠ some '!') (h : RunsFit s)
    (hown : ∀ a c n b, g = a ++ c → c ≠ [] → List.replicate (n + 1) '=' ++ b = c ++ s → a.getLast? ≠ some '=' →
      b.head? ≠ some '=' → n + 1 ≤ 3 ∧ (a.getLast? = some '!' → n + 1 ≤ 2)) : RunsFit (g ++ s) := by
  have behind : ∀ a n b, s = a ++ (List.replicate (n + 1) '=' ++ b) → (g ++ a).getLast? ≠ some '=' → b.head? ≠ some '=' →
      n + 1 ≤ 3 ∧ ((g ++ a).getLast? = some '!' → n + 1 ≤ 2) := by
    intro a n b hs ha hb
    by_cases hnil : a = []
    · subst hnil
      rw [List.append_nil]
      exact ⟨(h [] (n + 1) b hs nofun hb).1, fun hl => absurd hl (hg (by rw [hs]; rfl))⟩
    · rw [List.getLast?_append_of_ne_nil g hnil] at ha ⊢
      exact h a (n + 1) b hs ha hb
  intro a n b hs ha hb
  cases n with
  | zero => simp
  | succ n =>
    rcases List.append_eq_append_iff.mp hs with ⟨a', rfl, hs'⟩ | ⟨c, hgc, hs'⟩
    · exact behind a' n b hs' ha hb
    · by_cases hnil : c = []
      · subst hnil
        rw [List.append_nil] at hgc
        subst hgc
        have := behind [] n b hs'.symm (by rwa [List.append_nil]) hb
        rwa [List.append_nil] at this
      · exact hown a c n b hgc hnil hs' ha hb

/-- The runs of a text are those of its segments. A run in a segment would have to start with its character. -/
theorem Munched.runsFit_iff {s : List Char} {gs : List (List Char)} (h : Munched s gs) :
    RunsFit s ↔ ∀ g ∈ gs, g.length ≤ 3 := by
  induction h with
  | nil =>
    simp only [List.not_mem_nil, false_implies, implies_true, iff_true]
    intro a n b hs _ _
    have hlen := congrArg List.length hs
    simp only [List.length_append, List.length_replicate, List.length_nil] at hlen
    exact ⟨by omega, by omega⟩
  | @single c s gs he hn _ ih =>
    rw [List.forall_mem_cons, and_iff_right (by simp), ← ih]
    constructor
    · exact RunsFit.of_append (g := [c]) (fun _ => by simpa using he)
    · intro h
      refine RunsFit.append (g := [c]) (fun _ => by simpa using hn) h ?_
      rintro a (_ | ⟨d, t⟩) n b hc hne hrun - -
      · exact absurd rfl hne
      · obtain rfl : d = '=' := (List.cons.inj hrun).1.symm
        have hmem : '=' ∈ [c] := by rw [hc]; simp
        exact absurd (List.mem_singleton.mp hmem).symm he
  | @bang n s gs hs _ ih =>
    rw [List.forall_mem_cons, ← ih, List.length_cons, List.length_replicate]
    constructor
    · intro h
      have h2 := (h ['!'] n s rfl (by decide) hs).2 rfl
      exact ⟨by omega, h.of_append (g := '!' :: List.replicate n '=') fun h => absurd h hs⟩
    · rintro ⟨h3, h⟩
      refine RunsFit.append (g := '!' :: List.replicate n '=') (fun h => absurd h hs) h ?_
      rintro (_ | ⟨d, a⟩) c m b hac hc hrun ha hb
      · rw [← (show '!' :: List.replicate n '=' = c from hac)] at hrun
        exact absurd (List.cons.inj hrun).1 (by decide)
      · obtain ⟨rfl, hac'⟩ := List.cons.inj hac
        have hlast : a.getLast? ≠ some '=' := by
          intro hl
          have hne : a ≠ [] := by
            rintro rfl
            cases hl
          exact ha ((List.getLast?_append_of_ne_nil ['!'] hne).trans hl)
        obtain rfl := eq_nil_of_append_eq_run hlast hac'
        rw [← (show List.replicate n '=' = c from hac')] at hrun
        obtain ⟨rfl, -⟩ := run_append_inj hb hs hrun
        exact ⟨by omega, fun _ => by omega⟩
  | @equals n s gs hs _ ih =>
    rw [List.forall_mem_cons, ← ih, List.length_replicate]
    constructor
    · intro h
      have h3 := (h [] (n + 1) s rfl nofun hs).1
      exact ⟨h3, h.of_append fun h => absurd h hs⟩
    · rintro ⟨h3, h⟩
      refine RunsFit.append (fun h => absurd h hs) h ?_
      intro a c m b hac hc hrun ha hb
      obtain rfl := eq_nil_of_append_eq_run ha hac
      rw [← (show List.replicate (n + 1) '=' = c from hac)] at hrun
      obtain ⟨hm, -⟩ := run_append_inj hb hs hrun
      exact ⟨by omega, nofun⟩

/-- A text is cut into segments that fit exactly if it holds no other characters than formulas may hold and its runs are not too
long. -/
theorem Munched.fits_iff {s : List Char} {gs : List (List Char)} (h : Munched s gs) :
    (∀ g ∈ gs, Fits g) ↔ (∀ c ∈ s, isAllowed c) ∧ RunsFit s := by
  rw [h.runsFit_iff, ← h.flatten]
  constructor
  · intro hf
    refine ⟨fun c hc => ?_, fun g hg => (hf g hg).length⟩
    obtain ⟨g, hg, hc⟩ := List.mem_flatten.mp hc
    exact (hf g hg).char c hc
  · rintro ⟨hc, hl⟩ g hg
    exact ⟨fun c hm => hc c (List.mem_flatten.mpr ⟨g, hg, hm⟩), hl g hg⟩

/-! ## Tokens -/

/-- The segments that are no blanks are the text without its blanks. -/
theorem Munched.flatten_filter {s : List Char} {gs : List (List Char)} (h : Munched s gs) :
    (gs.filter (!·.all isBlank)).flatten = s.filter (!isBlank ·) := by
  have hrun : ∀ n, (List.replicate n '=').filter (!isBlank ·) = List.replicate n '=' := fun n =>
    List.filter_eq_self.mpr fun c hc => by
      rw [List.eq_of_mem_replicate hc]
      decide
  have hequals : isBlank '=' = false := by decide
  have hbang : isBlank '!' = false := by decide
  induction h with
  | nil => rfl
  | @single c s gs _ _ _ ih => cases hb : isBlank c <;> simp [hb, ih]
  | bang n _ _ ih => simp [hbang, hrun, ih]
  | equals n _ _ ih => simp [List.replicate_succ, hequals, hrun, ih]

/-- A text has tokens exactly if each of its segments fits. -/
theorem Munched.exists_scan_iff {s : List Char} {gs : List (List Char)} (h : Munched s gs) :
    (∃ ts, Token.scan bit? s = .ok ts) ↔ ∀ g ∈ gs, Fits g := by
  have hs : Scanned gs 0 (Token.scan bit? s) := h.scanned 0
  constructor
  · rintro ⟨ts, hts⟩
    exact (hts ▸ hs).of_ok.2.2
  · intro hf
    cases hscan : Token.scan bit? s with
    | ok ts => exact ⟨ts, rfl⟩
    | error f =>
      obtain ⟨pre, g, post, rfl, -, ho⟩ := (hscan ▸ hs).of_error
      exact absurd ho (hf g (by simp)).not_offends

/-- A text with tokens holds no other characters than formulas may hold, and each of its tokens has a text that belongs to its
kind. -/
theorem of_scan_eq_ok {s : List Char} {ts : List (Token Bool)} (h : Token.scan bit? s = .ok ts) :
    (∀ c ∈ s, isAllowed c) ∧ ∀ t ∈ ts, t.kind.HasText (t.text bit) := by
  obtain ⟨gs, hgs⟩ := exists_munched s
  have hs : Scanned gs 0 (Token.scan bit? s) := hgs.scanned 0
  rw [h] at hs
  exact ⟨(hgs.fits_iff.mp hs.of_ok.2.2).1, hs.of_ok.2.1⟩

/-- A text that has tokens holds no other characters than formulas may hold, so it is read as its tokens are. -/
theorem compile_of_scan {formula : String} {ts : List (Token Bool)} (hts : Token.scan bit? formula.toList = .ok ts) :
    compile formula = (Formula.parse ts).mapError fun e => ⟨formula, .malformed (.parse e)⟩ := by
  have hfind : formula.toList.find? (!isAllowed ·) = none := by simpa using (of_scan_eq_ok hts).1
  unfold compile compileText parseText
  rw [hfind, hts]
  dsimp only
  cases Formula.parse ts <;> rfl

/-- A text that spells tokens with the digits of truth values as leaves has the tokens with these values. -/
theorem Token.scan_bit?_of_spells {ts : List (Token Bool)} {s : List Char} (h : Token.Spells (ts.map (·.map bit)) s) :
    Token.scan bit? s = .ok ts := by
  have hback : (ts.map (·.map bit)).map (·.map fun c => (bit? c).getD false) = ts := by
    rw [List.map_map]
    refine List.map_id'' (fun t => ?_) ts
    rcases t with (_ | _) | _ | _ | _ | _ | _ | _ | _ <;> rfl
  have hleaf : ∀ c, Token.leaf c ∈ ts.map (·.map bit) → bit? c = some ((bit? c).getD false) := fun c hc => by
    obtain ⟨t, -, ht⟩ := List.mem_map.mp hc
    cases t with
    | leaf b =>
      obtain rfl := Token.leaf.inj ht
      cases b <;> rfl
    | _ => cases ht
  have hscan := Token.scan_of_spells h hleaf
  rwa [hback] at hscan

/-- A formula has tokens exactly if its text is scanned, and they are those scanned and the end. -/
theorem tokenize_eq_ok_iff {formula : String} {ts : List (Kind × String)} :
    tokenize formula = .ok ts ↔ ∃ us, Token.scan bit? formula.toList = .ok us ∧
      ts = us.map (fun t => (t.kind, String.ofList (t.text bit))) ++ [(.eof, "")] := by
  unfold tokenize
  cases Token.scan bit? formula.toList with
  | error f => simp
  | ok us =>
    simp only [Except.ok.injEq, exists_eq_left']
    exact eq_comm

/-- A formula has no tokens exactly if its text is not scanned, for the same fault. -/
theorem tokenize_eq_error_iff {formula : String} {e : FormulaError} :
    tokenize formula = .error e ↔ ∃ f, Token.scan bit? formula.toList = .error f ∧ e = ⟨formula, .malformed (.scan f)⟩ := by
  unfold tokenize
  cases Token.scan bit? formula.toList with
  | error f => simpa using eq_comm
  | ok us => simp

/-- What is made of a text is exact. It has tokens exactly if it holds no other characters than formulas may hold and its runs of
`=` are not too long. The text is cut in one way; its tokens are the segments that are no blanks, each of the kind that its text
belongs to, so they hold all of the text but the blanks, and the one end stands behind them. Without tokens, the fault is the
first segment that offends, at the place where that starts. -/
theorem tokenize_exact (formula : String) :
    ((∃ ts, tokenize formula = .ok ts) ↔ (∀ c ∈ formula.toList, isAllowed c) ∧ RunsFit formula.toList) ∧
      ∃ gs, (∀ hs, Munched formula.toList hs ↔ hs = gs) ∧
        (∀ ts, tokenize formula = .ok ts → ∃ us, ts = us ++ [(.eof, "")] ∧ .eof ∉ us.map (·.1) ∧
          us.map (·.2.toList) = gs.filter (!·.all isBlank) ∧ (∀ u ∈ us, u.1.HasText u.2.toList) ∧
          us.flatMap (·.2.toList) = formula.toList.filter (!isBlank ·)) ∧
        ∀ e, tokenize formula = .error e → ∃ pre g post f, gs = pre ++ g :: post ∧
          (∀ h ∈ pre, ∀ p f, ¬Offends h p f) ∧ Offends g pre.flatten.length f ∧ e = ⟨formula, .malformed (.scan f)⟩ := by
  obtain ⟨gs, hgs⟩ := exists_munched formula.toList
  have hscanned : Scanned gs 0 (Token.scan bit? formula.toList) := hgs.scanned 0
  refine ⟨?_, gs, fun hs => ?_, fun ts hts => ?_, fun e he => ?_⟩
  · rw [← hgs.fits_iff, ← hgs.exists_scan_iff]
    simp only [tokenize_eq_ok_iff]
    exact ⟨fun ⟨_, us, hus, _⟩ => ⟨us, hus⟩, fun ⟨us, hus⟩ => ⟨_, us, hus, rfl⟩⟩
  · rw [munched_iff, ← hgs.eq_pieces]
  · obtain ⟨us, hus, rfl⟩ := tokenize_eq_ok_iff.mp hts
    obtain ⟨htext, hkind, -⟩ := (hus ▸ hscanned).of_ok
    have hvalues : (us.map fun t => (t.kind, String.ofList (t.text bit))).map (·.2.toList) = us.map (Token.text bit) := by
      simp
    refine ⟨_, rfl, ?_, hvalues.trans htext, ?_, ?_⟩
    · simp only [List.map_map, List.mem_map, not_exists, not_and]
      rintro t - heof
      cases t <;> cases heof
    · simpa using hkind
    · rw [List.flatMap_def, hvalues, htext, hgs.flatten_filter]
  · obtain ⟨f, hf, rfl⟩ := tokenize_eq_error_iff.mp he
    obtain ⟨pre, g, post, rfl, hpre, ho⟩ := (hf ▸ hscanned).of_error
    rw [Nat.zero_add] at ho
    exact ⟨pre, g, post, f, rfl, fun h hh p f => (hpre h hh).not_offends, ho, rfl⟩

end Propositional
