import Propositional.Proofs.Formula.Renaming
import Propositional.Proofs.Text.Blank

/-!
# Spelled tokens

`Spells ts s` says that `s` is the tokens `ts` written one after the other, with blanks anywhere between them, and that no `=`
stands where it would join the token before it. Such a text is cut into these tokens and no others (`scan_of_spells`). Blanks may
be trimmed and squeezed without a change of what a text spells.
-/

namespace Propositional

open Text

namespace Token

/-- A `=` right behind the token would belong to it. -/
def takesEquals {α : Type} : Token α → Bool
  | not | equiv _ | xor _ => true
  | _ => false

/-- A token that can be written: its leaf is a letter or a digit, and its run of `=` is neither missing nor too long. -/
def Writable : Token Char → Prop
  | leaf c => c.isAlphanum
  | equiv n => 1 ≤ n ∧ n ≤ 3
  | xor n => 1 ≤ n ∧ n ≤ 2
  | _ => True

/-- A text is the given tokens, written one after the other with blanks between them. -/
inductive Spells : List (Token Char) → List Char → Prop where
  | nil : Spells [] []
  | blank {ts : List (Token Char)} {s : List Char} {c : Char} : isBlank c → Spells ts s → Spells ts (c :: s)
  | token {ts : List (Token Char)} {s : List Char} {t : Token Char} : t.Writable → (t.takesEquals → s.head? ≠ some '=') →
      Spells ts s → Spells (t :: ts) (t.text id ++ s)

/-- The text of a token starts and ends with characters that are no blanks, and holds none. -/
theorem Writable.not_blank {t : Token Char} (h : t.Writable) : ∀ c ∈ t.text id, isBlank c = false := by
  cases t with
  | leaf a => simpa [text] using isBlank_eq_false_of_isAlphanum h
  | equiv n => intro c hc; rw [List.eq_of_mem_replicate hc]; decide
  | xor n =>
    intro c hc
    rcases List.mem_cons.mp hc with rfl | hc
    · decide
    · rw [List.eq_of_mem_replicate hc]; decide
  | _ => simp only [text, List.mem_singleton, forall_eq]; decide

/-- The text of a token is not empty. -/
theorem Writable.exists_text_eq_append {t : Token Char} (h : t.Writable) : ∃ w c, t.text id = w ++ [c] := by
  cases t with
  | equiv n =>
    obtain ⟨n, rfl⟩ : ∃ k, n = k + 1 := ⟨n - 1, by have := h.1; omega⟩
    exact ⟨_, _, List.replicate_succ'⟩
  | xor n =>
    obtain ⟨n, rfl⟩ : ∃ k, n = k + 1 := ⟨n - 1, by have := h.1; omega⟩
    exact ⟨'!' :: List.replicate n '=', '=', by simp [text, List.replicate_succ']⟩
  | _ => exact ⟨[], _, rfl⟩

/-! ## Blanks -/

/-- Squeezing blanks leaves what a text spells as it is. -/
theorem Spells.squeeze {ts : List (Token Char)} {s : List Char} (h : Spells ts s) : Spells ts (Text.squeeze s) := by
  induction h with
  | nil => exact .nil
  | @blank ts s c hc _ ih =>
    rcases squeeze_cons_of_blank hc s with hs | hs
    · exact hs ▸ .blank isBlank_space ih
    · exact hs ▸ ih
  | @token ts s t hw hc _ ih =>
    rw [squeeze_append hw.not_blank]
    exact .token hw (fun ht he => hc ht (head?_of_head?_squeeze (by decide) he)) ih

/-- Dropping the blanks at the start leaves what a text spells as it is. -/
theorem Spells.dropWhile {ts : List (Token Char)} {s : List Char} (h : Spells ts s) : Spells ts (s.dropWhile isBlank) := by
  induction h with
  | nil => exact .nil
  | @blank ts s c hc _ ih => simpa [hc] using ih
  | @token ts s t hw hc hs ih =>
    have hne : (t.text id ++ s).dropWhile isBlank = t.text id ++ s := by
      obtain ⟨w, c, hwc⟩ := hw.exists_text_eq_append
      cases ht : t.text id with
      | nil => simp [ht] at hwc
      | cons d r =>
        have hd := hw.not_blank d (by simp [ht])
        simp [hd]
    rw [hne]
    exact .token hw hc hs

/-- Trimming the end leaves what a text spells as it is. -/
theorem Spells.trimEnd {ts : List (Token Char)} {s : List Char} (h : Spells ts s) : Spells ts (Text.trimEnd s) := by
  induction h with
  | nil => exact .nil
  | @blank ts s c hc hs ih =>
    rw [trimEnd_cons]
    split
    · rename_i he
      exact he.1 ▸ ih
    · exact .blank hc ih
  | @token ts s t hw hc _ ih =>
    obtain ⟨w, c, hwc⟩ := hw.exists_text_eq_append
    have hcut : Text.trimEnd (t.text id ++ s) = t.text id ++ Text.trimEnd s := by
      rw [hwc, List.append_assoc, List.singleton_append, trimEnd_append (hw.not_blank c (by simp [hwc]))]
      simp
    rw [hcut]
    exact .token hw (fun ht he => hc ht (head?_of_head?_trimEnd he)) ih

/-- A text spells the same tokens when its blanks are trimmed and squeezed. -/
theorem Spells.collapse {ts : List (Token Char)} {s : List Char} (h : Spells ts s) : Spells ts (Text.collapse s) :=
  h.squeeze.dropWhile.trimEnd

/-! ## Writing other characters -/

/-- Letters and digits may be replaced by others. -/
theorem Spells.map {w : Char → Char} (hw : ∀ c, w c = c ∨ c.isAlphanum ∧ (w c).isAlphanum) {ts : List (Token Char)}
    {s : List Char} (h : Spells ts s) : Spells (ts.map (·.map w)) (s.map w) := by
  have hfix : ∀ c, c.isAlphanum = false → w c = c := by
    intro c hc
    rcases hw c with h | h
    · exact h
    · rw [h.1] at hc
      cases hc
  induction h with
  | nil => exact .nil
  | @blank ts s c hc _ ih =>
    have hn : c.isAlphanum = false := by
      by_contra hn
      rw [isBlank_eq_false_of_isAlphanum (by simpa using hn)] at hc
      cases hc
    rw [List.map_cons, hfix c hn]
    exact .blank hc ih
  | @token ts s t ht hc _ ih =>
    have htext : (t.text id).map w = (t.map w).text id := by
      cases t with
      | leaf a => rfl
      | equiv n => simp [text, Token.map, hfix '=' (by decide)]
      | xor n => simp [text, Token.map, hfix '=' (by decide), hfix '!' (by decide)]
      | not => simp [text, Token.map, hfix '!' (by decide)]
      | and => simp [text, Token.map, hfix '&' (by decide)]
      | or => simp [text, Token.map, hfix '|' (by decide)]
      | lparen => simp [text, Token.map, hfix '(' (by decide)]
      | rparen => simp [text, Token.map, hfix ')' (by decide)]
    rw [List.map_append, htext]
    refine .token ?_ ?_ ih
    · cases t with
      | leaf a =>
        rcases hw a with h | h
        · show (w a).isAlphanum
          rw [h]
          exact ht
        · exact h.2
      | _ => exact ht
    · intro htake hhead
      have htake' : t.takesEquals := by cases t <;> exact htake
      apply hc htake'
      cases s with
      | nil => exact hhead
      | cons d s =>
        rcases hw d with h | h
        · simpa [h] using hhead
        · have hd : w d = '=' := by simpa using hhead
          rw [hd] at h
          exact absurd h.2 (by decide)

/-! ## Cutting a spelled text -/

/-- Only a text that starts with `=` has a first piece that a character before it would join. -/
theorem pieces_eq_equals_cons {s : List Char} {n : Nat} {ps : List Piece} (h : pieces s = .equals n :: ps) :
    s.head? = some '=' := by
  cases s with
  | nil => simp [pieces] at h
  | cons c s =>
    simp only [pieces, List.foldr_cons, Piece.push] at h
    by_cases hc : c = '='
    · simp [hc]
    · by_cases hb : c = '!'
      · simp only [hb, Char.reduceEq, if_false, if_true] at h
        split at h <;> simp at h
      · simp [hc, hb] at h

/-- A character that belongs to no run is a piece. -/
theorem pieces_cons_of_other {c : Char} (he : c ≠ '=') (hb : c ≠ '!') (s : List Char) :
    pieces (c :: s) = .other c :: pieces s := by
  simp [pieces, Piece.push, he, hb]

/-- A run of `=` before no further one is a piece. -/
theorem pieces_replicate_equals {s : List Char} (h : s.head? ≠ some '=') (n : Nat) :
    pieces (List.replicate (n + 1) '=' ++ s) = .equals (n + 1) :: pieces s := by
  have hs : ∀ m ps, pieces s ≠ .equals m :: ps := fun m ps hp => h (pieces_eq_equals_cons hp)
  have hcons : ∀ r, pieces ('=' :: r) = Piece.push '=' (pieces r) := fun r => rfl
  induction n with
  | zero =>
    rw [List.replicate_one, List.singleton_append, hcons, Piece.push, if_pos rfl]
    exact hs
  | succ n ih =>
    rw [List.replicate_succ, List.cons_append, hcons, ih]
    rfl

/-- A `!` is a piece with the run of `=` behind it. -/
theorem pieces_bang {s : List Char} (h : s.head? ≠ some '=') (n : Nat) :
    pieces ('!' :: (List.replicate n '=' ++ s)) = .bang n :: pieces s := by
  have hs : ∀ m ps, pieces s ≠ .equals m :: ps := fun m ps hp => h (pieces_eq_equals_cons hp)
  have hcons : ∀ r, pieces ('!' :: r) = Piece.push '!' (pieces r) := fun r => rfl
  cases n with
  | zero =>
    rw [List.replicate_zero, List.nil_append, hcons, Piece.push, if_neg (by decide), if_pos rfl]
    exact hs
  | succ n =>
    rw [hcons, pieces_replicate_equals h]
    rfl

/-- A spelled text is cut into the tokens that it spells. The leaves are what the characters stand for. A single character is one
piece, and the runs are one piece each. -/
theorem ofPieces_of_spells {α : Type} {leaf? : Char → Option α} {g : Char → α} {ts : List (Token Char)} {s : List Char}
    (h : Spells ts s) : (∀ c, .leaf c ∈ ts → leaf? c = some (g c)) →
      ∀ p, Token.ofPieces leaf? p (pieces s) = .ok (ts.map (·.map g)) := by
  induction h with
  | nil => intro _ p; rfl
  | @blank ts s c hc _ ih =>
    intro hl p
    have he : c ≠ '=' := ne_of_holds hc (by decide)
    have hb : c ≠ '!' := ne_of_holds hc (by decide)
    rw [pieces_cons_of_other he hb, Token.ofPieces]
    simp [hc, ih hl]
  | @token ts s t hw hc _ ih =>
    intro hl p
    have ih := ih fun c hm => hl c (List.mem_cons_of_mem _ hm)
    cases t with
    | leaf a =>
      have hne : ∀ d, d.isAlphanum = false → a ≠ d := fun d hd => ne_of_holds hw hd
      have hof : Token.ofChar? leaf? a = some (.leaf (g a)) := by
        unfold Token.ofChar?
        split <;> first | (exact absurd rfl (hne _ (by decide))) | rw [hl _ (by simp)]; rfl
      rw [show (Token.leaf a).text id ++ s = a :: s from rfl, pieces_cons_of_other (hne _ (by decide)) (hne _ (by decide)),
        Token.ofPieces]
      simp [isBlank_eq_false_of_isAlphanum hw, hof, ih, Except.map, Token.map]
    | not =>
      rw [show (Token.not : Token Char).text id ++ s = '!' :: (List.replicate 0 '=' ++ s) from rfl, pieces_bang (hc rfl)]
      simp [Token.ofPieces, ih, Except.map, Token.map]
    | equiv n =>
      obtain ⟨n, rfl⟩ : ∃ k, n = k + 1 := ⟨n - 1, by have := hw.1; omega⟩
      rw [Token.text, pieces_replicate_equals (hc rfl)]
      simp [Token.ofPieces, hw.2, ih, Except.map, Token.map]
    | xor n =>
      have hn : n ≠ 0 := by have := hw.1; omega
      rw [show (Token.xor n : Token Char).text id ++ s = '!' :: (List.replicate n '=' ++ s) from rfl, pieces_bang (hc rfl)]
      simp [Token.ofPieces, hn, hw.2, ih, Except.map, Token.map]
    | _ =>
      simp only [Token.text, List.singleton_append]
      rw [pieces_cons_of_other (by decide) (by decide), Token.ofPieces]
      simp only [show isBlank '(' = false by decide, show isBlank ')' = false by decide, show isBlank '&' = false by decide,
        show isBlank '|' = false by decide, Bool.false_eq_true, if_false, Token.ofChar?, ih, Except.map]
      rfl

/-- A text that spells tokens is scanned as them, with its leaves as they stand for something. -/
theorem scan_of_spells {α : Type} {leaf? : Char → Option α} {g : Char → α} {ts : List (Token Char)} {s : List Char}
    (h : Spells ts s) (hl : ∀ c, .leaf c ∈ ts → leaf? c = some (g c)) : Token.scan leaf? s = .ok (ts.map (·.map g)) :=
  ofPieces_of_spells h hl 0

/-! ## One token -/

/-- No text spells two lists of tokens. -/
theorem Spells.unique {ts us : List (Token Char)} {s : List Char} (h : Spells ts s) (h' : Spells us s) : ts = us := by
  have hscan : ∀ {ts : List (Token Char)}, Spells ts s → Token.scan some s = .ok (ts.map (·.map id)) := fun h =>
    scan_of_spells h fun _ _ => rfl
  have hid : ((·.map id) : Token Char → Token Char) = id := funext fun t => by cases t <;> rfl
  have hmap := Except.ok.inj ((hscan h).symm.trans (hscan h'))
  rwa [hid, List.map_id, List.map_id] at hmap

/-- A text that spells nothing is blank. -/
theorem Spells.isBlank_of_nil {s : List Char} (h : Spells [] s) : ∀ c ∈ s, isBlank c := by
  generalize hts : ([] : List (Token Char)) = ts at h
  induction h with
  | nil => simp
  | blank hc _ ih => exact List.forall_mem_cons.mpr ⟨hc, ih hts⟩
  | token => cases hts

/-- A text that spells a leaf alone is it between blanks. -/
theorem Spells.trim_of_leaf {c : Char} {s : List Char} (h : Spells [.leaf c] s) : trim s = [c] := by
  generalize hts : [Token.leaf c] = ts at h
  induction h with
  | nil => cases hts
  | blank hd _ ih =>
    rw [trim, List.dropWhile_cons_of_pos hd]
    exact ih hts
  | token hw _ hs _ =>
    obtain ⟨rfl, rfl⟩ := List.cons.inj hts
    have hc := isBlank_eq_false_of_isAlphanum hw
    rw [text, List.singleton_append, trim, List.dropWhile_cons_of_neg (by simpa using hc), id,
      trimEnd_cons_of_not_blank hc, trimEnd_of_blank hs.isBlank_of_nil]

/-- A text is one letter or digit, but for blanks, exactly if that is its only token. -/
theorem Spells.trim_eq_singleton_iff {ts : List (Token Char)} {s : List Char} (h : Spells ts s) {c : Char} (hc : c.isAlphanum) :
    trim s = [c] ↔ ts = [.leaf c] := by
  constructor
  · intro ht
    have hspells : Spells ts (trim s) := h.dropWhile.trimEnd
    rw [ht] at hspells
    exact hspells.unique (.token (t := .leaf c) hc nofun .nil)
  · rintro rfl
    exact h.trim_of_leaf

end Token

end Propositional
