import Propositional.Proofs.Formula.Renaming

/-!
# Tokens of a renamed text

Characters of a text may be replaced one by one without a change of its tokens but for the leaves, if no character changes its
part in the text: blanks stay blanks, operators stay what they are, and leaves stay leaves (`Renames`). The pieces of the text,
the tokens and the places of faults all go along (`scan_map`).
-/

namespace Propositional

open Text

variable {α β : Type}

/-- The piece with its character replaced, if it is a single character. -/
def Piece.map (w : Char → Char) : Piece → Piece
  | equals n => .equals n
  | bang n => .bang n
  | other c => .other (w c)

/-- The fault with its character replaced. -/
def ScanFault.map (w : Char → Char) : ScanFault → ScanFault
  | unknownOperator p => .unknownOperator p
  | unknownCharacter p c => .unknownCharacter p (w c)

/-- A character keeps its part when it is replaced: what it stands for as a leaf goes along with `g`, and nothing else
changes. -/
structure Renames (leaf? : Char → Option α) (leaf?' : Char → Option β) (g : α → β) (w : Char → Char) (c : Char) : Prop where
  equals : w c = '=' ↔ c = '='
  bang : w c = '!' ↔ c = '!'
  blank : isBlank (w c) = isBlank c
  token : Token.ofChar? leaf?' (w c) = (Token.ofChar? leaf? c).map (Token.map g)

/-- Replacing characters that stay apart from `=` and `!` leaves the cut as it is. -/
theorem Piece.push_map {w : Char → Char} {c : Char} (he : w c = '=' ↔ c = '=') (hb : w c = '!' ↔ c = '!') (ps : List Piece) :
    push (w c) (ps.map (map w)) = (push c ps).map (map w) := by
  unfold push
  by_cases hc : c = '='
  · rw [if_pos hc, if_pos (he.mpr hc)]
    rcases ps with _ | ⟨p | p | p, ps⟩ <;> rfl
  · rw [if_neg hc, if_neg (fun h => hc (he.mp h))]
    by_cases hc' : c = '!'
    · rw [if_pos hc', if_pos (hb.mpr hc')]
      rcases ps with _ | ⟨p | p | p, ps⟩ <;> rfl
    · rw [if_neg hc', if_neg (fun h => hc' (hb.mp h))]
      rfl

/-- The pieces of a text go along with its characters. -/
theorem pieces_map {w : Char → Char} {s : List Char} (h : ∀ c ∈ s, (w c = '=' ↔ c = '=') ∧ (w c = '!' ↔ c = '!')) :
    pieces (s.map w) = (pieces s).map (Piece.map w) := by
  induction s with
  | nil => rfl
  | cons c s ih =>
    obtain ⟨he, hb⟩ := h c List.mem_cons_self
    have ih := ih fun d hd => h d (List.mem_cons_of_mem c hd)
    show Piece.push (w c) (pieces (s.map w)) = (Piece.push c (pieces s)).map (Piece.map w)
    rw [ih, Piece.push_map he hb]

/-- A single character is a piece if it is put before the text, or was one. -/
theorem Piece.other_mem_push_iff {c d : Char} {ps : List Piece} :
    other d ∈ push c ps ↔ (d = c ∧ c ≠ '=' ∧ c ≠ '!') ∨ other d ∈ ps := by
  unfold push
  by_cases hc : c = '='
  · rw [if_pos hc]
    rcases ps with _ | ⟨p | p | p, ps⟩ <;> simp [hc]
  · rw [if_neg hc]
    by_cases hc' : c = '!'
    · rw [if_pos hc']
      rcases ps with _ | ⟨p | p | p, ps⟩ <;> simp [hc']
    · rw [if_neg hc']
      simp [hc, hc']

/-- The single characters among the pieces of a text are its characters that belong to no run. -/
theorem other_mem_pieces_iff {c : Char} {s : List Char} : .other c ∈ pieces s ↔ c ∈ s ∧ c ≠ '=' ∧ c ≠ '!' := by
  induction s with
  | nil => simp [pieces]
  | cons d s ih =>
    show .other c ∈ Piece.push d (pieces s) ↔ _
    rw [Piece.other_mem_push_iff, ih, List.mem_cons]
    constructor
    · rintro (⟨rfl, h⟩ | ⟨hc, h⟩)
      · exact ⟨Or.inl rfl, h⟩
      · exact ⟨Or.inr hc, h⟩
    · rintro ⟨rfl | hc, h⟩
      · exact Or.inl ⟨rfl, h⟩
      · exact Or.inr ⟨hc, h⟩

namespace Token

variable {leaf? : Char → Option α} {leaf?' : Char → Option β} {g : α → β} {w : Char → Char}

/-- Replacing goes past a token that is put before others. -/
theorem map_cons_result (t : Token α) (r : Except ScanFault (List (Token α))) :
    ((r.map (t :: ·)).map (List.map (map g))).mapError (ScanFault.map w) =
      ((r.map (List.map (map g))).mapError (ScanFault.map w)).map (t.map g :: ·) := by
  cases r <;> rfl

/-- Pieces whose characters keep their parts have the renamed tokens, or the renamed fault. -/
theorem ofPieces_map {ps : List Piece} (h : ∀ c, .other c ∈ ps → Renames leaf? leaf?' g w c) :
    ∀ p, ofPieces leaf?' p (ps.map (Piece.map w)) =
      ((ofPieces leaf? p ps).map (List.map (map g))).mapError (ScanFault.map w) := by
  induction ps with
  | nil => intro p; rfl
  | cons q ps ih =>
    intro p
    have ih := ih fun c hc => h c (List.mem_cons_of_mem q hc)
    cases q with
    | equals n =>
      simp only [List.map_cons, Piece.map, ofPieces, ih, Piece.width]
      split
      · exact (map_cons_result (.equiv n) _).symm
      · rfl
    | bang n =>
      simp only [List.map_cons, Piece.map, ofPieces, ih, Piece.width]
      split
      · exact (map_cons_result .not _).symm
      · split
        · exact (map_cons_result (.xor n) _).symm
        · rfl
    | other c =>
      obtain ⟨-, -, hblank, htoken⟩ := h c List.mem_cons_self
      simp only [List.map_cons, Piece.map, ofPieces, ih, Piece.width, hblank, htoken]
      split
      · rfl
      · cases ofChar? leaf? c with
        | none => rfl
        | some t => exact (map_cons_result _ _).symm

/-- The tokens of a text go along with its characters, and so does its fault. -/
theorem scan_map {s : List Char} (h : ∀ c ∈ s, Renames leaf? leaf?' g w c) :
    scan leaf?' (s.map w) = ((scan leaf? s).map (List.map (map g))).mapError (ScanFault.map w) := by
  unfold scan
  rw [pieces_map fun c hc => ⟨(h c hc).equals, (h c hc).bang⟩]
  exact ofPieces_map (fun c hc => h c (other_mem_pieces_iff.mp hc).1) 0

end Token

end Propositional
