import Mathlib.Data.List.DropRight
import Propositional.Proofs.Latex.Layout

/-!
# Where two texts meet

A text behind another one may go on what that ends in: a letter goes on the name of a macro, and `=` goes on a `!`. Where nothing
goes on, the two texts are respelled and cut into lexemes each by itself (`Group.respellsApart`, `Lexeme.lex_append`).
-/

namespace Propositional.Latex

open Text

/-! ## What goes on -/

/-- A text ends in a macro: before the letters at its end, if there are any, stands a backslash. -/
def EndsInMacro (p : List Char) : Prop := (p.rdropWhile Char.isAlpha).getLast? = some '\\'

/-- The characters that stand one behind the other in an operator. -/
def operatorPairs : List (Char × Char) := [('<', '-'), ('<', '='), ('-', '>'), ('=', '>'), ('!', '='), ('=', '=')]

/-- A character goes on what a text ends in: a backslash, a macro, a word of small letters, or the start of an operator. -/
def GoesOn (p : List Char) (c : Char) : Prop :=
  ∃ b ∈ p.getLast?, b = '\\' ∨ c.isAlpha ∧ EndsInMacro p ∨ b.isLower ∧ c.isLower ∨ (b, c) ∈ operatorPairs

/-- The second text goes on what the first one ends in. -/
def Joins (p q : List Char) : Prop := ∃ c ∈ q.head?, GoesOn p c

instance : DecidablePred EndsInMacro := fun _ => inferInstanceAs (Decidable (_ = _))

instance (p : List Char) (c : Char) : Decidable (GoesOn p c) := Option.decidableExistsMem p.getLast?

instance (p q : List Char) : Decidable (Joins p q) := Option.decidableExistsMem q.head?

/-- Behind one more character a text ends in a macro if it did and the character is a letter, or if the character is a
backslash. -/
theorem endsInMacro_concat (p : List Char) (c : Char) : EndsInMacro (p ++ [c]) ↔
    if c.isAlpha then EndsInMacro p else c = '\\' := by
  unfold EndsInMacro
  rw [List.rdropWhile_concat]
  split
  · rfl
  · rw [List.getLast?_concat, Option.some.injEq]

/-- A macro at the end of two texts is one at the end of the second, or the second holds letters only, which go on its name. -/
theorem endsInMacro_append (p q : List Char) : EndsInMacro (p ++ q) ↔ EndsInMacro q ∨ EndsInMacro p ∧ ∀ c ∈ q, c.isAlpha := by
  induction q using List.reverseRecOn with
  | nil => simp [EndsInMacro, List.rdropWhile_nil]
  | append_singleton q c ih =>
    rw [← List.append_assoc, endsInMacro_concat, endsInMacro_concat, ih]
    by_cases hc : c.isAlpha
    · rw [if_pos hc, if_pos hc, List.forall_mem_append, List.forall_mem_singleton, and_iff_left hc]
    · rw [if_neg hc, if_neg hc, List.forall_mem_append, List.forall_mem_singleton]
      exact ⟨.inl, fun h => h.resolve_right fun hall => hc hall.2.2⟩

/-- A text ends in a macro whatever stands before it. -/
theorem EndsInMacro.append_left {p : List Char} (h : EndsInMacro p) (y : List Char) : EndsInMacro (y ++ p) :=
  (endsInMacro_append y p).mpr (.inl h)

/-- A backslash and letters. -/
theorem endsInMacro_cons {p : List Char} (h : ∀ c ∈ p, c.isAlpha) : EndsInMacro ('\\' :: p) :=
  (endsInMacro_append ['\\'] p).mpr (.inr ⟨by decide, h⟩)

/-- Behind a character that is neither letter nor backslash a text ends in no macro. -/
theorem not_endsInMacro_concat {c : Char} (ha : c.isAlpha = false) (hc : c ≠ '\\') (p : List Char) : ¬EndsInMacro (p ++ [c]) := by
  simp [endsInMacro_concat, ha, hc]

/-- What goes on a text goes on every text that ends in it. -/
theorem GoesOn.append_left {p : List Char} {c : Char} (h : GoesOn p c) (y : List Char) : GoesOn (y ++ p) c := by
  obtain ⟨b, hb, h⟩ := h
  refine ⟨b, ?_, h.imp_right (Or.imp_left (And.imp_right fun hm => hm.append_left y))⟩
  rw [List.getLast?_append, Option.mem_def.mp hb, Option.some_or, Option.mem_some_iff]

/-- What goes on two texts goes on the second one by itself, unless a macro started in the first. -/
theorem GoesOn.of_append {y p : List Char} {c : Char} (h : GoesOn (y ++ p) c) (hp : p ≠ []) (hy : ¬EndsInMacro y) :
    GoesOn p c := by
  obtain ⟨b, hb, h⟩ := h
  rw [List.getLast?_append_of_ne_nil y hp] at hb
  refine ⟨b, hb, h.imp_right (Or.imp_left (And.imp_right fun hm => ?_))⟩
  exact ((endsInMacro_append y p).mp hm).resolve_right fun hall => hy hall.1

/-- Every character goes on a backslash. -/
theorem goesOn_of_backslash {p : List Char} (h : p.getLast? = some '\\') (c : Char) : GoesOn p c := ⟨'\\', h, .inl rfl⟩

/-- A character that goes on nothing but a backslash. -/
theorem GoesOn.backslash {p : List Char} {c : Char} (h : GoesOn p c) (hc : c ∈ ['0', '1', ' ', '!', '(', '<', '\\']) :
    p.getLast? = some '\\' := by
  have htable : ∀ c ∈ ['0', '1', ' ', '!', '(', '<', '\\'], c.isAlpha = false ∧ c.isLower = false ∧
      ∀ o ∈ operatorPairs, o.2 ≠ c := by decide
  obtain ⟨ha, hl, ho⟩ := htable c hc
  obtain ⟨b, hb, rfl | h | h | h⟩ := h
  · exact hb
  · simp [ha] at h
  · simp [hl] at h
  · exact absurd rfl (ho _ h)

/-- A character that nothing goes on. -/
theorem not_goesOn_concat {b : Char} (hb : b ∈ ['0', '1', ' ', ')']) (p : List Char) (c : Char) : ¬GoesOn (p ++ [b]) c := by
  have htable : ∀ b ∈ ['0', '1', ' ', ')'], b.isAlpha = false ∧ b.isLower = false ∧ b ≠ '\\' ∧ ∀ o ∈ operatorPairs, o.1 ≠ b := by
    decide
  obtain ⟨ha, hl, hs, ho⟩ := htable b hb
  rintro ⟨d, hd, h⟩
  rw [List.getLast?_concat, Option.mem_some_iff] at hd
  subst hd
  rcases h with h | h | h | h
  · exact hs h
  · exact not_endsInMacro_concat ha hs p h.2
  · simp [hl] at h
  · exact ho _ h rfl

/-- A text goes on what another ends in exactly if its first character does. -/
theorem joins_cons {p q : List Char} {c : Char} : Joins p (c :: q) ↔ GoesOn p c :=
  ⟨fun ⟨_, hd, h⟩ => by rwa [← Option.some.inj hd] at h, fun h => ⟨c, rfl, h⟩⟩

/-- What goes on a text goes on it whatever stands before. -/
theorem Joins.append_left {p q : List Char} (h : Joins p q) (y : List Char) : Joins (y ++ p) q :=
  h.imp fun _ hc => ⟨hc.1, hc.2.append_left y⟩

/-- Nothing goes on the name of a macro with letters. -/
theorem not_startsWithLetter_of_not_joins {p q : List Char} (h : ¬Joins p q) (hp : EndsInMacro p) : ¬StartsWithLetter q := by
  rintro ⟨c, hc, ha⟩
  refine h ⟨c, hc, ?_⟩
  cases hlast : p.getLast? with
  | none =>
    rw [List.getLast?_eq_none_iff] at hlast
    subst hlast
    exact absurd hp (by decide)
  | some b => exact ⟨b, hlast, .inr (.inl ⟨ha, hp⟩)⟩

/-- The name of a macro stops where two texts meet. -/
theorem takeWhile_isAlpha_append {p q : List Char} (h : EndsInMacro ('\\' :: p) → ¬StartsWithLetter q) :
    (p ++ q).takeWhile Char.isAlpha = p.takeWhile Char.isAlpha :=
  takeWhile_append_of_stop fun hp c hc ha => h (endsInMacro_cons hp) ⟨c, hc, ha⟩

/-! ## Spellings -/

namespace Group

variable {g : Group}

/-- Where a text stands before another one and does not run on in it, a group matches in it whatever it matches by itself. -/
theorem base_append_cases (hg : g ∈ groups) {p : List Char} (hp : p ≠ []) :
    (∃ m r, p = m ++ r ∧ m ≠ [] ∧ ∀ q, (EndsInMacro p → ¬StartsWithLetter q) → g.base (m ++ (r ++ q)) = some m.length) ∨
      ∀ q, (EndsInMacro p → ¬StartsWithLetter q) → g.base (p ++ q) = none := by
  obtain ⟨c, p, rfl⟩ := List.exists_cons_of_ne_nil hp
  by_cases hc : c = '\\'
  · subst hc
    by_cases hname : p.takeWhile Char.isAlpha ≠ [] ∧ isNamed g.names (p.takeWhile Char.isAlpha)
    · refine .inl ⟨'\\' :: p.takeWhile Char.isAlpha, p.dropWhile Char.isAlpha, ?_, by simp, fun q hq => ?_⟩
      · rw [List.cons_append, List.takeWhile_append_dropWhile]
      · rw [List.cons_append, ← List.append_assoc, List.takeWhile_append_dropWhile, base_backslash hg,
          takeWhile_isAlpha_append hq, if_pos hname]
    · exact .inr fun q hq => by rw [List.cons_append, base_backslash hg, takeWhile_isAlpha_append hq, if_neg hname]
  · by_cases hm : g.chars.contains c
    · exact .inl ⟨[c], p, rfl, by simp, fun q _ => by rw [List.singleton_append, base_of_ne hc, if_pos hm]; rfl⟩
    · exact .inr fun q _ => by rw [List.cons_append, base_of_ne hc, if_neg hm]

/-- The native spelling ends in no macro, and nothing goes on it unless it takes the blanks behind it. -/
theorem native_end (hg : g ∈ groups) (y : List Char) :
    ¬EndsInMacro (y ++ g.native) ∧ (g.takesBlanks = false → ∀ c, ¬GoesOn (y ++ g.native) c) := by
  have htable : ∀ g ∈ groups, ∃ s c, g.native = s ++ [c] ∧ c.isAlpha = false ∧ c ≠ '\\' ∧
      (g.takesBlanks = false → c ∈ ['0', '1', ' ', ')']) := by
    simp only [groups, List.forall_mem_cons, List.not_mem_nil, false_imp_iff, implies_true, and_true]
    exact ⟨⟨[], '0', by decide⟩, ⟨[], '1', by decide⟩, ⟨[' ', '|'], ' ', by decide⟩, ⟨[' ', '&'], ' ', by decide⟩,
      ⟨[], '!', by decide⟩, ⟨[' ', '=', '='], ' ', by decide⟩⟩
  obtain ⟨s, c, hs, ha, hc, hend⟩ := htable g hg
  rw [hs, ← List.append_assoc]
  exact ⟨not_endsInMacro_concat ha hc _, fun h => not_goesOn_concat (hend h) _⟩

/-- The first character of a text stays, or one takes its place that goes on nothing but a backslash. -/
theorem exists_replaceMatches_eq_cons (hg : g ∈ groups) (c : Char) (q : List Char) :
    ∃ c' q', replaceMatches g.matcher g.native (c :: q) = c' :: q' ∧ ∀ p, GoesOn p c' → GoesOn p c := by
  rw [replaceMatches, replaceFrom]
  split
  · have htable : ∀ g ∈ groups, ∃ c' ∈ ['0', '1', ' ', '!'], g.native.head? = some c' := by decide
    obtain ⟨c', hc', hhead⟩ := htable g hg
    obtain ⟨r, hr⟩ := List.head?_eq_some_iff.mp hhead
    have hall : ∀ c' ∈ ['0', '1', ' ', '!'], c' ∈ ['0', '1', ' ', '!', '(', '<', '\\'] := by decide
    exact ⟨c', _, by rw [hr]; rfl, fun p h => goesOn_of_backslash (h.backslash (hall c' hc')) c⟩
  · exact ⟨c, _, rfl, fun _ h => h⟩

/-- A text that does not run on in what stands behind it is respelled by itself. What goes on the text that comes out goes on the
text, whatever stands before. A negation at the end of the text takes the blanks that stand behind it. -/
def RespellsApart (g : Group) (p : List Char) : Prop :=
  (∃ p', (∀ y c, GoesOn (y ++ p') c → GoesOn (y ++ p) c) ∧ ∀ q, (EndsInMacro p → ¬StartsWithLetter q) →
    replaceMatches g.matcher g.native (p ++ q) = p' ++ replaceMatches g.matcher g.native q) ∨
  ∃ p', ∀ q, (EndsInMacro p → ¬StartsWithLetter q) →
    replaceMatches g.matcher g.native (p ++ q) = p' ++ replaceMatches g.matcher g.native (q.dropWhile isBlank)

/-- What is respelled by itself behind a text that was written is so together with what was read for that. -/
theorem RespellsApart.prepend {p w r : List Char} (hnamed : EndsInMacro r → EndsInMacro p)
    (hgoes : ∀ y c, GoesOn (y ++ (w ++ r)) c → GoesOn (y ++ p) c)
    (hstep : ∀ q, (EndsInMacro p → ¬StartsWithLetter q) →
      replaceMatches g.matcher g.native (p ++ q) = w ++ replaceMatches g.matcher g.native (r ++ q))
    (h : g.RespellsApart r) : g.RespellsApart p := by
  rcases h with ⟨r', hr, hr'⟩ | ⟨r', hr'⟩
  · refine .inl ⟨w ++ r', fun y c h => hgoes y c ?_, fun q hq => ?_⟩
    · rw [← List.append_assoc] at h ⊢
      exact hr _ c h
    · rw [hstep q hq, hr' q fun hm => hq (hnamed hm), List.append_assoc]
  · exact .inr ⟨w ++ r', fun q hq => by rw [hstep q hq, hr' q fun hm => hq (hnamed hm), List.append_assoc]⟩

/-- Every text that does not run on is respelled by itself. Where a negation at its end takes the blanks behind it, these are all
that is left of the text. -/
theorem respellsApart (hg : g ∈ groups) (p : List Char) : g.RespellsApart p := by
  induction hn : p.length using Nat.strong_induction_on generalizing p with
  | _ n ih =>
    subst hn
    by_cases hp : p = []
    · exact .inl ⟨[], fun y c h => by rwa [hp], fun q _ => by rw [hp]; rfl⟩
    · rcases base_append_cases hg hp with ⟨m, r, rfl, hm, hbase⟩ | hnone
      · have hread : ∀ q, (EndsInMacro (m ++ r) → ¬StartsWithLetter q) → replaceMatches g.matcher g.native (m ++ r ++ q) =
            g.native ++ replaceMatches g.matcher g.native (g.left (r ++ q)) := fun q hq => by
          rw [List.append_assoc]
          exact replaceFrom_of_base hm (hbase q hq)
        by_cases hend : g.takesBlanks ∧ g.left r = []
        · have hr : ∀ c ∈ r, isBlank c := by
            rw [left, if_pos hend.1] at hend
            exact List.dropWhile_eq_nil_iff.mp hend.2
          refine .inr ⟨g.native, fun q hq => ?_⟩
          rw [hread q hq, left, if_pos hend.1, List.dropWhile_append_of_pos hr]
        · have hleft : ∀ q, g.left (r ++ q) = g.left r ++ q := by
            intro q
            unfold left at hend ⊢
            split
            · rename_i htakes
              rw [if_pos htakes] at hend
              rw [List.dropWhile_append, if_neg (by simpa using fun h => hend ⟨htakes, h⟩)]
            · rfl
          have hsplit : m ++ r = (m ++ g.taken r) ++ g.left r := by rw [List.append_assoc, taken_append_left]
          have hlen : (g.left r).length < (m ++ r).length := by
            have := List.length_pos_iff.mpr hm
            rw [hsplit, List.length_append, List.length_append]
            omega
          refine .prepend (w := g.native) (fun h => ?_) (fun y c h => ?_) (fun q hq => ?_) (ih _ hlen _ rfl)
          · rw [hsplit]
            exact h.append_left _
          · rw [← List.append_assoc] at h
            by_cases hr : g.left r = []
            · rw [hr, List.append_nil] at h
              exact absurd h ((native_end hg y).2 (by simpa [hr] using hend) c)
            · rw [hsplit, ← List.append_assoc]
              exact (h.of_append hr (native_end hg y).1).append_left _
          · rw [hread q hq, hleft]
      · obtain ⟨c, p, rfl⟩ := List.exists_cons_of_ne_nil hp
        refine .prepend (w := [c]) (r := p) (fun h => h.append_left [c]) (fun y d h => h) (fun q hq => ?_) (ih _ (by simp) p rfl)
        exact replaceFrom_of_none (matcher_of_base_none (hnone q hq))

end Group

/-- What stands behind a text is respelled by itself, if each group leaves it a text of a kind that starts with neither a letter
nor a blank. -/
theorem exists_respell_append {T : List Char → Prop} (hT : ∀ t, T t → ¬StartsWithLetter t ∧ t.dropWhile isBlank = t ∧
    ∀ g ∈ groups, T (replaceMatches g.matcher g.native t)) (p : List Char) {t : List Char} (h : T t) :
    ∃ p' t', T t' ∧ respell (p ++ t) = p' ++ t' := by
  refine respell_rel (R := fun s _ => ∃ p' t', T t' ∧ s = p' ++ t') ?_ (t := []) ⟨p, t, h, rfl⟩
  rintro g hg _ - ⟨p, t, ht, rfl⟩
  obtain ⟨hletter, hblank, hkept⟩ := hT t ht
  rcases g.respellsApart hg p with ⟨p', -, hp'⟩ | ⟨p', hp'⟩
  · exact ⟨p', _, hkept g hg, hp' t fun _ => hletter⟩
  · exact ⟨p', _, hkept g hg, by rw [hp' t fun _ => hletter, hblank]⟩

/-! ## Lexemes -/

/-- Where nothing goes on, an operator stands in the first of two texts or does not stand there. -/
theorem prefix_append_of_not_joins {o p q : List Char} {b : Char} (ho : List.IsChain (fun b c => (b, c) ∈ operatorPairs) (b :: o))
    (h : ¬Joins (b :: p) q) : o <+: p ++ q ↔ o <+: p := by
  induction o generalizing b p with
  | nil => simp
  | cons d o ih =>
    obtain ⟨hd, ho⟩ := List.isChain_cons_cons.mp ho
    cases p with
    | nil =>
      refine iff_of_false (fun ⟨r, hr⟩ => h ?_) (by simp)
      rw [List.nil_append] at hr
      rw [← hr]
      exact joins_cons.mpr ⟨b, rfl, .inr (.inr (.inr hd))⟩
    | cons e p =>
      rw [List.cons_append, List.cons_prefix_cons, List.cons_prefix_cons]
      refine and_congr_right fun he => ?_
      subst he
      exact ih ho fun hj => h (hj.append_left [b])

namespace Lexeme

/-- A lexeme ends where nothing goes on. A run of one kind behind its first character is not met by the second text. -/
theorem next_append_of_not_joins {c : Char} {p q : List Char} (h : ¬Joins (c :: p) q) (hp : c ≠ '\\' ∨ p ≠ []) :
    next c (p ++ q) = next c p := by
  have hrun : ∀ kind : Char → Bool, (∀ b d, b = c ∨ kind b → kind d → b.isLower ∧ d.isLower ∨ (b, d) ∈ operatorPairs) →
      (p ++ q).takeWhile kind = p.takeWhile kind := by
    intro kind hkind
    refine takeWhile_append_of_stop fun hp d hd hk => h ⟨d, hd, ?_⟩
    obtain ⟨b, hb⟩ : ∃ b, (c :: p).getLast? = some b := ⟨_, List.getLast?_eq_some_getLast (by simp)⟩
    have hb' : b = c ∨ kind b := (List.mem_cons.mp (List.mem_of_getLast? hb)).imp_right fun hm => hp b hm
    exact ⟨b, hb, .inr (.inr (hkind b d hb' hk))⟩
  by_cases hb : isBlank c
  · unfold next
    rw [if_pos hb, if_pos hb]
  · have hb : isBlank c = false := by simpa using hb
    by_cases hs : c = '\\'
    · subst hs
      obtain ⟨d, p, rfl⟩ := List.exists_cons_of_ne_nil (hp.resolve_left fun hne => hne rfl)
      rw [next_of_backslash, next_of_backslash, takeWhile_isAlpha_append (not_startsWithLetter_of_not_joins h)]
      rfl
    · have htwo : ∀ {o}, List.IsChain (fun b c => (b, c) ∈ operatorPairs) (c :: o) → (o <+: p ++ q ↔ o <+: p) :=
        fun ho => prefix_append_of_not_joins ho h
      have hequiv : (c = '<' ∧ (['-', '>'] <+: p ++ q ∨ ['=', '>'] <+: p ++ q)) ↔
          c = '<' ∧ (['-', '>'] <+: p ∨ ['=', '>'] <+: p) := by
        refine and_congr_right fun hc => ?_
        subst hc
        rw [htwo (by decide), htwo (by decide)]
      have harrow : ((c = '-' ∨ c = '=') ∧ ['>'] <+: p ++ q) ↔ (c = '-' ∨ c = '=') ∧ ['>'] <+: p := by
        refine and_congr_right fun hc => ?_
        rcases hc with rfl | rfl <;> exact htwo (by decide)
      have hxor : (c = '!' ∧ ['='] <+: p ++ q) ↔ c = '!' ∧ ['='] <+: p := by
        refine and_congr_right fun hc => ?_
        subst hc
        exact htwo (by decide)
      have hequals : c ∈ ['!', '='] → (p ++ q).takeWhile (· = '=') = p.takeWhile (· = '=') := by
        intro hc
        have htable : ∀ b ∈ ['!', '='], (b, '=') ∈ operatorPairs := by decide
        refine hrun _ fun b d hb hd => .inr ?_
        obtain rfl : d = '=' := by simpa using hd
        rcases hb with rfl | hb
        · exact htable b hc
        · obtain rfl : b = '=' := by simpa using hb
          exact htable '=' (by decide)
      have hlower : c.isLower → (p ++ q).takeWhile Char.isLower = p.takeWhile Char.isLower := fun hc =>
        hrun _ fun b d hb hd => .inl ⟨hb.elim (fun he => he ▸ hc) id, hd⟩
      rw [next_eq hb hs, next_eq hb hs]
      simp only [hequiv, harrow, hxor]
      split_ifs with h1 h2 h3 h4 h5 h6
      · rfl
      · rfl
      · rfl
      · rw [hequals (by simp [h4.1])]
      · rw [hequals (by simp [h5])]
      · rw [hlower h6]
      · rfl

/-- Where nothing goes on, the lexemes of two texts are those of the first and those of the second. -/
theorem lex_append {p q : List Char} (h : ¬Joins p q) : lex (p ++ q) = lex p ++ lex q := by
  by_cases hq : q = []
  · rw [hq, List.append_nil, lex, lex, lexFrom_nil, List.append_nil]
  · unfold lex
    induction hn : p.length using Nat.strong_induction_on generalizing p with
    | _ n ih =>
      subst hn
      cases p with
      | nil => rw [lexFrom_nil, List.nil_append, List.nil_append]
      | cons c p =>
        have hp : c ≠ '\\' ∨ p ≠ [] := by
          by_contra hnot
          obtain ⟨rfl, rfl⟩ : c = '\\' ∧ p = [] := by simpa using hnot
          obtain ⟨d, q, rfl⟩ := List.exists_cons_of_ne_nil hq
          exact h (joins_cons.mpr (goesOn_of_backslash rfl d))
        have hdrop : ¬Joins (p.drop (next c p).2) q := by
          intro hj
          have := hj.append_left (c :: p.take (next c p).2)
          rw [List.cons_append, List.take_append_drop] at this
          exact h this
        rw [List.cons_append, lexFrom_zero_cons, lexFrom_zero_cons, next_append_of_not_joins h hp, lexFrom_eq_drop,
          lexFrom_eq_drop _ p, List.drop_append_of_le_length (next_le hp),
            ih _ (by rw [List.length_drop, List.length_cons]; omega) hdrop rfl, List.append_assoc]

end Lexeme

end Propositional.Latex
