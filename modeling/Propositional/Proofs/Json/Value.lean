import Mathlib.Data.List.Nodup
import Mathlib.Data.Nat.Digits.Defs
import Propositional.Proofs.Json.Text

/-!
# Reading values back

A value that is written is read back, if its texts are strings, its numbers integers and no two fields of one of its objects
have one name (`readWithin_render`). The proof goes along the value. Behind a value that is part of another there is a comma or
the end of the line, which is how the end of a number is found; and each value takes as many characters as the reader may take
steps, since the lines of its parts lie inside its own.
-/

namespace Propositional.Json

/-! ## Blanks -/

@[simp] theorem length_newline (depth : Nat) : (newline depth).length = 2 * depth + 1 := by simp [newline]

/-- A new line is skipped. -/
theorem skipSpace_newline (depth : Nat) (s : List Char) : skipSpace (newline depth ++ s) = skipSpace s := by
  have hspaces : ∀ n, skipSpace (List.replicate n ' ' ++ s) = skipSpace s := by
    intro n
    induction n with
    | zero => rfl
    | succ n ih => exact ih
  exact hspaces _

/-- What is no space is not skipped. -/
theorem skipSpace_cons {c : Char} (h : isSpace c = false) (s : List Char) : skipSpace (c :: s) = c :: s := by
  rw [skipSpace, List.dropWhile_cons_of_neg (by simp [h])]

/-! ## Numbers -/

/-- What is behind a value: nothing, a comma, or the end of the line. -/
def Ends (r : List Char) : Prop := ∀ c ∈ r.head?, c = ',' ∨ c = '\n'

theorem ends_nil : Ends [] := nofun

/-- A value ends before a comma or the end of the line. -/
theorem ends_cons {c : Char} (h : c = ',' ∨ c = '\n') (r : List Char) : Ends (c :: r) := by
  intro d hd
  obtain rfl : c = d := by simpa using hd
  exact h

/-- A value ends before a new line. -/
theorem ends_newline (depth : Nat) (r : List Char) : Ends (newline depth ++ r) := ends_cons (.inr rfl) _

/-- Digits are read back as the number that they write. -/
theorem ofDigits_toDigits (n : Nat) : ofDigits (Nat.toDigits 10 n) = n := by
  have hstep : (fun (n : Nat) (d : Char) => n * 10 + (d.toNat - 48)) = fun n d => 10 * n + (d.toNat - '0'.toNat) := by
    funext n d
    rw [Nat.mul_comm]
    rfl
  rw [ofDigits, hstep]
  exact Nat.ofDigitChars_ten_toDigits

/-- Only zero is written with a zero in front. -/
theorem head?_toDigits {n : Nat} (h : 0 < n) : (Nat.toDigits 10 n).head? ≠ some '0' := by
  induction n using Nat.strongRecOn with
  | ind n ih =>
    by_cases hn : n < 10
    · have hdigit : ∀ m < 10, 0 < m → [m.digitChar].head? ≠ some '0' := by decide
      rw [Nat.toDigits_of_lt_base hn]
      exact hdigit n hn h
    · obtain ⟨d, ds, hds⟩ := List.exists_cons_of_ne_nil (Nat.toDigits_ne_nil (n := n / 10) (b := 10))
      have ih := ih (n / 10) (by omega) (by omega)
      rw [Nat.toDigits_of_base_le (by decide) (by omega), hds]
      rwa [hds] at ih

/-- The digits before the end of a value are all taken. -/
theorem spanDigits_append {ds r : List Char} (hds : ∀ c ∈ ds, c.isDigit) (hr : Ends r) : spanDigits (ds ++ r) = (ds, r) := by
  have hno : ∀ c ∈ r.head?, c.isDigit = false := by
    intro c hc
    rcases hr c hc with rfl | rfl <;> rfl
  rw [spanDigits, List.takeWhile_append_of_pos hds, List.dropWhile_append_of_pos hds]
  cases r with
  | nil => simp
  | cons c r => simp [hno c rfl]

/-- The digits of a number are taken whole. -/
theorem spanWhole_toDigits (n : Nat) {r : List Char} (hr : Ends r) :
    spanWhole (Nat.toDigits 10 n ++ r) = (Nat.toDigits 10 n, r) := by
  have hspan := spanDigits_append (fun c => Nat.isDigit_of_mem_toDigits (b := 10) (n := n) (by decide) (by decide)) hr
  rcases Nat.eq_zero_or_pos n with rfl | hpos
  · rfl
  · obtain ⟨d, ds, hds⟩ := List.exists_cons_of_ne_nil (Nat.toDigits_ne_nil (n := n) (b := 10))
    have hd : d ≠ '0' := by simpa [hds] using head?_toDigits hpos
    rw [← hspan, hds, List.cons_append, spanWhole]
    rintro cs ⟨rfl, -⟩
    exact hd rfl

/-- Where a value ends there is no fraction. -/
theorem readFraction_of_ends {r : List Char} (hr : Ends r) : readFraction r = ([], r) := by
  cases r with
  | nil => rfl
  | cons c r => rcases hr c rfl with rfl | rfl <;> rfl

/-- Where a value ends there is no exponent. -/
theorem readExponent_of_ends {r : List Char} (hr : Ends r) : readExponent r = (none, r) := by
  cases r with
  | nil => rfl
  | cons c r => rcases hr c rfl with rfl | rfl <;> rfl

/-- The digits of a number are read back as the integer, with its sign. -/
theorem readUnsigned_toDigits {limit : Option Nat} {n : Nat} (hn : limit.all ((Nat.toDigits 10 n).length ≤ ·)) {r : List Char}
    (hr : Ends r) (negative : Bool) (start : List Char) :
    readUnsigned limit negative start (Nat.toDigits 10 n ++ r) = .ok (int (Binary64.signed negative n), r) := by
  have hempty : (Nat.toDigits 10 n).isEmpty = false := by simp
  unfold readUnsigned
  simp only [spanWhole_toDigits n hr, hempty, readFraction_of_ends hr, readExponent_of_ends hr, hn, ofDigits_toDigits]
  rfl

/-- A number starts with a digit, hence with nothing else. -/
theorem exists_cons_toDigits (n : Nat) : ∃ d ds, Nat.toDigits 10 n = d :: ds ∧ ∀ c : Char, c.isDigit = false → d ≠ c := by
  obtain ⟨d, ds, hds⟩ := List.exists_cons_of_ne_nil (Nat.toDigits_ne_nil (n := n) (b := 10))
  have hd : d.isDigit := Nat.isDigit_of_mem_toDigits (b := 10) (n := n) (by decide) (by decide) (by simp [hds])
  refine ⟨d, ds, hds, ?_⟩
  rintro c hc rfl
  exact absurd hd (by simp [hc])

/-- An integer is read back from its digits. -/
theorem readScalar_digits {limit : Option Nat} {n : Int} (hn : limit.all ((Nat.toDigits 10 n.natAbs).length ≤ ·)) {r : List Char}
    (hr : Ends r) : readScalar limit (digits n ++ r) = .ok (int n, r) := by
  obtain ⟨d, ds, hds, hno⟩ := exists_cons_toDigits n.natAbs
  unfold digits readScalar
  split_ifs with hneg
  · have hword : words.find? (fun w => w.1.isPrefixOf ('-' :: (Nat.toDigits 10 n.natAbs ++ r))) = none := by
      simp [words, hds, (hno 'I' rfl).symm]
    simp only [List.cons_append, hword, readUnsigned_toDigits hn hr]
    simp only [Binary64.signed, if_true, Except.ok.injEq, Prod.mk.injEq, int.injEq, and_true]
    omega
  · have hword : words.find? (fun w => w.1.isPrefixOf (Nat.toDigits 10 n.natAbs ++ r)) = none := by
      simp [words, hds, (hno 'n' rfl).symm, (hno 't' rfl).symm, (hno 'f' rfl).symm, (hno 'N' rfl).symm, (hno 'I' rfl).symm,
        (hno '-' rfl).symm]
    simp only [hword]
    split
    · rename_i h
      simp [hds, hno '-' rfl] at h
    · rw [readUnsigned_toDigits hn hr]
      simp only [Binary64.signed, Bool.false_eq_true, if_false, Except.ok.injEq, Prod.mk.injEq, int.injEq, and_true]
      omega

/-! ## Lists and objects -/

/-- A text is read back as a value. -/
theorem readValue_text (limit : Option Nat) (fuel : Nat) (s r : List Char) :
    readValue limit (fuel + 1) (renderString s ++ r) = .ok (str (.string (String.ofList s)), r) := by
  have happend : renderString s ++ r = '"' :: (s.flatMap escapeChar ++ '"' :: r) := by simp [renderString]
  rw [happend, readValue, readText_renderString]
  rfl

/-- Behind a bracket that is not closed at once, items are read. -/
theorem readValue_items {limit : Option Nat} {fuel : Nat} {cs : List Char} (h : ∀ r, skipSpace cs ≠ ']' :: r) :
    readValue limit (fuel + 1) ('[' :: cs) = (readItems limit fuel (skipSpace cs)).map fun (xs, r) => (arr xs, r) := by
  rw [readValue]
  split
  · rename_i r hr
    exact absurd hr (h r)
  · rfl

/-- Behind a brace that is not closed at once, fields are read. -/
theorem readValue_fields {limit : Option Nat} {fuel : Nat} {cs : List Char} (h : ∀ r, skipSpace cs ≠ '\x7d' :: r) :
    readValue limit (fuel + 1) ('\x7b' :: cs) =
      (readFields limit fuel (skipSpace cs)).map fun (fs, r) => (obj (ofFields fs), r) := by
  rw [readValue]
  split
  · rename_i r hr
    exact absurd hr (h r)
  · rfl

/-! ## Values -/

/-- A value that is written as it is: its texts are strings, its numbers are integers with no more digits than the limit allows,
and no two fields of one of its objects have one name. -/
inductive Exact (limit : Option Nat) : Json → Prop where
  | null : Exact limit null
  | bool (b : Bool) : Exact limit (bool b)
  | int {n : Int} (h : limit.all ((Nat.toDigits 10 n.natAbs).length ≤ ·)) : Exact limit (int n)
  | str (s : String) : Exact limit (str (.string s))
  | arr {xs : List Json} (h : ∀ x ∈ xs, Exact limit x) : Exact limit (arr xs)
  | obj {fs : List (JsonText × Json)} (hnames : (fs.map Prod.fst).Nodup) (hstrings : ∀ f ∈ fs, ∃ s, f.1 = .string s)
    (h : ∀ f ∈ fs, Exact limit f.2) : Exact limit (obj fs)

variable {limit : Option Nat} {x : Json}

/-- A value starts with no blank, no closing bracket and no mark of byte order. -/
theorem Exact.exists_cons_renderAt (h : Exact limit x) (depth : Nat) :
    ∃ c s, renderAt depth x = c :: s ∧ isSpace c = false ∧ c ≠ ']' ∧ c ≠ '\uFEFF' := by
  cases h with
  | null => exact ⟨'n', _, rfl, rfl, by decide, by decide⟩
  | bool b => cases b with
    | true => exact ⟨'t', _, rfl, rfl, by decide, by decide⟩
    | false => exact ⟨'f', _, rfl, rfl, by decide, by decide⟩
  | @int n h =>
    obtain ⟨d, ds, hds, hno⟩ := exists_cons_toDigits n.natAbs
    rw [renderAt, digits, hds]
    split_ifs
    · exact ⟨'-', _, rfl, rfl, by decide, by decide⟩
    · exact ⟨d, ds, rfl, by simp [isSpace, hno ' ' rfl, hno '\t' rfl, hno '\n' rfl, hno '\r' rfl], hno ']' rfl, hno '\uFEFF' rfl⟩
  | str s => exact ⟨'"', _, rfl, rfl, by decide, by decide⟩
  | @arr xs h => cases xs with
    | nil => exact ⟨'[', _, rfl, rfl, by decide, by decide⟩
    | cons x xs => exact ⟨'[', _, by rw [renderAt], rfl, by decide, by decide⟩
  | @obj fs hnames hstrings h => cases fs with
    | nil => exact ⟨'\x7b', _, rfl, rfl, by decide, by decide⟩
    | cons f fs => exact ⟨'\x7b', _, by rw [renderAt], rfl, by decide, by decide⟩

/-- A value starts with no space. -/
theorem Exact.skipSpace_renderAt (h : Exact limit x) (depth : Nat) (r : List Char) :
    skipSpace (renderAt depth x ++ r) = renderAt depth x ++ r := by
  obtain ⟨c, s, hs, hspace, -⟩ := h.exists_cons_renderAt depth
  rw [hs, List.cons_append, skipSpace_cons hspace]

/-- A value is read back wherever it stands, with as many steps as it has characters. -/
def ReadsBack (limit : Option Nat) (x : Json) : Prop :=
  ∀ (depth fuel : Nat) (r : List Char), (renderAt depth x).length ≤ fuel → Ends r →
    readValue limit fuel (renderAt depth x ++ r) = .ok (x, r)

theorem renderItems_cons_cons (depth : Nat) (x y : Json) (ys : List Json) :
    renderItems depth (x :: y :: ys) = newline depth ++ renderAt depth x ++ ',' :: renderItems depth (y :: ys) := by
  rw [renderItems]
  simp

theorem renderFields_cons_cons (depth : Nat) (n : JsonText) (x : Json) (g : JsonText × Json) (gs : List (JsonText × Json)) :
    renderFields depth ((n, x) :: g :: gs) =
      newline depth ++ renderText n ++ ':' :: ' ' :: (renderAt depth x ++ ',' :: renderFields depth (g :: gs)) := by
  rw [renderFields]
  simp

/-- Items start on a new line with the first of them. -/
theorem exists_renderItems_cons (depth : Nat) (x : Json) (xs : List Json) :
    ∃ t, renderItems depth (x :: xs) = newline depth ++ (renderAt depth x ++ t) := by
  cases xs with
  | nil => exact ⟨[], by simp [renderItems]⟩
  | cons y ys => exact ⟨_, by rw [renderItems_cons_cons, List.append_assoc]⟩

/-- Fields start on a new line with a quotation mark. -/
theorem exists_renderFields_cons (depth : Nat) (f : JsonText × Json) (fs : List (JsonText × Json)) :
    ∃ t, renderFields depth (f :: fs) = newline depth ++ '"' :: t := by
  have hname : ∃ t, renderText f.1 = '"' :: t := by cases f.1 <;> exact ⟨_, rfl⟩
  obtain ⟨t, ht⟩ := hname
  cases fs with
  | nil => exact ⟨_, by rw [renderFields, ht, List.append_assoc, List.cons_append]⟩
  | cons g gs => exact ⟨_, by rw [renderFields_cons_cons, ht, List.append_assoc, List.cons_append]⟩

/-- Items are read back up to the bracket on the line behind them. -/
theorem readItems_renderItems {xs : List Json} (hne : xs ≠ []) (hxs : ∀ x ∈ xs, Exact limit x ∧ ReadsBack limit x)
    {depth fuel : Nat} (hfuel : (renderItems depth xs).length ≤ fuel) (outer : Nat) (r : List Char) :
    readItems limit fuel (skipSpace (renderItems depth xs ++ (newline outer ++ ']' :: r))) = .ok (xs, r) := by
  induction xs generalizing fuel with
  | nil => exact absurd rfl hne
  | cons x xs ih =>
    obtain ⟨hx, hread⟩ := hxs x (by simp)
    cases xs with
    | nil =>
      simp only [renderItems, List.length_append, length_newline] at hfuel
      obtain ⟨fuel, rfl⟩ : ∃ k, fuel = k + 1 := ⟨fuel - 1, by omega⟩
      have hone := hread depth fuel (newline outer ++ ']' :: r) (by omega) (ends_newline _ _)
      rw [renderItems, List.append_assoc, skipSpace_newline, hx.skipSpace_renderAt, readItems, hone]
      simp only [bind, Except.bind, skipSpace_newline]
      rfl
    | cons y ys =>
      simp only [renderItems_cons_cons, List.length_append, List.length_cons, length_newline] at hfuel
      obtain ⟨fuel, rfl⟩ : ∃ k, fuel = k + 1 := ⟨fuel - 1, by omega⟩
      have hone := hread depth fuel (',' :: (renderItems depth (y :: ys) ++ (newline outer ++ ']' :: r))) (by omega)
        (ends_cons (.inl rfl) _)
      have hlength : (renderItems depth (y :: ys)).length ≤ fuel := by omega
      have hrest := ih (by simp) (fun z hz => hxs z (by simp [hz])) hlength
      rw [renderItems_cons_cons]
      simp only [List.append_assoc, List.cons_append, skipSpace_newline, hx.skipSpace_renderAt, readItems, hone]
      simp only [bind, Except.bind, skipSpace_cons (c := ',') rfl, hrest]
      rfl

/-- The colon between a name and its value is read, and the space behind it. -/
theorem readColon_renderAt (h : Exact limit x) (depth : Nat) (r : List Char) :
    readColon (':' :: ' ' :: (renderAt depth x ++ r)) = .ok (renderAt depth x ++ r) :=
  congrArg Except.ok (h.skipSpace_renderAt depth r)

/-- Fields are read back up to the brace on the line behind them. -/
theorem readFields_renderFields {fs : List (JsonText × Json)} (hne : fs ≠ []) (hstrings : ∀ f ∈ fs, ∃ s, f.1 = .string s)
    (hfs : ∀ f ∈ fs, Exact limit f.2 ∧ ReadsBack limit f.2) {depth fuel : Nat} (hfuel : (renderFields depth fs).length ≤ fuel)
    (outer : Nat) (r : List Char) :
    readFields limit fuel (skipSpace (renderFields depth fs ++ (newline outer ++ '\x7d' :: r))) = .ok (fs, r) := by
  induction fs generalizing fuel with
  | nil => exact absurd rfl hne
  | cons f fs ih =>
    obtain ⟨n, x⟩ := f
    obtain ⟨hx, hread⟩ : Exact limit x ∧ ReadsBack limit x := hfs (n, x) (by simp)
    obtain ⟨s, rfl⟩ : ∃ s, n = .string s := hstrings (n, x) (by simp)
    cases fs with
    | nil =>
      simp only [renderFields, List.length_append, List.length_cons, length_newline] at hfuel
      obtain ⟨fuel, rfl⟩ : ∃ k, fuel = k + 1 := ⟨fuel - 1, by omega⟩
      have hone := hread depth fuel (newline outer ++ '\x7d' :: r) (by omega) (ends_newline _ _)
      simp only [renderFields, renderText, renderString, List.append_assoc, List.cons_append, List.nil_append, skipSpace_newline,
        skipSpace_cons (c := '"') rfl, readFields, readText_renderString, bind, Except.bind, readColon_renderAt hx, hone]
      rw [String.ofList_toList]
      rfl
    | cons g gs =>
      simp only [renderFields_cons_cons, List.length_append, List.length_cons, length_newline] at hfuel
      obtain ⟨fuel, rfl⟩ : ∃ k, fuel = k + 1 := ⟨fuel - 1, by omega⟩
      have hone := hread depth fuel (',' :: (renderFields depth (g :: gs) ++ (newline outer ++ '\x7d' :: r))) (by omega)
        (ends_cons (.inl rfl) _)
      have hlength : (renderFields depth (g :: gs)).length ≤ fuel := by omega
      have hrest := ih (by simp) (fun z hz => hstrings z (by simp [hz])) (fun z hz => hfs z (by simp [hz])) hlength
      simp only [renderFields_cons_cons, renderText, renderString, List.append_assoc, List.cons_append, List.nil_append,
        skipSpace_newline, skipSpace_cons (c := '"') rfl, readFields, readText_renderString, bind, Except.bind,
        readColon_renderAt hx, hone, skipSpace_cons (c := ',') rfl, hrest]
      rw [String.ofList_toList]
      rfl

/-! ## Names of fields -/

/-- A field with a new name is set behind the others. -/
theorem setField_of_notMem {name : JsonText} {fs : List (JsonText × Json)} (h : name ∉ fs.map Prod.fst) (value : Json) :
    setField name value fs = fs ++ [(name, value)] := by
  induction fs with
  | nil => rfl
  | cons f fs ih =>
    simp only [List.map_cons, List.mem_cons, not_or] at h
    rw [setField, if_neg (Ne.symm h.1), ih h.2]
    rfl

/-- Fields of different names all count, in their order. -/
theorem ofFields_of_nodup {fs : List (JsonText × Json)} (h : (fs.map Prod.fst).Nodup) : ofFields fs = fs := by
  have hfold : ∀ gs hs : List (JsonText × Json), ((gs ++ hs).map Prod.fst).Nodup →
      hs.foldl (fun fs f => setField f.1 f.2 fs) gs = gs ++ hs := by
    intro gs hs hnames
    induction hs generalizing gs with
    | nil => simp
    | cons f hs ih =>
      have hnew : f.1 ∉ gs.map Prod.fst := by
        rw [List.map_append, List.nodup_append] at hnames
        exact fun hmem => hnames.2.2 _ hmem _ (by simp) rfl
      rw [List.foldl_cons, setField_of_notMem hnew, ih _ (by simpa using hnames)]
      simp
  exact hfold [] fs h

/-! ## Whole values -/

/-- A number is read as one. -/
theorem readValue_digits {n : Int} (hn : limit.all ((Nat.toDigits 10 n.natAbs).length ≤ ·)) (fuel : Nat) {r : List Char}
    (hr : Ends r) : readValue limit (fuel + 1) (digits n ++ r) = .ok (int n, r) := by
  obtain ⟨d, ds, hds, hno⟩ := exists_cons_toDigits n.natAbs
  have hfirst : ∃ c s, digits n ++ r = c :: s ∧ c ≠ '"' ∧ c ≠ '[' ∧ c ≠ '\x7b' := by
    rw [digits, hds]
    split_ifs
    · exact ⟨'-', _, rfl, by decide, by decide, by decide⟩
    · exact ⟨d, _, rfl, hno '"' rfl, hno '[' rfl, hno '\x7b' rfl⟩
  obtain ⟨c, s, hs, hquote, hbracket, hbrace⟩ := hfirst
  rw [← readScalar_digits hn hr, hs, readValue]
  all_goals simp [hquote, hbracket, hbrace]

/-- Every value takes a character, so the reader may always take a step. -/
theorem Exact.readsBack_of_succ (h : Exact limit x)
    (hsucc : ∀ (depth fuel : Nat) (r : List Char), (renderAt depth x).length ≤ fuel + 1 → Ends r →
      readValue limit (fuel + 1) (renderAt depth x ++ r) = .ok (x, r)) : ReadsBack limit x := by
  intro depth fuel r hfuel hr
  obtain ⟨c, s, hs, -⟩ := h.exists_cons_renderAt depth
  have hpos : 0 < fuel := by
    rw [hs, List.length_cons] at hfuel
    omega
  obtain ⟨fuel, rfl⟩ := Nat.exists_eq_add_one.mpr hpos
  exact hsucc depth fuel r hfuel hr

/-- Every exact value is read back, as deep in others as it may be. -/
theorem Exact.readsBack (h : Exact limit x) : ReadsBack limit x := by
  have hx := h
  induction h with
  | null => exact hx.readsBack_of_succ fun _ _ _ _ _ => rfl
  | bool b => cases b <;> exact hx.readsBack_of_succ fun _ _ _ _ _ => rfl
  | int h => exact hx.readsBack_of_succ fun _ fuel _ _ hr => readValue_digits h fuel hr
  | str s =>
    refine hx.readsBack_of_succ fun _ fuel r _ _ => ?_
    rw [renderAt, renderText, readValue_text, String.ofList_toList]
  | @arr xs h ih =>
    cases xs with
    | nil => exact hx.readsBack_of_succ fun _ _ _ _ _ => rfl
    | cons y ys =>
      refine hx.readsBack_of_succ fun depth fuel r hfuel _ => ?_
      simp only [renderAt, List.length_cons, List.length_append] at hfuel
      have hlength : (renderItems (depth + 1) (y :: ys)).length ≤ fuel := by omega
      have hitems := readItems_renderItems (by simp) (fun z hz => ⟨h z hz, ih z hz (h z hz)⟩) hlength depth r
      have hstart : ∀ t, skipSpace (renderItems (depth + 1) (y :: ys) ++ (newline depth ++ ']' :: r)) ≠ ']' :: t := by
        obtain ⟨u, hu⟩ := exists_renderItems_cons (depth + 1) y ys
        obtain ⟨c, s, hs, hspace, hbracket, -⟩ := (h y (by simp)).exists_cons_renderAt (depth + 1)
        intro t
        rw [hu, hs, List.append_assoc, skipSpace_newline]
        simp [skipSpace_cons hspace, hbracket]
      have happend : renderAt depth (.arr (y :: ys)) ++ r =
          '[' :: (renderItems (depth + 1) (y :: ys) ++ (newline depth ++ ']' :: r)) := by simp [renderAt]
      rw [happend, readValue_items hstart, hitems]
      rfl
  | @obj fs hnames hstrings h ih =>
    cases fs with
    | nil => exact hx.readsBack_of_succ fun _ _ _ _ _ => rfl
    | cons f fs =>
      refine hx.readsBack_of_succ fun depth fuel r hfuel _ => ?_
      simp only [renderAt, List.length_cons, List.length_append] at hfuel
      have hlength : (renderFields (depth + 1) (f :: fs)).length ≤ fuel := by omega
      have hfields := readFields_renderFields (by simp) hstrings (fun g hg => ⟨h g hg, ih g hg (h g hg)⟩) hlength depth r
      have hstart : ∀ t, skipSpace (renderFields (depth + 1) (f :: fs) ++ (newline depth ++ '\x7d' :: r)) ≠ '\x7d' :: t := by
        obtain ⟨u, hu⟩ := exists_renderFields_cons (depth + 1) f fs
        intro t
        rw [hu, List.append_assoc, skipSpace_newline]
        simp [skipSpace_cons (c := '"') rfl]
      have happend : renderAt depth (.obj (f :: fs)) ++ r =
          '\x7b' :: (renderFields (depth + 1) (f :: fs) ++ (newline depth ++ '\x7d' :: r)) := by simp [renderAt]
      rw [happend, readValue_fields hstart, hfields]
      simp only [Except.map, ofFields_of_nodup hnames]

/-- A value that is written is read back. -/
theorem readWithin_render (h : Exact limit x) : readWithin limit (renderAt 0 x) = .ok x := by
  obtain ⟨c, s, hs, hspace, -, hmark⟩ := h.exists_cons_renderAt 0
  have hread := h.readsBack 0 (2 * (renderAt 0 x).length + 2) [] (by omega) ends_nil
  rw [List.append_nil] at hread
  have hskip : skipSpace (renderAt 0 x) = renderAt 0 x := by rw [hs, skipSpace_cons hspace]
  rw [readWithin, hskip, hread]
  · rfl
  · rintro cs h
    rw [hs] at h
    exact hmark (List.cons.inj h).1

/-! ## Controls -/

/-- A character that is no control, or the end of a line. -/
def IsPrinted (c : Char) : Prop := 32 ≤ c.toNat ∨ c = '\n'
  deriving Decidable

/-- A new line is printed. -/
theorem isPrinted_newline (depth : Nat) : ∀ c ∈ newline depth, IsPrinted c := by
  rw [newline, List.forall_mem_cons]
  refine ⟨by decide, fun c hc => ?_⟩
  rw [List.eq_of_mem_replicate hc]
  decide

/-- A text is printed. -/
theorem isPrinted_renderString (s : List Char) : ∀ c ∈ renderString s, IsPrinted c := by
  rw [renderString, List.forall_mem_cons, List.forall_mem_append]
  refine ⟨by decide, fun c hc => ?_, by decide⟩
  obtain ⟨d, -, hc⟩ := List.mem_flatMap.mp hc
  exact .inl (le_toNat_of_mem_escapeChar hc)

/-- The digits of an integer are printed. -/
theorem isPrinted_digits (n : Int) : ∀ c ∈ digits n, IsPrinted c := by
  have hdigits : ∀ c ∈ Nat.toDigits 10 n.natAbs, IsPrinted c := by
    intro c hc
    have hdigit : c.isDigit := Nat.isDigit_of_mem_toDigits (by decide) (by decide) hc
    simp only [Char.isDigit, Bool.and_eq_true, decide_eq_true_eq] at hdigit
    exact .inl (Nat.le_trans (by decide) hdigit.1)
  unfold digits
  split_ifs
  · exact List.forall_mem_cons.mpr ⟨by decide, hdigits⟩
  · exact hdigits

/-- Items are printed if each of them is. -/
theorem isPrinted_renderItems {depth : Nat} {xs : List Json} (h : ∀ x ∈ xs, ∀ c ∈ renderAt depth x, IsPrinted c) :
    ∀ c ∈ renderItems depth xs, IsPrinted c := by
  induction xs with
  | nil => nofun
  | cons x xs ih =>
    rw [List.forall_mem_cons] at h
    cases xs with
    | nil =>
      rw [renderItems, List.forall_mem_append]
      exact ⟨isPrinted_newline depth, h.1⟩
    | cons y ys =>
      rw [renderItems_cons_cons, List.forall_mem_append, List.forall_mem_append, List.forall_mem_cons]
      exact ⟨⟨isPrinted_newline depth, h.1⟩, by decide, ih h.2⟩

/-- Fields are printed if their names are strings and their values are printed. -/
theorem isPrinted_renderFields {depth : Nat} {fs : List (JsonText × Json)} (hstrings : ∀ f ∈ fs, ∃ s, f.1 = .string s)
    (h : ∀ f ∈ fs, ∀ c ∈ renderAt depth f.2, IsPrinted c) : ∀ c ∈ renderFields depth fs, IsPrinted c := by
  induction fs with
  | nil => nofun
  | cons f fs ih =>
    rw [List.forall_mem_cons] at h hstrings
    obtain ⟨n, x⟩ := f
    obtain ⟨s, rfl⟩ : ∃ s, n = .string s := hstrings.1
    have hname : ∀ c ∈ newline depth ++ renderText (.string s), IsPrinted c :=
      List.forall_mem_append.mpr ⟨isPrinted_newline depth, isPrinted_renderString _⟩
    cases fs with
    | nil =>
      rw [renderFields, List.forall_mem_append, List.forall_mem_cons, List.forall_mem_cons]
      exact ⟨hname, by decide, by decide, h.1⟩
    | cons g gs =>
      have hvalue : ∀ c ∈ renderAt depth x ++ ',' :: renderFields depth (g :: gs), IsPrinted c := by
        rw [List.forall_mem_append, List.forall_mem_cons]
        exact ⟨h.1, by decide, ih hstrings.2 h.2⟩
      rw [renderFields_cons_cons, List.forall_mem_append, List.forall_mem_cons, List.forall_mem_cons]
      exact ⟨hname, by decide, by decide, hvalue⟩

/-- Of all controls, only the line feed stands in what an exact value is written as. -/
theorem Exact.isPrinted (h : Exact limit x) (depth : Nat) : ∀ c ∈ renderAt depth x, IsPrinted c := by
  induction h generalizing depth with
  | null => exact (by decide : ∀ c ∈ ['n', 'u', 'l', 'l'], IsPrinted c)
  | bool b =>
    have hwords : ∀ b : Bool, ∀ c ∈ renderAt 0 (.bool b), IsPrinted c := by decide
    exact hwords b
  | int h => exact isPrinted_digits _
  | str s => exact isPrinted_renderString _
  | @arr xs h ih =>
    cases xs with
    | nil => exact (by decide : ∀ c ∈ ['[', ']'], IsPrinted c)
    | cons y ys =>
      rw [renderAt, List.forall_mem_cons, List.forall_mem_append, List.forall_mem_append]
      exact ⟨by decide, ⟨isPrinted_renderItems fun z hz => ih z hz (depth + 1), isPrinted_newline depth⟩, by decide⟩
  | @obj fs hnames hstrings h ih =>
    cases fs with
    | nil => exact (by decide : ∀ c ∈ ['\x7b', '\x7d'], IsPrinted c)
    | cons f fs =>
      rw [renderAt, List.forall_mem_cons, List.forall_mem_append, List.forall_mem_append]
      exact ⟨by decide, ⟨isPrinted_renderFields hstrings fun g hg => ih g hg (depth + 1), isPrinted_newline depth⟩, by decide⟩

end Propositional.Json
