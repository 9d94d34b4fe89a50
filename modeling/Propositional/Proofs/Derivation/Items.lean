import Propositional.Derivation.Layout
import Propositional.Proofs.Latex.Respelling
import Propositional.Proofs.Text.Lines

/-!
# Items of a laid out text

A derivation as it is laid out is a sequence of items: characters, the macros of its formulas, and what belongs to the layout.
`clean` takes out one kind of layout after the other. Each pass finds the items of its kind and nothing else, whatever the notes
hold and wherever a macro of a formula starts like one of the layout, as `\leftrightarrow` and `\left` do; and taking items out
joins no two others to something new, as nothing that starts with a backslash has a letter behind it (`clean_textOf`).
-/

namespace Propositional.Derivation

open Text Latex

/-- The items that a derivation is laid out with. -/
inductive Item where
  | char (c : Char)
  | named (name : List Char)
  | sizing (name : List Char)
  | note (content : List Char)
  | lineBreak
  deriving DecidableEq

/-- The names that open a group of the layout. -/
def groupNames : List String := ["text", "textrm", "textbf", "textit", "begin", "end"]

/-- The names of the macros that adjust the size of brackets. -/
def sizeNames : List String := ["left", "right", "bigl", "bigr", "Bigl", "Bigr", "big", "Big"]

/-- A name of letters that neither starts like one that opens a group, nor is that of a space. -/
def isMacroName (name : List Char) : Bool :=
  !name.isEmpty && name.all Char.isAlpha && groupNames.all (fun w => !w.toList.isPrefixOf name) &&
    !isNamed ["qquad", "quad"] name

namespace Item

/-- The text of an item. -/
def text : Item → List Char
  | char c => [c]
  | named name => '\\' :: name
  | sizing name => '\\' :: name
  | note content => "\\text\x7b".toList ++ content ++ ['}']
  | lineBreak => ['\\', '\\']

/-- An item is what it is taken for. -/
def IsSound : Item → Prop
  | char c => c ≠ '\\'
  | named name => isMacroName name ∧ isNamed sizeNames name = false
  | sizing name => isMacroName name ∧ isNamed sizeNames name
  | note content => '}' ∉ content
  | lineBreak => True

/-- The item starts with a backslash. -/
def isMarked : Item → Bool
  | char _ => false
  | _ => true

/-- The item is no layout, but for the marks of one character. -/
def isContent : Item → Bool
  | char _ | named _ => true
  | _ => false

end Item

/-- The text of a list of items. -/
def textOf (is : List Item) : List Char := is.flatMap Item.text

theorem textOf_append (is js : List Item) : textOf (is ++ js) = textOf is ++ textOf js := List.flatMap_append

theorem textOf_cons (i : Item) (is : List Item) : textOf (i :: is) = i.text ++ textOf is := rfl

/-- Characters as items are their text. -/
theorem textOf_map_char (s : List Char) : textOf (s.map .char) = s := by
  induction s with
  | nil => rfl
  | cons c s ih => rw [List.map_cons, textOf_cons, ih]; rfl

/-- Before the text `rest`, no item that starts with a backslash has a letter behind it. -/
def Calm (rest : List Char) : List Item → Prop
  | [] => True
  | i :: is => (i.isMarked → ¬StartsWithLetter (textOf is ++ rest)) ∧ Calm rest is

/-- Items are calm together if each part is calm before what follows it. -/
theorem Calm.append {rest : List Char} {is js : List Item} (hi : Calm (textOf js ++ rest) is) (hj : Calm rest js) :
    Calm rest (is ++ js) := by
  induction is with
  | nil => exact hj
  | cons i is ih =>
    refine ⟨fun hm => ?_, ih hi.2⟩
    show ¬StartsWithLetter (textOf (is ++ js) ++ rest)
    rw [textOf_append, List.append_assoc]
    exact hi.1 hm

/-- Characters as items are calm before every text. -/
theorem calm_map_char (rest s : List Char) : Calm rest (s.map .char) := by
  induction s with
  | nil => trivial
  | cons c s ih => exact ⟨nofun, ih⟩

section Filter

variable {keep : Item → Bool} (hkeep : ∀ c, keep (.char c)) {rest : List Char} {is : List Item}

include hkeep

/-- Items from which some are taken out start with a letter only if they did so before. The first item stays then, and so does the
first character. -/
theorem Calm.startsWithLetter_filter (h : Calm rest is) (hl : StartsWithLetter (textOf (is.filter keep) ++ rest)) :
    StartsWithLetter (textOf is ++ rest) := by
  induction is with
  | nil => exact hl
  | cons i is ih =>
    rw [List.filter_cons] at hl
    split at hl
    · have hne : ∃ c p, i.text = c :: p := by cases i <;> exact ⟨_, _, rfl⟩
      obtain ⟨c, p, hc⟩ := hne
      obtain ⟨d, hd, ha⟩ := hl
      rw [textOf_cons, hc] at hd ⊢
      exact ⟨d, hd, ha⟩
    · rename_i hi
      have hm : i.isMarked := by
        cases i with
        | char c => exact absurd (hkeep c) hi
        | _ => rfl
      exact absurd (ih h.2 hl) (h.1 hm)

/-- Taking out items that start with a backslash puts no letter behind another one. -/
theorem Calm.filter (h : Calm rest is) : Calm rest (is.filter keep) := by
  induction is with
  | nil => trivial
  | cons i is ih =>
    rw [List.filter_cons]
    split
    · exact ⟨fun hm hl => h.1 hm (h.2.startsWithLetter_filter hkeep hl), ih h.2⟩
    · exact ih h.2

end Filter

/-! ## One pass -/

/-- A matcher that finds nothing but what starts with a backslash. -/
def IsMarking (m : Matcher) : Prop := ∀ c s, c ≠ '\\' → m (c :: s) = none

/-- The pass leaves the item as it is, before any text that does not start with a letter. -/
def Passes (m : Matcher) (i : Item) : Prop :=
  ∀ s, ¬StartsWithLetter s → ∀ new, replaceFrom m new 0 (i.text ++ s) = i.text ++ replaceFrom m new 0 s

/-- The pass replaces the item. -/
def Drops (m : Matcher) (i : Item) : Prop :=
  ∀ s, ¬StartsWithLetter s → ∀ new, replaceFrom m new 0 (i.text ++ s) = new ++ replaceFrom m new 0 s

/-- A pass takes out the items that it does not keep. -/
theorem replaceMatches_textOf {m : Matcher} {new : List Char} (hm : IsMarking m) {keep : Item → Bool}
    (hkeep : ∀ c, keep (.char c)) {is : List Item} (hsound : ∀ i ∈ is, i.IsSound) (hcalm : Calm [] is)
    (hpass : ∀ i ∈ is, i.isMarked → keep i ∧ Passes m i ∨ keep i = false ∧ new = [] ∧ Drops m i) :
    replaceMatches m new (textOf is) = textOf (is.filter keep) := by
  unfold replaceMatches
  induction is with
  | nil => rfl
  | cons i is ih =>
    have ih := ih (fun j hj => hsound j (List.mem_cons_of_mem i hj)) hcalm.2 fun j hj => hpass j (List.mem_cons_of_mem i hj)
    rw [textOf_cons, List.filter_cons]
    cases hi : i.isMarked with
    | true =>
      have hs : ¬StartsWithLetter (textOf is) := by simpa using hcalm.1 hi
      rcases hpass i List.mem_cons_self hi with ⟨hk, hitem⟩ | ⟨hk, hnew, hitem⟩
      · rw [if_pos hk, hitem _ hs, ih, textOf_cons]
      · rw [if_neg (by simp [hk]), hitem _ hs, ih, hnew, List.nil_append]
    | false =>
      cases i with
      | char c =>
        have hc : c ≠ '\\' := hsound (.char c) List.mem_cons_self
        rw [if_pos (hkeep c), textOf_cons, ← ih]
        exact replaceFrom_of_none (hm c _ hc)
      | _ => cases hi

/-- A pass that keeps all items changes nothing. -/
theorem replaceMatches_textOf_eq_self {m : Matcher} (hm : IsMarking m) (new : List Char) {is : List Item}
    (hsound : ∀ i ∈ is, i.IsSound) (hcalm : Calm [] is) (hpass : ∀ i ∈ is, i.isMarked → Passes m i) :
    replaceMatches m new (textOf is) = textOf is := by
  have hall : replaceMatches m new (textOf is) = textOf (is.filter fun _ => true) :=
    replaceMatches_textOf hm (fun _ => rfl) hsound hcalm fun i hi hmark => .inl ⟨rfl, hpass i hi hmark⟩
  rwa [List.filter_eq_self.mpr fun _ _ => rfl] at hall

/-- A macro at whose backslash nothing is found stays. -/
theorem passes_of_none {m : Matcher} (hm : IsMarking m) {i : Item} {name : List Char} (hi : i.text = '\\' :: name)
    (hn : '\\' ∉ name) (h : ∀ s, ¬StartsWithLetter s → m ('\\' :: (name ++ s)) = none) : Passes m i := by
  intro s hs new
  rw [hi]
  refine replaceFrom_append_of_none fun a c b he => ?_
  rcases List.cons_eq_append_iff.mp he with ⟨rfl, hb⟩ | ⟨a', rfl, hb⟩
  · obtain ⟨rfl, rfl⟩ := List.cons.inj hb
    exact h s hs
  · refine hm c _ ?_
    rintro rfl
    exact hn (by simp [hb])

/-- What is found at the backslash of an item is replaced. -/
theorem drops_of_match {m : Matcher} {i : Item} (h : ∀ s, ¬StartsWithLetter s → m (i.text ++ s) = some i.text.length) :
    Drops m i := by
  intro s hs new
  refine replaceFrom_of_match ?_ (h s hs)
  cases i <;> exact List.cons_ne_nil _ _

/-! ## Which items each pass finds -/

/-- What makes a name that of a macro the layout does not open groups or spaces with. -/
theorem isMacroName_iff {name : List Char} : isMacroName name ↔ name ≠ [] ∧ (∀ c ∈ name, c.isAlpha) ∧
    (∀ w ∈ groupNames, w.toList.isPrefixOf name = false) ∧ isNamed ["qquad", "quad"] name = false := by
  simp only [isMacroName, Bool.and_eq_true, Bool.not_eq_true', List.isEmpty_eq_false_iff, List.all_eq_true, and_assoc, ne_eq]

/-- A name of letters has no backslash in it. -/
theorem backslash_notMem {name : List Char} (h : ∀ c ∈ name, c.isAlpha) : '\\' ∉ name :=
  fun hm => absurd (h _ hm) (by decide)

/-- A word of letters does not go on behind a name. -/
theorem isPrefixOf_of_append {w name s : List Char} (hw : ∀ c ∈ w, c.isAlpha) (hs : ¬StartsWithLetter s)
    (h : w.isPrefixOf (name ++ s)) : w.isPrefixOf name := by
  rw [List.isPrefixOf_iff_prefix] at h ⊢
  rcases List.prefix_or_prefix_of_prefix h (List.prefix_append name s) with h' | ⟨r, rfl⟩
  · exact h'
  · rw [List.prefix_append_right_inj] at h
    cases r with
    | nil => simp
    | cons c r =>
      obtain ⟨t, rfl⟩ := h
      exact absurd ⟨c, rfl, hw c (by simp)⟩ hs

section Braced

variable {openings : List String} {inside : Char → Bool} {allowEmpty : Bool}
  (ho : ∀ o ∈ openings, ∃ w ∈ groupNames, o.toList = '\\' :: w.toList)

include ho

/-- A group of the layout starts with a backslash. -/
theorem isMarking_bracedMatcher : IsMarking (bracedMatcher openings inside allowEmpty) := by
  intro c s hc
  unfold bracedMatcher
  rw [List.findSome?_eq_none_iff]
  intro o h
  obtain ⟨w, -, hw⟩ := ho o h
  have hne : ('\\' == c) = false := by simpa using hc.symm
  simp [literal, hw, List.isPrefixOf, hne]

/-- No group of the layout starts with a macro of another name. -/
theorem bracedMatcher_eq_none {name s : List Char} (hn : ∀ w ∈ groupNames, w.toList.isPrefixOf name = false)
    (hs : ¬StartsWithLetter s) : bracedMatcher openings inside allowEmpty ('\\' :: (name ++ s)) = none := by
  unfold bracedMatcher
  rw [List.findSome?_eq_none_iff]
  intro o h
  obtain ⟨w, hw, he⟩ := ho o h
  have hletters : ∀ w ∈ groupNames, ∀ c ∈ w.toList, c.isAlpha := by decide
  have hnone : w.toList.isPrefixOf (name ++ s) = false := by
    rw [Bool.eq_false_iff]
    intro hp
    have := isPrefixOf_of_append (hletters w hw) hs hp
    rw [hn w hw] at this
    cases this
  simp [literal, he, hnone]

/-- Macros and line breaks open no group. -/
theorem passes_bracedMatcher {i : Item} (hi : i.IsSound) (hm : i.isMarked) (hnote : ∀ n, i ≠ .note n) :
    Passes (bracedMatcher openings inside allowEmpty) i := by
  have hmarking : IsMarking (bracedMatcher openings inside allowEmpty) := isMarking_bracedMatcher ho
  have hname : ∀ {name}, i.text = '\\' :: name → isMacroName name → Passes (bracedMatcher openings inside allowEmpty) i := by
    intro name ht hn
    obtain ⟨-, hletters, hfree, -⟩ := isMacroName_iff.mp hn
    exact passes_of_none hmarking ht (backslash_notMem hletters) fun s hs => bracedMatcher_eq_none ho hfree hs
  cases i with
  | char c => cases hm
  | named name => exact hname rfl hi.1
  | sizing name => exact hname rfl hi.1
  | note n => exact absurd rfl (hnote n)
  | lineBreak =>
    intro s hs new
    have hfirst : bracedMatcher openings inside allowEmpty ('\\' :: (['\\'] ++ s)) = none :=
      bracedMatcher_eq_none ho (by decide) hs
    have hsecond : bracedMatcher openings inside allowEmpty ('\\' :: ([] ++ s)) = none :=
      bracedMatcher_eq_none ho (by decide) hs
    rw [show Item.lineBreak.text ++ s = '\\' :: '\\' :: s from rfl]
    exact (replaceFrom_of_none hfirst).trans (congrArg ('\\' :: ·) (replaceFrom_of_none hsecond))

end Braced

/-- The openings of notes are macros that open groups. -/
theorem note_openings : ∀ o ∈ ["\\text", "\\textrm", "\\textbf", "\\textit"], ∃ w ∈ groupNames, o.toList = '\\' :: w.toList := by
  decide

/-- The openings of environments are macros that open groups. -/
theorem environment_openings : ∀ o ∈ ["\\begin", "\\end"], ∃ w ∈ groupNames, o.toList = '\\' :: w.toList := by
  decide

/-- What stands behind the first opening and is a group in braces is matched. -/
theorem bracedMatcher_of_opening {o : String} {openings : List String} {inside : Char → Bool} {allowEmpty : Bool}
    {s : List Char} {n : Nat} (hs : s.head? = some '{') (hn : bracedLength? inside allowEmpty s = some n) :
    bracedMatcher (o :: openings) inside allowEmpty (o.toList ++ s) = some (o.toList.length + n) := by
  have hliteral : literal o.toList (o.toList ++ s) = some o.toList.length :=
    if_pos (List.isPrefixOf_iff_prefix.mpr (List.prefix_append _ _))
  have hblanks : s.takeWhile isBlank = [] := by
    cases s with
    | nil => rfl
    | cons c s =>
      obtain rfl : c = '{' := by simpa using hs
      rw [List.takeWhile_cons, if_neg (by decide)]
  unfold bracedMatcher
  rw [List.findSome?_cons, hliteral]
  simp only [List.drop_left, hblanks, List.length_nil, Nat.add_zero, hn, Option.map_some]

/-- How a note is written before a text. -/
theorem text_note (content s : List Char) :
    (Item.note content).text ++ s = "\\text".toList ++ '{' :: (content ++ '}' :: s) := by
  show ['\\', 't', 'e', 'x', 't', '\x7b'] ++ content ++ ['}'] ++ s = _
  simp

/-- The length of a note. -/
theorem length_text_note (content : List Char) :
    (Item.note content).text.length = "\\text".toList.length + (content.length + 2) := by
  show (['\\', 't', 'e', 'x', 't', '\x7b'] ++ content ++ ['}']).length = 5 + (content.length + 2)
  simp
  omega

/-- A note ends at its first brace. -/
theorem drops_note {content : List Char} (h : '}' ∉ content) : Drops Derivation.note (.note content) := by
  refine drops_of_match fun s _ => ?_
  have hcontent : (content ++ '}' :: s).takeWhile (· != '}') = content := by
    have hne : ∀ c ∈ content, (c != '}') = true := fun c hc => by
      rw [bne_iff_ne]
      rintro rfl
      exact h hc
    rw [List.takeWhile_append_of_pos hne]
    simp
  have hbraced : bracedLength? (· != '}') true ('{' :: (content ++ '}' :: s)) = some (content.length + 2) := by
    simp [bracedLength?, hcontent]
  rw [text_note, length_text_note]
  exact bracedMatcher_of_opening rfl hbraced

/-- A line break starts with a backslash. -/
theorem isMarking_lineBreak : IsMarking (literal ['\\', '\\']) := by
  intro c s hc
  have hne : ('\\' == c) = false := by simpa using hc.symm
  simp [literal, List.isPrefixOf, hne]

/-- The pass for line breaks replaces them. -/
theorem drops_lineBreak : Drops (literal ['\\', '\\']) .lineBreak := by
  refine drops_of_match fun s _ => ?_
  exact if_pos (List.isPrefixOf_iff_prefix.mpr (List.prefix_append ['\\', '\\'] s))

/-- A macro is no line break, as a letter stands behind its backslash. -/
theorem passes_lineBreak {i : Item} {name : List Char} (hi : i.text = '\\' :: name) (hn : isMacroName name) :
    Passes (literal ['\\', '\\']) i := by
  obtain ⟨hne, hletters, -⟩ := isMacroName_iff.mp hn
  refine passes_of_none isMarking_lineBreak hi (backslash_notMem hletters) fun s _ => ?_
  cases name with
  | nil => exact absurd rfl hne
  | cons c name =>
    have hc : ('\\' == c) = false := by
      simpa using fun he : '\\' = c => absurd (hletters c List.mem_cons_self) (by rw [← he]; decide)
    simp [literal, List.isPrefixOf, hc]

/-- A macro starts with a backslash. -/
theorem isMarking_macroMatcher (names : List String) : IsMarking (macroMatcher names) := fun _ s hc => macroMatcher_of_ne hc s

/-- The pass for sized brackets leaves other macros as they are. -/
theorem passes_sizing {name : List Char} (h : (Item.named name).IsSound) : Passes Derivation.sizing (.named name) := by
  obtain ⟨hname, hsize⟩ := h
  obtain ⟨hne, hletters, -⟩ := isMacroName_iff.mp hname
  refine passes_of_none (isMarking_macroMatcher _) rfl (backslash_notMem hletters) fun s hs => ?_
  exact (macroMatcher_of_name hne hletters hs).trans (if_neg (Bool.eq_false_iff.mp hsize))

/-- The pass for sized brackets replaces the macros that size them. -/
theorem drops_sizing {name : List Char} (h : (Item.sizing name).IsSound) : Drops Derivation.sizing (.sizing name) := by
  obtain ⟨hname, hsize⟩ := h
  obtain ⟨hne, hletters, -⟩ := isMacroName_iff.mp hname
  refine drops_of_match fun s hs => ?_
  exact (macroMatcher_of_name hne hletters hs).trans (if_pos hsize)

/-- A space of the layout starts with a backslash. -/
theorem isMarking_spacing : IsMarking spacing := by
  intro c s hc
  unfold spacing either
  rw [macroMatcher_of_ne hc, Option.none_or]
  dsimp only
  split
  · rename_i he
    exact absurd (List.cons.inj he).1 hc
  · rfl

/-- The pass for spaces leaves other macros as they are. -/
theorem passes_spacing {name : List Char} (h : (Item.named name).IsSound) : Passes spacing (.named name) := by
  obtain ⟨hne, hletters, -, hspace⟩ := isMacroName_iff.mp h.1
  refine passes_of_none isMarking_spacing rfl (backslash_notMem hletters) fun s hs => ?_
  have hword : macroMatcher ["qquad", "quad"] ('\\' :: (name ++ s)) = none :=
    (macroMatcher_of_name hne hletters hs).trans (if_neg (Bool.eq_false_iff.mp hspace))
  unfold spacing either
  rw [hword, Option.none_or]
  cases name with
  | nil => exact absurd rfl hne
  | cons c name =>
    have hc : ∀ d : Char, d.isAlpha = false → c ≠ d := fun d hd => ne_of_holds (hletters c List.mem_cons_self) hd
    simp [hc ',' (by decide), hc ';' (by decide), hc ':' (by decide)]

/-! ## All passes -/

/-- A character that stays. -/
def isLasting (c : Char) : Bool := c != '$' && c != '&'

/-- A text of items is cleaned by taking out the layout, and then what is blank. One pass after the other takes out its kind of
items: notes, line breaks, sizes and spaces. -/
theorem clean_textOf {is : List Item} (hsound : ∀ i ∈ is, i.IsSound) (hcalm : Calm [] is) :
    clean (textOf is) = trimLines ((textOf (is.filter Item.isContent)).filter isLasting) := by
  obtain ⟨js, hjs⟩ : ∃ js, js = is.filter fun i => !(i matches .note _) := ⟨_, rfl⟩
  obtain ⟨ks, hks⟩ : ∃ ks, ks = js.filter fun i => !(i matches .lineBreak) := ⟨_, rfl⟩
  have hj : ∀ j ∈ js, j.IsSound ∧ ∀ n, j ≠ .note n := by
    intro j hj
    rw [hjs, List.mem_filter] at hj
    refine ⟨hsound j hj.1, ?_⟩
    rintro n rfl
    simp at hj
  have hk : ∀ k ∈ ks, k.IsSound ∧ (∀ n, k ≠ .note n) ∧ k ≠ .lineBreak := by
    intro k hk
    rw [hks, List.mem_filter] at hk
    obtain ⟨hs, hn⟩ := hj k hk.1
    refine ⟨hs, hn, ?_⟩
    rintro rfl
    simp at hk
  have hcalmj : Calm [] js := hjs ▸ hcalm.filter fun c => rfl
  have hcalmk : Calm [] ks := hks ▸ hcalmj.filter fun c => rfl
  have hcontent : ks.filter Item.isContent = is.filter Item.isContent := by
    rw [hks, hjs, List.filter_filter, List.filter_filter]
    exact List.filter_congr fun i _ => by cases i <;> rfl
  have hnote : replaceMatches note [] (textOf is) = textOf js := by
    rw [hjs]
    refine replaceMatches_textOf (isMarking_bracedMatcher note_openings) (fun c => rfl) hsound hcalm fun i hi hm => ?_
    cases i with
    | note n => exact .inr ⟨rfl, rfl, drops_note (hsound _ hi)⟩
    | _ => exact .inl ⟨rfl, passes_bracedMatcher note_openings (hsound _ hi) hm (by simp)⟩
  have henv : replaceMatches environment [] (textOf js) = textOf js :=
    replaceMatches_textOf_eq_self (isMarking_bracedMatcher environment_openings) [] (fun j h => (hj j h).1) hcalmj
      fun j h hm => passes_bracedMatcher environment_openings (hj j h).1 hm (hj j h).2
  have hbreak : replaceMatches (literal ['\\', '\\']) [] (textOf js) = textOf ks := by
    rw [hks]
    refine replaceMatches_textOf isMarking_lineBreak (fun c => rfl) (fun j h => (hj j h).1) hcalmj fun j h hm => ?_
    obtain ⟨hs, hn⟩ := hj j h
    cases j with
    | char c => cases hm
    | note n => exact absurd rfl (hn n)
    | lineBreak => exact .inr ⟨rfl, rfl, drops_lineBreak⟩
    | named name => exact .inl ⟨rfl, passes_lineBreak rfl hs.1⟩
    | sizing name => exact .inl ⟨rfl, passes_lineBreak rfl hs.1⟩
  have hsize : replaceMatches sizing [] (textOf ks) = textOf (is.filter Item.isContent) := by
    rw [← hcontent]
    refine replaceMatches_textOf (isMarking_macroMatcher _) (fun c => rfl) (fun k h => (hk k h).1) hcalmk fun k h hm => ?_
    obtain ⟨hs, hn, hl⟩ := hk k h
    cases k with
    | char c => cases hm
    | note n => exact absurd rfl (hn n)
    | lineBreak => exact absurd rfl hl
    | named name => exact .inl ⟨rfl, passes_sizing hs⟩
    | sizing name => exact .inr ⟨rfl, rfl, drops_sizing hs⟩
  have hspace : replaceMatches spacing [' '] (textOf (is.filter Item.isContent)) = textOf (is.filter Item.isContent) := by
    refine replaceMatches_textOf_eq_self isMarking_spacing [' '] (fun i h => hsound i (List.mem_filter.mp h).1)
      (hcalm.filter fun c => rfl) fun i h hm => ?_
    obtain ⟨hi, hc⟩ := List.mem_filter.mp h
    cases i with
    | char c => cases hm
    | named name => exact passes_spacing (hsound _ hi)
    | _ => cases hc
  unfold clean
  simp only [hnote, henv, hbreak, hsize, hspace]
  rfl

end Propositional.Derivation
