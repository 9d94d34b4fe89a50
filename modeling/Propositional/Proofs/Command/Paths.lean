import Propositional.Command
import Propositional.Proofs.Json.Text
import Propositional.Proofs.Text.Decoding
import Propositional.Proofs.Text.Joining
import Propositional.Proofs.Text.Lines

/-!
# Paths to files

The bytes of a file are read to the text that they write and to no other (`textOfBytes_eq_ok_iff`). A file that is put into a
tree under a plain name is read back under that name (`read_ofFiles`). The path to a derivation is cleaned of the parts that
lead nowhere before it is read, and this loses no file: what a path leads to, the cleaned path leads to as well
(`read_cleanPath`), so the text that is checked is that of the file named (`derivationText_of_read`).
-/

namespace Propositional

/-- A file is read to a text exactly if its bytes are those of the text. -/
theorem textOfBytes_eq_ok_iff {bytes : List UInt8} {text : String} :
    textOfBytes bytes = .ok text ↔ bytes = Text.encode text.toList := by
  rw [textOfBytes, ← Text.decode_eq_ok_iff]
  cases Text.decode bytes with
  | error f => simp
  | ok s =>
    simp only [Except.ok.injEq]
    exact ⟨fun h => by rw [← h, String.toList_ofList], fun h => by rw [h, String.ofList_toList]⟩

namespace FileTree

variable {t : FileTree} {here : Place} {text : String}

/-- A path is read if it is neither empty nor too long and leads to a file from its start. -/
theorem read_eq_ok_iff {path : String} : t.read path = .ok text ↔ path ≠ "" ∧ byteLength path.toList < pathLimit ∧
    t.walk (if path.toList.head? = some '/' then [] else t.workingDirectory) (Text.splitAtChar '/' path.toList) = .ok text := by
  unfold read
  by_cases hempty : path = ""
  · simp [hempty]
  · by_cases hlong : pathLimit ≤ byteLength path.toList
    · simp [hempty, hlong, Nat.not_lt.mpr hlong]
    · simp [hempty, hlong, Nat.lt_of_not_le hlong]

/-! ## Plain names -/

/-- A name that is one part of a path and leads somewhere, not too long for a part. -/
structure IsPlain (name : List Char) : Prop where
  nonempty : name ≠ []
  onePart : '/' ∉ name
  notHere : name ≠ ['.']
  notAbove : name ≠ ['.', '.']
  length : byteLength name ≤ nameLimit

/-- A file that is put into the working directory is read under its name. -/
theorem read_addFile (t : FileTree) {name : List Char} (h : IsPlain name) (text : String) :
    (t.addFile (t.workingDirectory ++ [name]) text).read (String.ofList name) = .ok text := by
  have hpath : byteLength name < pathLimit := Nat.lt_of_le_of_lt h.length (by decide)
  have hroot : name.head? ≠ some '/' := fun hhead => h.onePart (List.mem_of_mem_head? hhead)
  have hnode : (t.addFile (t.workingDirectory ++ [name]) text).node? (t.workingDirectory ++ [name]) = some (.file text) := by
    simp [node?, addFile]
  rw [read_eq_ok_iff, String.toList_ofList, Text.splitAtChar_of_notMem h.onePart, if_neg hroot]
  refine ⟨by simpa [← String.toList_inj] using h.nonempty, hpath, ?_⟩
  show walk _ t.workingDirectory [name] = _
  rw [walk, if_neg (by simp [h.nonempty, h.notHere]), if_neg h.notAbove, if_neg (Nat.not_lt.mpr h.length), hnode]
  rfl

/-- Adding files does not move the working directory. -/
theorem workingDirectory_foldl_addFile (place : String × String → Place) (files : List (String × String)) (t : FileTree) :
    (files.foldl (fun t f => t.addFile (place f) f.2) t).workingDirectory = t.workingDirectory := by
  induction files generalizing t with
  | nil => rfl
  | cons f files ih => exact ih (t.addFile (place f) f.2)

/-- Of given files, the last one under a plain name is read under it. -/
theorem read_ofFiles (files : List (String × String)) {name : String} (h : IsPlain name.toList) (text : String) :
    (ofFiles (files ++ [(name, text)])).read name = .ok text := by
  unfold ofFiles
  rw [List.foldl_append, List.foldl_cons, List.foldl_nil, Text.splitAtChar_of_notMem h.onePart]
  have hread := fun t => read_addFile t h text
  simp only [String.ofList_toList] at hread
  rw [← hread, workingDirectory_foldl_addFile]
  rfl

/-! ## Parts that lead nowhere -/

open Command (leadsAway)

/-- What a path leads to from a directory, it leads to without the parts that lead nowhere. -/
theorem walk_filter (t : FileTree) (ps : List (List Char)) : ∀ {here : Place} {text : String}, t.walk here ps = .ok text →
    t.walk here (ps.filter leadsAway) = .ok text := by
  induction ps with
  | nil => exact fun h => h
  | cons part rest ih =>
    intro here text h
    cases haway : leadsAway part with
    | false =>
      have hnowhere : (part.isEmpty || decide (part = ['.'])) = true := by simpa [leadsAway, or_iff_not_imp_left] using haway
      rw [walk, if_pos hnowhere] at h
      rw [List.filter_cons_of_neg (by rw [haway]; exact Bool.false_ne_true)]
      exact ih h
    | true =>
      have hnowhere : ¬(part.isEmpty || decide (part = ['.'])) = true := by simpa [leadsAway] using haway
      rw [List.filter_cons_of_pos haway]
      rw [walk, if_neg hnowhere] at h ⊢
      by_cases habove : part = ['.', '.']
      · rw [if_pos habove] at h ⊢
        exact ih h
      · rw [if_neg habove] at h ⊢
        by_cases hlong : nameLimit < byteLength part
        · rw [if_pos hlong] at h
          cases h
        · rw [if_neg hlong] at h ⊢
          cases hnode : t.node? (here ++ [part]) with
          | none =>
            rw [hnode] at h
            cases h
          | some node =>
            rw [hnode] at h
            cases node with
            | directory => exact ih h
            | file s =>
              cases rest with
              | nil => exact h
              | cons part' rest => cases h

/-- The bytes of a name are those of its first character and those of the others. -/
theorem byteLength_cons (c : Char) (name : List Char) : byteLength (c :: name) = c.utf8Size + byteLength name := by
  suffices h : ∀ n, name.foldl (fun n c => n + c.utf8Size) n = n + byteLength name by
    rw [byteLength, List.foldl_cons, Nat.zero_add, h]
  unfold byteLength
  induction name with
  | nil => exact fun n => rfl
  | cons d name ih =>
    intro n
    rw [List.foldl_cons, List.foldl_cons, ih, ih (0 + d.utf8Size)]
    omega

/-- A name that keeps some characters of another has no more bytes. -/
theorem byteLength_le_of_sublist {p q : List Char} (h : p.Sublist q) : byteLength p ≤ byteLength q := by
  induction h with
  | slnil => exact Nat.le_refl _
  | cons c _ ih =>
    rw [byteLength_cons]
    omega
  | cons_cons c _ ih =>
    rw [byteLength_cons, byteLength_cons]
    omega

end FileTree

namespace Command

open FileTree

/-- Some of the parts of a path, joined, keep some characters of all of them. -/
theorem joinWith_sublist (sep : List Char) {ps qs : List (List Char)} (h : ps.Sublist qs) :
    (Text.joinWith sep ps).Sublist (Text.joinWith sep qs) := by
  induction h with
  | slnil => exact .refl _
  | @cons ps qs q hsub ih =>
    by_cases hqs : qs = []
    · subst hqs
      rw [List.sublist_nil.mp hsub]
      exact List.nil_sublist _
    · rw [Text.joinWith_cons hqs]
      exact ih.trans (List.sublist_append_right _ _)
  | @cons_cons ps qs q hsub ih =>
    by_cases hps : ps = []
    · subst hps
      by_cases hqs : qs = []
      · subst hqs
        exact .refl _
      · rw [Text.joinWith_cons hqs, List.append_assoc]
        exact List.sublist_append_left _ _
    · have hqs : qs ≠ [] := by
        rintro rfl
        exact hps (List.sublist_nil.mp hsub)
      rw [Text.joinWith_cons hps, Text.joinWith_cons hqs]
      exact (List.Sublist.refl _).append ih

/-- Cutting a path at its slashes leaves an empty part before each one that it starts with. -/
theorem splitAtChar_slashes (k : Nat) (s : List Char) :
    Text.splitAtChar '/' (List.replicate k '/' ++ s) = List.replicate k [] ++ Text.splitAtChar '/' s := by
  induction k with
  | zero => rfl
  | succ k ih => rw [List.replicate_succ, List.replicate_succ, List.cons_append, Text.splitAtChar, if_pos rfl, ih]; rfl

/-- Empty parts lead nowhere. -/
theorem walk_replicate_nil (t : FileTree) (here : Place) (k : Nat) (ps : List (List Char)) :
    t.walk here (List.replicate k [] ++ ps) = t.walk here ps := by
  induction k with
  | zero => rfl
  | succ k ih => rw [List.replicate_succ, List.cons_append, walk, if_pos (by rfl), ih]

/-- A text starts with some slashes, and goes on with another character or ends. -/
theorem exists_slashes (s : List Char) : ∃ k rest, s = List.replicate k '/' ++ rest ∧ rest.head? ≠ some '/' ∧
    s.takeWhile (· = '/') = List.replicate k '/' := by
  induction s with
  | nil => exact ⟨0, [], rfl, nofun, rfl⟩
  | cons c s ih =>
    by_cases hc : c = '/'
    · obtain ⟨k, rest, hs, hrest, hslashes⟩ := ih
      subst hc
      exact ⟨k + 1, rest, by rw [List.replicate_succ, List.cons_append, ← hs], hrest,
        by rw [List.takeWhile_cons_of_pos (by simp), hslashes]; rfl⟩
    · exact ⟨0, c :: s, rfl, by simpa using hc, List.takeWhile_cons_of_neg (by simpa using hc)⟩

/-- The parts of a text that lead away are not empty and hold no slash. -/
theorem of_mem_filter_leadsAway {s p : List Char} (h : p ∈ (Text.splitAtChar '/' s).filter leadsAway) : p ≠ [] ∧ '/' ∉ p := by
  obtain ⟨hmem, haway⟩ := List.mem_filter.mp h
  refine ⟨?_, Text.notMem_of_mem_splitAtChar hmem⟩
  rintro rfl
  cases haway

/-- Parts that lead away, joined, start with a character that is no slash. -/
theorem exists_head?_joinWith {sep s : List Char} (h : (Text.splitAtChar '/' s).filter leadsAway ≠ []) :
    ∃ c, (Text.joinWith sep ((Text.splitAtChar '/' s).filter leadsAway)).head? = some c ∧ c ≠ '/' := by
  obtain ⟨p, ps, hps⟩ := List.exists_cons_of_ne_nil h
  obtain ⟨hne, hslash⟩ := of_mem_filter_leadsAway (hps ▸ List.mem_cons_self)
  obtain ⟨c, p, rfl⟩ := List.exists_cons_of_ne_nil hne
  rw [List.mem_cons, not_or] at hslash
  rw [hps]
  exact ⟨c, by cases ps <;> rfl, Ne.symm hslash.1⟩

/-- A cleaned path has one slash or two at its start where the path has some, and then the parts that lead away. -/
theorem exists_cleanPath {k : Nat} {rest : List Char} (hslashes : (List.replicate k '/' ++ rest).takeWhile (· = '/') =
    List.replicate k '/') (hparts : (Text.splitAtChar '/' rest).filter leadsAway ≠ []) :
    ∃ r, r ≤ k ∧ (r = 0 ↔ k = 0) ∧ cleanPath (String.ofList (List.replicate k '/' ++ rest)) =
      String.ofList (List.replicate r '/' ++ Text.joinWith ['/'] ((Text.splitAtChar '/' rest).filter leadsAway)) := by
  have hroot : ∃ r, r ≤ k ∧ (r = 0 ↔ k = 0) ∧
      (if (List.replicate k '/').length = 2 then List.replicate k '/' else (List.replicate k '/').take 1) =
        List.replicate r '/' := by
    rw [List.length_replicate, List.take_replicate]
    split_ifs with hk
    · exact ⟨k, Nat.le_refl k, Iff.rfl, rfl⟩
    · exact ⟨min 1 k, by omega, by omega, rfl⟩
  obtain ⟨r, hrk, hr, hroot⟩ := hroot
  have hnone : (List.replicate k ([] : List Char)).filter leadsAway = [] := by
    rw [List.filter_eq_nil_iff]
    intro p hp
    rw [List.eq_of_mem_replicate hp]
    exact Bool.false_ne_true
  refine ⟨r, hrk, hr, ?_⟩
  unfold cleanPath pathParts
  rw [String.toList_ofList, hslashes, splitAtChar_slashes, List.filter_append, hnone, List.nil_append]
  dsimp only
  obtain ⟨c, hfirst, -⟩ := exists_head?_joinWith hparts
  rw [hroot, if_neg]
  rw [List.isEmpty_iff, List.append_eq_nil_iff]
  rintro ⟨-, hnil⟩
  rw [hnil] at hfirst
  cases hfirst

/-- A cleaned path, as a path that leads to a file can be cleaned: one slash or two at its start where the path has some, and
then the parts that lead away. -/
structure IsCleaned (path : String) (parts : List (List Char)) : Prop where
  sublist : (cleanPath path).toList.Sublist path.toList
  head?_iff : (cleanPath path).toList.head? = some '/' ↔ path.toList.head? = some '/'
  exists_split : ∃ r, Text.splitAtChar '/' (cleanPath path).toList = List.replicate r [] ++ parts
  ne : cleanPath path ≠ ""

/-- A path of some slashes and a rest is cleaned to the parts of the rest that lead away, if there are any. -/
theorem isCleaned_of_slashes {path : String} {k : Nat} {rest : List Char} (hpath : path.toList = List.replicate k '/' ++ rest)
    (hrest : rest.head? ≠ some '/') (hslashes : path.toList.takeWhile (· = '/') = List.replicate k '/')
    (hparts : (Text.splitAtChar '/' rest).filter leadsAway ≠ []) :
    IsCleaned path ((Text.splitAtChar '/' rest).filter leadsAway) := by
  rw [hpath] at hslashes
  obtain ⟨r, hrk, hr, hclean⟩ := exists_cleanPath hslashes hparts
  rw [← hpath, String.ofList_toList] at hclean
  obtain ⟨c, hfirst, hc⟩ := exists_head?_joinWith hparts
  refine ⟨?_, ?_, ⟨r, ?_⟩, fun hempty => ?_⟩
  · have hfilter : ((Text.splitAtChar '/' rest).filter leadsAway).Sublist (Text.splitAtChar '/' rest) := List.filter_sublist
    have hjoin := joinWith_sublist ['/'] hfilter
    rw [Text.joinWith_splitAtChar] at hjoin
    rw [hclean, String.toList_ofList, hpath]
    exact ((List.replicate_sublist_replicate '/').mpr hrk).append hjoin
  · rw [hclean, String.toList_ofList, hpath]
    cases k with
    | zero =>
      rw [hr.mpr rfl, List.replicate_zero, List.nil_append, List.nil_append, hfirst, Option.some_inj]
      exact iff_of_false hc hrest
    | succ k =>
      obtain ⟨r, rfl⟩ := Nat.exists_eq_succ_of_ne_zero fun hzero => absurd (hr.mp hzero) (Nat.succ_ne_zero k)
      exact iff_of_true rfl rfl
  · rw [hclean, String.toList_ofList, splitAtChar_slashes, Text.splitAtChar_joinWith hparts,
      Text.flatMap_splitAtChar fun p hp => (of_mem_filter_leadsAway hp).2]
  · rw [hclean, ← String.toList_inj, String.toList_ofList] at hempty
    rw [(List.append_eq_nil_iff.mp hempty).2] at hfirst
    cases hfirst

/-- A path that leads to a file is cleaned, and its parts that lead away lead to the file. -/
theorem exists_isCleaned {t : FileTree} {path text : String} (h : t.read path = .ok text) : ∃ parts, IsCleaned path parts ∧
    t.walk (if path.toList.head? = some '/' then [] else t.workingDirectory) parts = .ok text := by
  obtain ⟨k, rest, hpath, hrest, hslashes⟩ := exists_slashes path.toList
  obtain ⟨-, -, hwalk⟩ := read_eq_ok_iff.mp h
  have hsplit : Text.splitAtChar '/' path.toList = List.replicate k [] ++ Text.splitAtChar '/' rest := by
    rw [hpath, splitAtChar_slashes]
  rw [hsplit, walk_replicate_nil] at hwalk
  have hleads := walk_filter t _ hwalk
  refine ⟨_, isCleaned_of_slashes hpath hrest hslashes fun hnil => ?_, hleads⟩
  rw [hnil] at hleads
  cases hleads

/-- What a path leads to, the cleaned path leads to as well. -/
theorem read_cleanPath {t : FileTree} {path text : String} (h : t.read path = .ok text) : t.read (cleanPath path) = .ok text := by
  obtain ⟨parts, hcleaned, hwalk⟩ := exists_isCleaned h
  obtain ⟨r, hsplit⟩ := hcleaned.exists_split
  obtain ⟨-, hlong, -⟩ := read_eq_ok_iff.mp h
  rw [read_eq_ok_iff, hsplit, walk_replicate_nil]
  simp only [hcleaned.head?_iff]
  exact ⟨hcleaned.ne, Nat.lt_of_le_of_lt (byteLength_le_of_sublist hcleaned.sublist) hlong, hwalk⟩

/-- A text without stand-ins has no surrogates, so it can be written anywhere. -/
theorem unheld?_of_noStandIns (isHeld : Nat → Bool) (s : List Char) (position : Nat) :
    Text.unheld? isHeld position (Text.StandIns.codes [] s) = none := by
  show Text.unheld? isHeld position (s.map Char.toNat) = none
  induction s generalizing position with
  | nil => rfl
  | cons c s ih =>
    rw [List.map_cons, Text.unheld?, Json.isSurrogate_toNat, Bool.false_and, if_neg Bool.false_ne_true, ih]

/-- The derivation in a file is the text of the file that the path leads to, with its line ends written as line feeds, whatever
derivation is given besides. -/
theorem derivationText_of_read {w : Surroundings} {t : FileTree} (hfile : w.file = t.read) (hstandIns : w.standIns = [])
    {path text : String} (hnull : '\x00' ∉ path.toList) (h : t.read path = .ok text) (derivation : Option String) :
    derivationText w derivation (some path) = .ok (String.ofList (Text.lineFeeds text.toList)) := by
  have hgiven : given? (some path) = some path := by
    have hne := (read_eq_ok_iff.mp h).1
    simp [given?, hne]
  have hnull' : '\x00' ∉ (cleanPath path).toList := by
    obtain ⟨parts, hcleaned, -⟩ := exists_isCleaned h
    exact fun hmem => hnull (hcleaned.sublist.subset hmem)
  have hread : readFile w (cleanPath path) = .ok text := by
    unfold readFile
    rw [hstandIns, Text.unencodable?, unheld?_of_noStandIns, hfile, read_cleanPath h]
    dsimp only
    rw [if_neg (by simpa using hnull')]
    rfl
  unfold derivationText
  rw [hgiven]
  dsimp only
  rw [hread]
  rfl

end Command

end Propositional
