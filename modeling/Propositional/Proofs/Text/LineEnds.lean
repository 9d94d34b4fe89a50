import Propositional.Config.File
import Propositional.Proofs.Text.Joining

/-!
# Line ends

A line of a text ends in a line feed, in a carriage return, or in both together (`lines`). Where parts that hold no line feed
are joined with line feeds, the lines of the whole are those of the parts, and a part is one line unless it holds a carriage
return (`lines_joinWith`).
-/

namespace Propositional.Text

/-- The lines of a text, whatever form its line ends have. -/
def lines (s : List Char) : List (List Char) := splitAtChar '\n' (lineFeeds s)

variable {p s : List Char}

/-- A text without carriage returns has its line ends in one form. -/
theorem lineFeeds_of_notMem (h : '\r' ∉ s) : lineFeeds s = s := by
  induction s with
  | nil => rfl
  | cons c s ih =>
    simp only [List.mem_cons, not_or] at h
    rw [lineFeeds, if_neg (Ne.symm h.1), ih h.2]
    rintro cs rfl -
    exact h.1 rfl

/-- In a text without line feeds, each carriage return is a line end of its own, unless it comes to stand before a line feed. -/
theorem lineFeeds_append_of_notMem (hfeed : '\n' ∉ p) (hend : '\r' ∉ p.getLast?) (q : List Char) :
    lineFeeds (p ++ q) = p.map (fun c => if c = '\r' then '\n' else c) ++ lineFeeds q := by
  induction p with
  | nil => rfl
  | cons c p ih =>
    obtain ⟨-, hp⟩ := not_or.mp (List.mem_cons.not.mp hfeed)
    have hrest : lineFeeds (p ++ q) = p.map (fun c => if c = '\r' then '\n' else c) ++ lineFeeds q := by
      refine ih hp fun hlast => hend ?_
      rw [Option.mem_def] at hlast ⊢
      rw [List.getLast?_cons, hlast, Option.getD_some]
    rw [List.cons_append, lineFeeds, hrest, List.map_cons, List.cons_append]
    rintro cs rfl hcs
    cases p with
    | nil => exact hend rfl
    | cons d p => exact hp (by rw [(List.cons.inj hcs).1]; exact List.mem_cons_self)

/-- A text without line feeds is cut at carriage returns as at the line feeds in their place. -/
theorem splitAtChar_map_lineFeed (hfeed : '\n' ∉ p) :
    splitAtChar '\n' (p.map fun c => if c = '\r' then '\n' else c) = splitAtChar '\r' p := by
  induction p with
  | nil => rfl
  | cons c p ih =>
    obtain ⟨hc, hp⟩ := not_or.mp (List.mem_cons.not.mp hfeed)
    rw [List.map_cons, splitAtChar, splitAtChar, ih hp]
    by_cases hreturn : c = '\r'
    · rw [if_pos hreturn, if_pos rfl, if_pos hreturn]
    · rw [if_neg hreturn, if_neg (Ne.symm hc), if_neg hreturn]

/-- Parts without line feeds, joined with line feeds, are read as lines that end there and at their own carriage returns. -/
theorem lines_joinWith {ps : List (List Char)} (hne : ps ≠ []) (hfeed : ∀ p ∈ ps, '\n' ∉ p) (hend : ∀ p ∈ ps, '\r' ∉ p.getLast?) :
    lines (joinWith ['\n'] ps) = ps.flatMap (splitAtChar '\r') := by
  induction ps with
  | nil => exact absurd rfl hne
  | cons p ps ih =>
    obtain ⟨hp, hps⟩ := List.forall_mem_cons.mp hfeed
    obtain ⟨hlast, hlasts⟩ := List.forall_mem_cons.mp hend
    by_cases hnil : ps = []
    · subst hnil
      have happend := lineFeeds_append_of_notMem hp hlast []
      rw [List.append_nil, lineFeeds, List.append_nil] at happend
      rw [joinWith, lines, happend, splitAtChar_map_lineFeed hp, List.flatMap_singleton]
    · have hfeeds : ∀ q, lineFeeds ('\n' :: q) = '\n' :: lineFeeds q := by
        intro q
        rw [lineFeeds, if_neg (by decide)]
        exact fun cs h => absurd h (by decide)
      rw [joinWith_cons hnil, List.append_assoc, List.singleton_append, lines, lineFeeds_append_of_notMem hp hlast, hfeeds,
        splitAtChar_append, splitAtChar_map_lineFeed hp, List.flatMap_cons, ← ih hnil hps hlasts, lines]

/-- A text is cut into one part more than it holds separators. -/
theorem length_splitAtChar (x : Char) (s : List Char) : (splitAtChar x s).length = s.count x + 1 := by
  induction s with
  | nil => rfl
  | cons c s ih =>
    rw [splitAtChar, List.count_cons]
    by_cases hc : c = x
    · rw [if_pos hc, List.length_cons, ih, if_pos (by simpa using hc)]
    · obtain ⟨part, parts, hs⟩ := List.exists_cons_of_ne_nil (splitAtChar_ne_nil x s)
      rw [if_neg hc, if_neg (by simpa using hc), ← ih, hs]
      rfl

end Propositional.Text
