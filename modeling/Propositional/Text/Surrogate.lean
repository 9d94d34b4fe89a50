import Propositional.Text.Quoted
import Propositional.Text.Replace

/-!
# Surrogates

A surrogate is a code point that is no character: two of them together write a character beyond the first 65536, and one that
stands alone writes none. A text in which surrogates stand alone is given by its code points. Where such a text has to be part
of a text of characters, each of its surrogates has a character to stand in for it, one that is found nowhere else and that
behaves like it: a private character is no letter, no blank and not printable, and its escape is as long.
-/

namespace Propositional.Text

/-- A code point is a surrogate. -/
def isSurrogate (n : Nat) : Bool := 0xD800 ≤ n && n < 0xE000

/-- The character of a code point, the replacement character for a surrogate. -/
def codeChar (n : Nat) : Char := if isSurrogate n then '\uFFFD' else Char.ofNat n

/-- A text that is given by its code points, between quotation marks. A surrogate is written as an escape. -/
def quoteCodes (codes : List Nat) : List Char :=
  let mark := quotationMark (codes.map codeChar)
  mark :: (codes.flatMap (fun n => if isSurrogate n then escapeCode n else quoteChar mark (Char.ofNat n)) ++ [mark])

/-- A surrogate that stands for a byte beyond ASCII, which a name of a file can hold although no character is made of it. -/
def isByteSurrogate (n : Nat) : Bool := 0xDC80 ≤ n && n < 0xDD00

/-- The first surrogate that cannot be held, by its position, and the surrogates that follow it at once. -/
def unheld? (isHeld : Nat → Bool) (position : Nat) : List Nat → Option (Nat × List Nat)
  | [] => none
  | n :: ns =>
    if isSurrogate n && !isHeld n then some (position, n :: ns.takeWhile isSurrogate) else unheld? isHeld (position + 1) ns

/-- The first surrogate that no name of a file can hold. -/
def unencodable? (position : Nat) (codes : List Nat) : Option (Nat × List Nat) := unheld? isByteSurrogate position codes

/-- Characters, each with the surrogate that it stands in for. -/
abbrev StandIns := List (Char × Nat)

namespace StandIns

/-- The private characters among the first 65536. -/
def privateCharacters : List Char := (List.range 6400).map fun n => Char.ofNat (0xE000 + n)

/-- A character can stand in beside some texts: neither it nor its escape is found in them. -/
def isFree (used : List (List Char)) (c : Char) : Bool :=
  used.all fun s => !s.contains c && !occursIn (escapeCode c.toNat) s

/-- Characters that stand in for the surrogates among code points, beside some texts. -/
def choose (codes : List Nat) (used : List (List Char)) : StandIns :=
  match (codes.filter isSurrogate).eraseDups with
  | [] => []
  | surrogates => (privateCharacters.filter (isFree used)).zip surrogates

/-- The characters of code points, with stand-ins for the surrogates. -/
def characters (m : StandIns) (codes : List Nat) : List Char :=
  codes.map fun n => ((m.find? (·.2 == n)).map (·.1)).getD (codeChar n)

/-- The code points of a text with stand-ins: those of the surrogates that stand-ins and their escapes are there for. -/
def codes (m : StandIns) (s : List Char) : List Nat :=
  (m.foldl (fun s p => replaceText (escapeCode p.1.toNat) (escapeCode p.2) s) s).map fun c => (m.lookup c).getD c.toNat

end StandIns

end Propositional.Text
