import Propositional.Text.Surrogate

/-!
# Texts of JSON

A text of JSON may be written with surrogates that stand alone. Such a text is no string, and is kept by its code points.
-/

namespace Propositional

/-- A text of JSON: a string, or the code points of a text in which a surrogate stands alone. -/
inductive JsonText where
  | string (s : String)
  | unpaired (codes : List Nat)
  deriving DecidableEq, Repr

namespace JsonText

instance : Coe String JsonText := ⟨string⟩

/-- The text with the given code points. -/
def ofCodes (codes : List Nat) : JsonText :=
  if codes.any Text.isSurrogate then unpaired codes else string (String.ofList (codes.map Char.ofNat))

/-- The code points of a text. -/
def codes : JsonText → List Nat
  | string s => s.toList.map Char.toNat
  | unpaired us => us

/-- No surrogate stands alone in a text. -/
def isString : JsonText → Bool
  | string _ => true
  | unpaired _ => false

/-- A text without characters. -/
def isEmpty : JsonText → Bool
  | string s => s.isEmpty
  | unpaired us => us.isEmpty

/-- A text between quotation marks, as messages show it. -/
def quote : JsonText → List Char
  | string s => Text.quote s.toList
  | unpaired us => Text.quoteCodes us

/-- The characters of a text, with stand-ins for surrogates where there are some, else the replacement character. -/
def characters (m : Text.StandIns) : JsonText → List Char
  | string s => s.toList
  | unpaired us => m.characters us

/-- The text as a string, with stand-ins for surrogates where there are some, else the replacement character. -/
def toString (m : Text.StandIns) : JsonText → String
  | string s => s
  | unpaired us => String.ofList (m.characters us)

end JsonText

end Propositional
