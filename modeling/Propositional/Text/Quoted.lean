import Propositional.Text.Unprintable

/-!
# Quoted text

How messages show a text: between quotation marks, with what a reader could not see or would misread written as an escape.
-/

namespace Propositional.Text

/-- The digit of a number below sixteen, in lower case. -/
def hexDigit (n : Nat) : Char := if n < 10 then Char.ofNat (48 + n) else Char.ofNat (87 + n)

/-- A number in hexadecimal with exactly `width` digits, the higher ones dropped. -/
def hex : Nat → Nat → List Char
  | 0, _ => []
  | width + 1, n => hex width (n / 16) ++ [hexDigit (n % 16)]

/-- The escape of a code point, as short as its size allows. -/
def escapeCode (n : Nat) : List Char :=
  if n < 0x100 then '\\' :: 'x' :: hex 2 n
  else if n < 0x10000 then '\\' :: 'u' :: hex 4 n
  else '\\' :: 'U' :: hex 8 n

/-- A character as it stands between quotation marks `mark`. -/
def quoteChar (mark c : Char) : List Char :=
  if c = mark || c = '\\' then ['\\', c]
  else if c = '\n' then ['\\', 'n']
  else if c = '\r' then ['\\', 'r']
  else if c = '\t' then ['\\', 't']
  else if isPrintable c then [c]
  else escapeCode c.toNat

/-- The quotation mark of a text: the single one, unless the text holds it and not the double one. -/
def quotationMark (s : List Char) : Char := if s.contains '\'' && !s.contains '"' then '"' else '\''

/-- A text between quotation marks. -/
def quote (s : List Char) : List Char :=
  quotationMark s :: (s.flatMap (quoteChar (quotationMark s)) ++ [quotationMark s])

/-- `quote` on strings. -/
def quoted (s : String) : String := String.ofList (quote s.toList)

end Propositional.Text
