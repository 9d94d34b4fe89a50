import Propositional.Json

/-!
# Writing JSON

Values are written over several lines, each level of nesting two spaces further in. Of a text only the quotation mark, the
backslash and the ASCII controls are escaped, and surrogates that stand alone, which are no characters.
-/

namespace Propositional.Json

/-- A character inside a text. -/
def escapeChar (c : Char) : List Char :=
  if c = '"' then ['\\', '"']
  else if c = '\\' then ['\\', '\\']
  else if c = '\n' then ['\\', 'n']
  else if c = '\r' then ['\\', 'r']
  else if c = '\t' then ['\\', 't']
  else if c = '\x08' then ['\\', 'b']
  else if c = '\x0c' then ['\\', 'f']
  else if c.toNat < 32 then '\\' :: 'u' :: Text.hex 4 c.toNat
  else [c]

/-- A string between quotation marks. -/
def renderString (s : List Char) : List Char := '"' :: (s.flatMap escapeChar ++ ['"'])

/-- A text of JSON between quotation marks. -/
def renderText : JsonText → List Char
  | .string s => renderString s.toList
  | .unpaired codes =>
    '"' :: (codes.flatMap (fun n =>
      if Text.isSurrogate n then '\\' :: 'u' :: Text.hex 4 n else escapeChar (Char.ofNat n)) ++ ['"'])

/-- A binary number. -/
def renderFloat : Binary64 → List Char
  | .finite negative m e => Binary64.signText negative ++ Binary64.magnitudeText m e
  | .infinity negative => Binary64.signText negative ++ "Infinity".toList
  | .nan => ['N', 'a', 'N']

/-- The start of a line at a depth of nesting. -/
def newline (depth : Nat) : List Char := '\n' :: List.replicate (2 * depth) ' '

mutual

/-- A value that starts at a depth of nesting. -/
def renderAt (depth : Nat) : Json → List Char
  | null => ['n', 'u', 'l', 'l']
  | bool b => if b then ['t', 'r', 'u', 'e'] else ['f', 'a', 'l', 's', 'e']
  | int n => digits n
  | float x => renderFloat x
  | str s => renderText s
  | arr [] => ['[', ']']
  | arr (x :: xs) => '[' :: (renderItems (depth + 1) (x :: xs) ++ newline depth ++ [']'])
  | obj [] => ['\x7b', '\x7d']
  | obj (f :: fs) => '\x7b' :: (renderFields (depth + 1) (f :: fs) ++ newline depth ++ ['\x7d'])

/-- The items of a list, each on lines of its own. -/
def renderItems (depth : Nat) : List Json → List Char
  | [] => []
  | [x] => newline depth ++ renderAt depth x
  | x :: xs => newline depth ++ renderAt depth x ++ ',' :: renderItems depth xs

/-- The fields of an object, each on lines of its own. -/
def renderFields (depth : Nat) : List (JsonText × Json) → List Char
  | [] => []
  | [(n, x)] => newline depth ++ renderText n ++ ':' :: ' ' :: renderAt depth x
  | (n, x) :: fs =>
    newline depth ++ renderText n ++ ':' :: ' ' :: (renderAt depth x ++ ',' :: renderFields depth fs)

end

/-- A value as the text of a file. -/
def render (x : Json) : String := String.ofList (renderAt 0 x)

end Propositional.Json
