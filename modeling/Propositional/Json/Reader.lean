import Propositional.Json
import Propositional.Text.Digit

/-!
# Reading JSON

A text is read as one value with blanks around it. A fault says what was expected and which part of the text was left when it
showed, so that its place can be given by line and column. An integer with too many digits is refused too, without a place. The
number of digits that an integer may have is a parameter, which can be left open.
-/

namespace Propositional.Json

/-- What is wrong with a text that is no JSON value. -/
inductive Cause where
  | byteOrderMark | value | name | colon | comma | unterminated | control | escape | code | extra
  | tooManyDigits (count : Nat)
  deriving DecidableEq, Repr

/-- The wording of a cause. -/
def Cause.message : Cause → String
  | byteOrderMark => "Unexpected UTF-8 BOM (decode using utf-8-sig)"
  | value => "Expecting value"
  | name => "Expecting property name enclosed in double quotes"
  | colon => "Expecting ':' delimiter"
  | comma => "Expecting ',' delimiter"
  | unterminated => "Unterminated string starting at"
  | control => "Invalid control character at"
  | escape => "Invalid \\escape"
  | code => "Invalid \\uXXXX escape"
  | extra => "Extra data"
  | tooManyDigits count =>
    s!"Exceeds the limit ({Text.digitLimit} digits) for integer string conversion: value has {count} digits; " ++
      "use sys.set_int_max_str_digits() to increase the limit"

/-- A fault and the part of the text from its place on. -/
structure Fault where
  cause : Cause
  rest : List Char
  deriving DecidableEq, Repr

/-- The blanks of JSON. -/
def isSpace (c : Char) : Bool := c = ' ' || c = '\t' || c = '\n' || c = '\r'

/-- The text without the blanks at its start. -/
def skipSpace (s : List Char) : List Char := s.dropWhile isSpace

/-! ## Texts -/

/-- The value of a hexadecimal digit of either case. -/
def hexValue? (c : Char) : Option Nat :=
  let n := c.toNat
  if 48 ≤ n ∧ n ≤ 57 then some (n - 48)
  else if 97 ≤ n ∧ n ≤ 102 then some (n - 87)
  else if 65 ≤ n ∧ n ≤ 70 then some (n - 55)
  else none

/-- The number that four hexadecimal digits write. -/
def hexCode? (a b c d : Char) : Option Nat := do
  let a ← hexValue? a
  let b ← hexValue? b
  let c ← hexValue? c
  let d ← hexValue? d
  pure (((a * 16 + b) * 16 + c) * 16 + d)

/-- The character that a backslash and the given character write. -/
def escaped? : Char → Option Char
  | '"' => some '"'
  | '\\' => some '\\'
  | '/' => some '/'
  | 'b' => some '\x08'
  | 'f' => some '\x0c'
  | 'n' => some '\n'
  | 'r' => some '\r'
  | 't' => some '\t'
  | _ => none

/-- The code units of a text behind its opening quotation mark, up to the closing one. `start` is the text from the opening
mark on. An escape by code needs a character behind it. -/
def readUnits (start : List Char) : List Char → Except Fault (List Nat × List Char)
  | [] => .error ⟨.unterminated, start⟩
  | '"' :: cs => .ok ([], cs)
  | '\\' :: 'u' :: a :: b :: c :: d :: cs =>
    match hexCode? a b c d, cs with
    | some n, _ :: _ => (readUnits start cs).map fun (us, r) => (n :: us, r)
    | _, _ => .error ⟨.code, 'u' :: a :: b :: c :: d :: cs⟩
  | '\\' :: 'u' :: cs => .error ⟨.code, 'u' :: cs⟩
  | '\\' :: c :: cs =>
    match escaped? c with
    | some e => (readUnits start cs).map fun (us, r) => (e.toNat :: us, r)
    | none => .error ⟨.escape, '\\' :: c :: cs⟩
  | ['\\'] => .error ⟨.unterminated, start⟩
  | c :: cs =>
    if c.toNat < 32 then .error ⟨.control, c :: cs⟩ else (readUnits start cs).map fun (us, r) => (c.toNat :: us, r)

/-- The code points of code units: a high and a low surrogate together are one, and every other unit is one by itself. -/
def joinUnits : List Nat → List Nat
  | [] => []
  | [u] => [u]
  | u :: v :: us =>
    if 0xD800 ≤ u ∧ u < 0xDC00 ∧ 0xDC00 ≤ v ∧ v < 0xE000 then
      (0x10000 + (u - 0xD800) * 0x400 + (v - 0xDC00)) :: joinUnits us
    else u :: joinUnits (v :: us)

/-- Reads a text behind its opening quotation mark. -/
def readText (cs : List Char) : Except Fault (JsonText × List Char) :=
  (readUnits ('"' :: cs) cs).map fun (us, r) => (.ofCodes (joinUnits us), r)

/-! ## Numbers -/

/-- The number that decimal digits write. -/
def ofDigits (ds : List Char) : Nat := ds.foldl (fun n d => n * 10 + (d.toNat - 48)) 0

/-- The digits at the start of a text, and what is behind them. -/
def spanDigits (s : List Char) : List Char × List Char := (s.takeWhile Char.isDigit, s.dropWhile Char.isDigit)

/-- The whole part of a number at the start of a text, and what is behind it. A zero in front is all of it. -/
def spanWhole (s : List Char) : List Char × List Char :=
  match s with
  | '0' :: cs => (['0'], cs)
  | _ => spanDigits s

/-- The fraction at the start of a text, if there is one: its digits, and what is behind them. -/
def readFraction (s : List Char) : List Char × List Char :=
  match s with
  | '.' :: cs => if (spanDigits cs).1.isEmpty then ([], s) else spanDigits cs
  | _ => ([], s)

/-- The sign of a text and what is behind it. -/
def readSign : List Char → Int × List Char
  | '-' :: cs => (-1, cs)
  | '+' :: cs => (1, cs)
  | cs => (1, cs)

/-- The exponent at the start of a text, if there is one, and what is behind it. -/
def readExponent (s : List Char) : Option Int × List Char :=
  match s with
  | c :: cs =>
    if c = 'e' || c = 'E' then
      let (sign, r) := readSign cs
      let (ds, r') := spanDigits r
      if ds.isEmpty then (none, s) else (some (sign * ofDigits ds), r')
    else (none, s)
  | [] => (none, s)

/-- Reads a number behind its sign. -/
def readUnsigned (limit : Option Nat) (negative : Bool) (start : List Char) (s : List Char) : Except Fault (Json × List Char) :=
  let (whole, r) := spanWhole s
  if whole.isEmpty then .error ⟨.value, start⟩
  else
    let (fraction, r) := readFraction r
    let (exponent, r) := readExponent r
    if fraction.isEmpty ∧ exponent.isNone then
      if limit.all (whole.length ≤ ·) then .ok (int (Binary64.signed negative (ofDigits whole)), r)
      else .error ⟨.tooManyDigits whole.length, start⟩
    else .ok (float (Binary64.ofDecimal negative (ofDigits (whole ++ fraction)) (exponent.getD 0 - fraction.length)), r)

/-! ## Values -/

/-- The values that are written as one word. -/
def words : List (List Char × Json) := [
  ("null".toList, null), ("true".toList, bool true), ("false".toList, bool false),
  ("NaN".toList, float .nan), ("Infinity".toList, float (.infinity false)), ("-Infinity".toList, float (.infinity true))]

/-- Reads a word or a number. -/
def readScalar (limit : Option Nat) (s : List Char) : Except Fault (Json × List Char) :=
  match words.find? (·.1.isPrefixOf s) with
  | some (w, x) => .ok (x, s.drop w.length)
  | none =>
    match s with
    | '-' :: cs => readUnsigned limit true s cs
    | _ => readUnsigned limit false s s

/-- Reads the colon behind the name of a field, with the blanks around it. -/
def readColon (s : List Char) : Except Fault (List Char) :=
  match skipSpace s with
  | ':' :: cs => .ok (skipSpace cs)
  | r => .error ⟨.colon, r⟩

mutual

/-- Reads a value; `fuel` bounds how many values and items may be read one inside or after the other. -/
def readValue (limit : Option Nat) (fuel : Nat) (s : List Char) : Except Fault (Json × List Char) :=
  match fuel with
  | 0 => .error ⟨.value, s⟩
  | fuel + 1 =>
    match s with
    | '"' :: cs => (readText cs).map fun (t, r) => (str t, r)
    | '[' :: cs =>
      match skipSpace cs with
      | ']' :: r => .ok (arr [], r)
      | r => (readItems limit fuel r).map fun (xs, r) => (arr xs, r)
    | '\x7b' :: cs =>
      match skipSpace cs with
      | '\x7d' :: r => .ok (obj [], r)
      | r => (readFields limit fuel r).map fun (fs, r) => (obj (ofFields fs), r)
    | _ => readScalar limit s

/-- Reads the items of a list up to its closing bracket. -/
def readItems (limit : Option Nat) (fuel : Nat) (s : List Char) : Except Fault (List Json × List Char) :=
  match fuel with
  | 0 => .error ⟨.value, s⟩
  | fuel + 1 => do
    let (x, r) ← readValue limit fuel s
    match skipSpace r with
    | ']' :: r => pure ([x], r)
    | ',' :: r =>
      let (xs, r) ← readItems limit fuel (skipSpace r)
      pure (x :: xs, r)
    | r => .error ⟨.comma, r⟩

/-- Reads the fields of an object up to its closing brace. -/
def readFields (limit : Option Nat) (fuel : Nat) (s : List Char) : Except Fault (List (JsonText × Json) × List Char) :=
  match fuel with
  | 0 => .error ⟨.value, s⟩
  | fuel + 1 =>
    match s with
    | '"' :: cs => do
      let (n, r) ← readText cs
      let r ← readColon r
      let (x, r) ← readValue limit fuel r
      match skipSpace r with
      | '\x7d' :: r => pure ([(n, x)], r)
      | ',' :: r =>
        let (fs, r) ← readFields limit fuel (skipSpace r)
        pure ((n, x) :: fs, r)
      | r => .error ⟨.comma, r⟩
    | _ => .error ⟨.name, s⟩

end

/-- Reads a text as one value, with integers of as many digits as the limit allows. Every value takes a character at least, so the
length of the text bounds how many there are. -/
def readWithin (limit : Option Nat) (s : List Char) : Except Fault Json :=
  match s with
  | '\uFEFF' :: _ => .error ⟨.byteOrderMark, s⟩
  | _ =>
    match readValue limit (2 * s.length + 2) (skipSpace s) with
    | .error e => .error e
    | .ok (x, r) =>
      match skipSpace r with
      | [] => .ok x
      | r => .error ⟨.extra, r⟩

/-- Reads a text as one value. -/
def read (s : List Char) : Except Fault Json := readWithin (some Text.digitLimit) s

/-- The place of a fault in a text: its line, its column, and the number of characters before it. -/
def Fault.place (text : List Char) (e : Fault) : String :=
  let before := text.take (text.length - e.rest.length)
  let line := before.count '\n' + 1
  let column := (before.reverse.takeWhile (· != '\n')).length + 1
  s!"line {line} column {column} (char {before.length})"

/-- The wording of a fault of a text: what is wrong, and where. -/
def Fault.message (text : List Char) (e : Fault) : String :=
  match e.cause with
  | .tooManyDigits _ => e.cause.message
  | _ => s!"{e.cause.message}: {e.place text}"

end Propositional.Json
