import Propositional.Config.File
import Propositional.Text.Blank

/-!
# Environment files

An environment file has an entry on a line: a name, which may have `export` before it, an equals sign, and a value. A value
between quotation marks is kept as it is but for its escapes; any other one ends at a blank followed by `#`, or at the end of
the line, and has no blanks at its end. A name without an equals sign has no value, and of several entries of one name the last
one counts. Lines that start with `#` and lines of another form are no entries.
-/

namespace Propositional.EntryFile

open Text

/-- A blank that does not end a line. -/
def isInnerBlank (c : Char) : Bool := isBlank c && c != '\n' && c != '\r'

/-- The text without the blanks at its start, up to the end of the line. -/
def skipBlanks (s : List Char) : List Char := s.dropWhile isInnerBlank

/-- A character other than those that end a line. -/
def isInLine (c : Char) : Bool := c != '\n' && c != '\r'

/-- The content of a quoted value behind its opening mark, and what is behind the closing one. A mark behind a backslash is
part of the value, unless no other mark closes it. -/
def closeQuote? (mark : Char) : List Char → Option (List Char × List Char)
  | [] => none
  | '\\' :: c :: cs =>
    if c = mark then
      match closeQuote? mark cs with
      | some (content, r) => some ('\\' :: mark :: content, r)
      | none => some (['\\'], cs)
    else (closeQuote? mark (c :: cs)).map fun (content, r) => ('\\' :: content, r)
  | c :: cs => if c = mark then some ([], cs) else (closeQuote? mark cs).map fun (content, r) => (c :: content, r)

/-- What a backslash and a character stand for in a value quoted with `mark`. -/
def unescaped? (mark c : Char) : Option Char :=
  if c = '\\' || c = '\'' then some c
  else if mark = '\'' then none
  else
    match c with
    | '"' => some '"'
    | 'a' => some '\x07'
    | 'b' => some '\x08'
    | 'f' => some '\x0c'
    | 'n' => some '\n'
    | 'r' => some '\r'
    | 't' => some '\t'
    | 'v' => some '\x0b'
    | _ => none

/-- The content of a quoted value with its escapes replaced. -/
def unescape (mark : Char) : List Char → List Char
  | [] => []
  | '\\' :: c :: cs =>
    match unescaped? mark c with
    | some d => d :: unescape mark cs
    | none => '\\' :: unescape mark (c :: cs)
  | c :: cs => c :: unescape mark cs

/-- A value without quotation marks, up to the blanks before a `#`. -/
def cutComment : List Char → List Char
  | [] => []
  | c :: cs => if isBlank c && (cs.dropWhile isBlank).head? == some '#' then [] else c :: cutComment cs

/-- Reads a value up to where it ends. -/
def readValue (s : List Char) : Option (List Char × List Char) :=
  match s with
  | '\'' :: cs => (closeQuote? '\'' cs).map fun (content, r) => (unescape '\'' content, r)
  | '"' :: cs => (closeQuote? '"' cs).map fun (content, r) => (unescape '"' content, r)
  | _ => some (trimEnd (cutComment (s.takeWhile isInLine)), s.dropWhile isInLine)

/-- Reads the name of an entry. -/
def readName (s : List Char) : Option (List Char × List Char) :=
  match s with
  | '\'' :: cs =>
    match cs.span (· != '\'') with
    | (c :: name, _ :: r) => some (c :: name, r)
    | _ => none
  | _ =>
    match s.span fun c => c != '=' && c != '#' && !isBlank c with
    | ([], _) => none
    | p => some p

/-- The text behind `export` and the blanks that follow it, if it starts so. -/
def skipExport (s : List Char) : List Char :=
  if "export".toList.isPrefixOf s && (s.drop 6).head?.any isInnerBlank then skipBlanks (s.drop 6) else s

/-- What is behind the end of the line, if only blanks and a comment are left on it. -/
def endOfLine? (s : List Char) : Option (List Char) :=
  let r :=
    match skipBlanks s with
    | '#' :: cs => cs.dropWhile isInLine
    | r => r
  match r with
  | [] => some []
  | c :: cs => if isInLine c then none else some cs

/-- An entry of an environment file: a name and its value, if it has one. -/
abbrev Entry := String × Option String

/-- Reads the entry at the start of a line: the entry, if the line is one, and what is behind the line. -/
def readEntry (s : List Char) : Option Entry × List Char :=
  match readName (skipExport s) with
  | none => (none, (s.dropWhile isInLine))
  | some (name, r) =>
    match skipBlanks r with
    | '=' :: cs =>
      match readValue (skipBlanks cs) with
      | none => (none, cs.dropWhile isInLine)
      | some (value, r) =>
        match endOfLine? r with
        | some r => (some (String.ofList name, some (String.ofList value)), r)
        | none => (none, r.dropWhile isInLine)
    | r =>
      match endOfLine? r with
      | some r => (some (String.ofList name, none), r)
      | none => (none, r.dropWhile isInLine)

/-- The entries of the rest of an environment file; `fuel` bounds how many lines are read. -/
def entriesFrom : Nat → List Char → List Entry
  | 0, _ => []
  | fuel + 1, s =>
    match s.dropWhile isBlank with
    | [] => []
    | s =>
      let (entry, r) := readEntry s
      entry.toList ++ entriesFrom fuel r

/-- The entries of an environment file. A line takes a character at least, so the length of the text bounds their number. -/
def entries (text : String) : List Entry := entriesFrom (text.length + 1) (lineFeeds text.toList)

/-- The value that a file gives to a name: that of the last entry of the name, if it has one. -/
def value? (es : List Entry) (name : String) : Option String := (es.reverse.lookup name).bind id

end Propositional.EntryFile
