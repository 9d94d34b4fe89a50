import Propositional.Text.Blank

/-!
# Decimal digits and integers

Unicode 14 holds the ten decimal digits in many scripts, each set in a run of ten code points from zero to nine. An integer may
be written with the digits of any of them, and with at most 4300 of them.
-/

namespace Propositional.Text

/-- The code points of the digits zero. -/
def zeros : List Nat := [
  0x30, 0x660, 0x6f0, 0x7c0, 0x966, 0x9e6, 0xa66, 0xae6, 0xb66, 0xbe6, 0xc66, 0xce6, 0xd66, 0xde6, 0xe50, 0xed0,
  0xf20, 0x1040, 0x1090, 0x17e0, 0x1810, 0x1946, 0x19d0, 0x1a80, 0x1a90, 0x1b50, 0x1bb0, 0x1c40, 0x1c50, 0xa620,
  0xa8d0, 0xa900, 0xa9d0, 0xa9f0, 0xaa50, 0xabf0, 0xff10, 0x104a0, 0x10d30, 0x11066, 0x110f0, 0x11136, 0x111d0,
  0x112f0, 0x11450, 0x114d0, 0x11650, 0x116c0, 0x11730, 0x118e0, 0x11950, 0x11c50, 0x11d50, 0x11da0, 0x16a60, 0x16ac0,
  0x16b50, 0x1d7ce, 0x1d7d8, 0x1d7e2, 0x1d7ec, 0x1d7f6, 0x1e140, 0x1e2f0, 0x1e950, 0x1fbf0]

/-- The value of a decimal digit of any script. -/
def digitValue? (c : Char) : Option Nat :=
  (zeros.find? fun z => z ≤ c.toNat && c.toNat ≤ z + 9).map (c.toNat - ·)

/-- The number of digits that an integer may have. -/
def digitLimit : Nat := 4300

/-- The number that digits write, `n` being what was read before them. One underscore may stand between two digits. -/
def readDigits (n : Nat) : List Char → Option Nat
  | [] => some n
  | '_' :: c :: cs => (digitValue? c).bind fun d => readDigits (10 * n + d) cs
  | c :: cs => (digitValue? c).bind fun d => readDigits (10 * n + d) cs

/-- The number that a text of digits writes: it starts with a digit. -/
def readNat? : List Char → Option Nat
  | [] => none
  | c :: cs => (digitValue? c).bind fun d => readDigits d cs

/-- A blank that may stand around an integer: any but the four separators of records. -/
def isOuterBlank (c : Char) : Bool := isBlank c && !(28 ≤ c.toNat && c.toNat ≤ 31)

/-- The natural that a text of digits within the limit writes. -/
def readLimited? (s : List Char) : Option Nat :=
  if s.countP (· != '_') ≤ digitLimit then readNat? s else none

/-- The integer that a text writes: blanks, an optional sign, digits, blanks. -/
def readInteger? (s : List Char) : Option Int :=
  match ((s.dropWhile isOuterBlank).reverse.dropWhile isOuterBlank).reverse with
  | '-' :: cs => (readLimited? cs).map fun n => -(n : Int)
  | '+' :: cs => (readLimited? cs).map Int.ofNat
  | cs => (readLimited? cs).map Int.ofNat

end Propositional.Text
