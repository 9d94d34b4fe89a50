import Propositional.Text.Quoted

/-!
# Decoding

Texts are kept in bytes, a character in one to four of them. The first byte of a character says how many follow, and between
which bounds the first of these lies; the others lie between the usual bounds. The first character that is not written so, or
not to its end, makes the bytes no text.
-/

namespace Propositional.Text

/-- What is wrong where bytes are no text: no character starts with a byte, a character does not go on with a byte, or the bytes
end within a character. -/
inductive Flaw where
  | start
  | continuation
  | cut
  deriving DecidableEq, Repr

/-- The wording of a flaw. -/
def Flaw.message : Flaw → String
  | start => "invalid start byte"
  | continuation => "invalid continuation byte"
  | cut => "unexpected end of data"

/-- Why bytes are no text: the bytes of a character, by the position and the value of the first and by their number, and what is
wrong with them. -/
structure DecodingFault where
  position : Nat
  byte : Nat
  count : Nat
  flaw : Flaw
  deriving DecidableEq, Repr

/-- The wording of such a fault. -/
def DecodingFault.message (f : DecodingFault) : String :=
  let place :=
    if f.count = 1 then s!"byte 0x{String.ofList (hex 2 f.byte)} in position {f.position}"
    else s!"bytes in position {f.position}-{f.position + f.count - 1}"
  s!"'utf-8' codec can't decode {place}: {f.flaw.message}"

/-- A character of which some bytes are read: where it starts and with which byte, the number that they write, how many are to
follow, and the bounds of the next. -/
structure Begun where
  position : Nat
  byte : Nat
  number : Nat
  missing : Nat
  low : Nat := 0x80
  high : Nat := 0xBF
  deriving DecidableEq, Repr

/-- A character that starts with a byte. -/
def begun? (position byte : Nat) : Option Begun :=
  if byte < 0x80 then some { position, byte, number := byte, missing := 0 }
  else if byte < 0xC2 then none
  else if byte < 0xE0 then some { position, byte, number := byte - 0xC0, missing := 1 }
  else if byte < 0xF0 then
    let low := if byte = 0xE0 then 0xA0 else 0x80
    let high := if byte = 0xED then 0x9F else 0xBF
    some { position, byte, number := byte - 0xE0, missing := 2, low, high }
  else if byte < 0xF5 then
    let low := if byte = 0xF0 then 0x90 else 0x80
    let high := if byte = 0xF4 then 0x8F else 0xBF
    some { position, byte, number := byte - 0xF0, missing := 3, low, high }
  else none

/-- A character that goes on with a byte. -/
def Begun.next (p : Begun) (byte : Nat) : Begun :=
  { p with number := p.number * 64 + (byte - 0x80), missing := p.missing - 1, low := 0x80, high := 0xBF }

/-- The fault of a character that does not go on at a position. -/
def Begun.fault (p : Begun) (position : Nat) (flaw : Flaw) : DecodingFault :=
  ⟨p.position, p.byte, position - p.position, flaw⟩

/-- The character that a byte at a position starts or goes on with. -/
def readByte (position : Nat) (pending : Option Begun) (byte : Nat) : Except DecodingFault Begun :=
  match pending with
  | none => (begun? position byte).elim (.error ⟨position, byte, 1, .start⟩) .ok
  | some p => if p.low ≤ byte ∧ byte ≤ p.high then .ok (p.next byte) else .error (p.fault position .continuation)

/-- The text that bytes from a position on write, behind those of a character that is begun. -/
def decodeFrom (position : Nat) (pending : Option Begun) : List UInt8 → Except DecodingFault (List Char)
  | [] => pending.elim (.ok []) fun p => .error (p.fault position .cut)
  | b :: bs =>
    match readByte position pending b.toNat with
    | .error f => .error f
    | .ok p =>
      if p.missing = 0 then (decodeFrom (position + 1) none bs).map (Char.ofNat p.number :: ·)
      else decodeFrom (position + 1) (some p) bs

/-- The text that bytes write. -/
def decode (bytes : List UInt8) : Except DecodingFault (List Char) := decodeFrom 0 none bytes

end Propositional.Text
