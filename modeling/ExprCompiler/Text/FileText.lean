/-!
# The text of a source file

A file is decoded strictly from UTF-8 and its line ends `\r\n` and `\r` are
read as `\n`. Bytes that no text can hold make the whole file unreadable; a
character cut short by the end of the file is met only after all complete
characters have been read.
-/

namespace ExprCompiler.Text

namespace Utf8

/-- A character whose first bytes have been read: the number of bytes still to come, its value
so far, and the range of the next byte. -/
structure Partial where
  missing : Nat
  value : Nat
  low : Nat
  high : Nat

inductive Lead
  | ascii
  | first (p : Partial)
  | invalid

def lead (b : Nat) : Lead :=
  if b < 0x80 then .ascii
  else if b < 0xc2 then .invalid
  else if b < 0xe0 then .first ⟨1, b - 0xc0, 0x80, 0xbf⟩
  else if b < 0xf0 then
    .first ⟨2, b - 0xe0, if b = 0xe0 then 0xa0 else 0x80, if b = 0xed then 0x9f else 0xbf⟩
  else if b < 0xf5 then
    .first ⟨3, b - 0xf0, if b = 0xf0 then 0x90 else 0x80, if b = 0xf4 then 0x8f else 0xbf⟩
  else .invalid

structure Decoded where
  chars : List Char
  truncated : Bool

def Decoded.push (c : Char) (d : Decoded) : Decoded := { d with chars := c :: d.chars }

def decodeFrom : Option Partial → List UInt8 → Option Decoded
  | none, [] => some ⟨[], false⟩
  | some _, [] => some ⟨[], true⟩
  | none, b :: bs =>
    match lead b.toNat with
    | .ascii => (decodeFrom none bs).map (·.push (Char.ofNat b.toNat))
    | .first p => decodeFrom (some p) bs
    | .invalid => none
  | some p, b :: bs =>
    if p.low ≤ b.toNat && b.toNat ≤ p.high then
      let value := p.value * 64 + (b.toNat - 0x80)
      if p.missing ≤ 1 then (decodeFrom none bs).map (·.push (Char.ofNat value))
      else decodeFrom (some ⟨p.missing - 1, value, 0x80, 0xbf⟩) bs
    else none

def decode (bs : List UInt8) : Option Decoded := decodeFrom none bs

end Utf8

def unifyLineEnds : List Char → List Char
  | [] => []
  | '\r' :: '\n' :: cs => '\n' :: unifyLineEnds cs
  | c :: cs => (if c == '\r' then '\n' else c) :: unifyLineEnds cs

def dropFinalReturn (cs : List Char) : List Char :=
  if cs.getLast? == some '\r' then cs.dropLast else cs

end ExprCompiler.Text
