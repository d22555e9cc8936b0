namespace TreeWalk
namespace Utf8

inductive Reason where
  | badStart | badContinuation | truncated
  deriving DecidableEq, Repr

def Reason.text : Reason → String
  | badStart => "invalid start byte"
  | badContinuation => "invalid continuation byte"
  | truncated => "unexpected end of data"

/-- Bytes that are no character: where they begin, their number, the first of them. -/
structure Fault where
  reason : Reason
  start : Nat
  count : Nat
  byte : UInt8
  deriving DecidableEq, Repr

def hexByte (b : UInt8) : String :=
  String.ofList ['0', 'x', Nat.digitChar (b.toNat / 16), Nat.digitChar (b.toNat % 16)]

def Fault.message (f : Fault) : String :=
  let place :=
    if f.count = 1 then "byte " ++ hexByte f.byte ++ " in position " ++ toString f.start
    else "bytes in position " ++ toString f.start ++ "-" ++ toString (f.start + f.count - 1)
  "'utf-8' codec can't decode " ++ place ++ ": " ++ f.reason.text

structure Partial where
  start : Nat
  count : Nat
  first : UInt8
  bits : Nat
  /-- How many bytes are to come. -/
  owed : Nat
  least : Nat
  greatest : Nat
  deriving DecidableEq, Repr

def lead? (position : Nat) (b : UInt8) : Option Partial :=
  let n := b.toNat
  let asks (bits owed least greatest : Nat) : Option Partial :=
    some ⟨position, 1, b, bits, owed, least, greatest⟩
  if n < 0xc2 then none
  else if n < 0xe0 then asks (n - 0xc0) 1 0x80 0xbf
  else if n = 0xe0 then asks 0 2 0xa0 0xbf
  else if n = 0xed then asks 0xd 2 0x80 0x9f
  else if n < 0xf0 then asks (n - 0xe0) 2 0x80 0xbf
  else if n = 0xf0 then asks 0 3 0x90 0xbf
  else if n < 0xf4 then asks (n - 0xf0) 3 0x80 0xbf
  else if n = 0xf4 then asks 4 3 0x80 0x8f
  else none

/-- Decodes the rest of a byte sequence, the characters before it given latest first. -/
def decodeFrom (before : List Char) :
    Nat → Option Partial → List UInt8 → Except Fault (List Char)
  | _, none, [] => .ok before.reverse
  | _, some p, [] => .error ⟨.truncated, p.start, p.count, p.first⟩
  | position, none, b :: rest =>
    if b.toNat < 0x80 then decodeFrom (Char.ofNat b.toNat :: before) (position + 1) none rest
    else match lead? position b with
      | some p => decodeFrom before (position + 1) (some p) rest
      | none => .error ⟨.badStart, position, 1, b⟩
  | position, some p, b :: rest =>
    if p.least ≤ b.toNat ∧ b.toNat ≤ p.greatest then
      let bits := 64 * p.bits + (b.toNat - 0x80)
      if p.owed = 1 then decodeFrom (Char.ofNat bits :: before) (position + 1) none rest
      else
        decodeFrom before (position + 1)
          (some ⟨p.start, p.count + 1, p.first, bits, p.owed - 1, 0x80, 0xbf⟩) rest
    else .error ⟨.badContinuation, p.start, p.count, p.first⟩

def decode (bytes : List UInt8) : Except Fault String :=
  (decodeFrom [] 0 none bytes).map String.ofList

end Utf8

/-- Every line end as a newline: a carriage return before a newline is dropped, any other one
becomes a newline. -/
def joinLineEnds (text : List Char) : List Char :=
  (text.zip (text.tail.map some ++ [none])).filterMap fun (c, next) =>
    if c ≠ '\r' then some c else if next = some '\n' then none else some '\n'

def textLines : List Char → List (List Char)
  | [] => []
  | c :: rest =>
    if c = '\n' then [] :: textLines rest
    else match textLines rest with
      | [] => [[c]]
      | line :: lines => (c :: line) :: lines

end TreeWalk
