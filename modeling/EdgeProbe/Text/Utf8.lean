/-!
# Bytes read as text

`decodeLossy` reads bytes as UTF-8 and puts U+FFFD for each longest run that begins a character
and does not finish it.
-/

namespace EdgeProbe.Text

/-- How many bytes follow a first byte, and the range that the second one lies in. -/
def leadClass? (b : UInt8) : Option (Nat × Nat × Nat) :=
  let n := b.toNat
  if 0xc2 ≤ n ∧ n ≤ 0xdf then some (1, 0x80, 0xbf)
  else if n = 0xe0 then some (2, 0xa0, 0xbf)
  else if 0xe1 ≤ n ∧ n ≤ 0xec then some (2, 0x80, 0xbf)
  else if n = 0xed then some (2, 0x80, 0x9f)
  else if 0xee ≤ n ∧ n ≤ 0xef then some (2, 0x80, 0xbf)
  else if n = 0xf0 then some (3, 0x90, 0xbf)
  else if 0xf1 ≤ n ∧ n ≤ 0xf3 then some (3, 0x80, 0xbf)
  else if n = 0xf4 then some (3, 0x80, 0x8f)
  else none

/-- A character that is being read: the bits so far, how many bytes are still to come and the
range of the next one. -/
structure Unfinished where
  bits : Nat
  left : Nat
  low : Nat
  high : Nat

def replacement : Char := '\ufffd'

/-- Begins a character at a first byte. -/
def beginChar (b : UInt8) : Sum Char Unfinished :=
  if b.toNat < 0x80 then .inl (Char.ofNat b.toNat)
  else
    match leadClass? b with
    | none => .inl replacement
    | some (1, low, high) => .inr ⟨b.toNat % 0x20, 1, low, high⟩
    | some (2, low, high) => .inr ⟨b.toNat % 0x10, 2, low, high⟩
    | some (left, low, high) => .inr ⟨b.toNat % 0x08, left, low, high⟩

def decodeFrom : Option Unfinished → List UInt8 → List Char
  | none, [] => []
  | some _, [] => [replacement]
  | none, b :: rest =>
    match beginChar b with
    | .inl c => c :: decodeFrom none rest
    | .inr u => decodeFrom (some u) rest
  | some u, b :: rest =>
    if u.low ≤ b.toNat ∧ b.toNat ≤ u.high then
      let bits := u.bits * 0x40 + b.toNat % 0x40
      if u.left ≤ 1 then Char.ofNat bits :: decodeFrom none rest
      else decodeFrom (some ⟨bits, u.left - 1, 0x80, 0xbf⟩) rest
    else
      match beginChar b with
      | .inl c => replacement :: c :: decodeFrom none rest
      | .inr u => replacement :: decodeFrom (some u) rest

/-- The text of bytes that need not be well-formed. -/
def decodeLossy (bytes : List UInt8) : String :=
  String.ofList (decodeFrom none bytes)

/-- The text of bytes that are well-formed. -/
def decode? (bytes : List UInt8) : Option String :=
  String.fromUTF8? ⟨bytes.toArray⟩

end EdgeProbe.Text
