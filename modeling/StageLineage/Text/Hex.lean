/-! Bytes as hexadecimal digits. Writing uses lower case; reading takes either case and reports an odd
    number of digits first, then the first byte of the text that is no digit. -/

namespace StageLineage.Hex

/-- Why a text is not a sequence of hexadecimal bytes. -/
inductive Error where
  /-- The text has an odd number of bytes. -/
  | oddLength
  /-- The byte at a position is not a digit. -/
  | invalidDigit (byte : UInt8) (position : Nat)
  deriving DecidableEq

/-- The lower-case digit of a value below 16. -/
def digit (n : Nat) : Char :=
  if n < 10 then Char.ofNat (48 + n) else Char.ofNat (87 + n)

def byteDigits (b : UInt8) : List Char := [digit (b.toNat / 16), digit (b.toNat % 16)]

def encode (bytes : List UInt8) : List Char := bytes.flatMap byteDigits

def digitValue? (b : UInt8) : Option Nat :=
  if 48 ≤ b && b ≤ 57 then some (b.toNat - 48)
  else if 97 ≤ b && b ≤ 102 then some (b.toNat - 87)
  else if 65 ≤ b && b ≤ 70 then some (b.toNat - 55)
  else none

/-- The value of the digit at `position`. -/
def digitAt (position : Nat) (b : UInt8) : Except Error Nat :=
  match digitValue? b with
  | some v => .ok v
  | none => .error (.invalidDigit b position)

/-- Reads pairs of digits, the first of which stands at `position`. -/
def decodePairs (position : Nat) : List UInt8 → Except Error (List UInt8)
  | [] => .ok []
  | [_] => .error .oddLength
  | a :: b :: rest => do
    let high ← digitAt position a
    let low ← digitAt (position + 1) b
    let tail ← decodePairs (position + 2) rest
    return UInt8.ofNat (16 * high + low) :: tail

/-- The bytes written in a text, which is given by its bytes. -/
def decode (text : List UInt8) : Except Error (List UInt8) :=
  if text.length % 2 = 1 then .error .oddLength else decodePairs 0 text

end StageLineage.Hex
