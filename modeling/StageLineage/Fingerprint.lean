import StageLineage.Digest.Blake3
import StageLineage.SortedMap
import StageLineage.Text.Hex
import StageLineage.Text.Quoted

/-! Fingerprints chain a content text with the fingerprints of its parents. The hashed text is the
    content, a NUL, and the parent entries `key:hex` in key order, joined by newlines. -/

namespace StageLineage

/-- A digest of 32 bytes. -/
structure Fingerprint where
  bytes : Vector UInt8 32
  deriving DecidableEq

inductive FingerprintError where
  | invalidLength (actual : Nat)
  | hex (cause : Hex.Error)
  deriving DecidableEq

namespace FingerprintError

def message : FingerprintError → String
  | invalidLength actual => s!"invalid fingerprint length: expected 32, got {actual}"
  | hex .oddLength => "hex decode error: Odd number of digits"
  | hex (.invalidDigit byte position) =>
    let shown := Text.quotedChar (Char.ofNat byte.toNat)
    s!"hex decode error: Invalid character {shown} at position {position}"

end FingerprintError

namespace Fingerprint

def ofBytes (bytes : List UInt8) : Except FingerprintError Fingerprint :=
  if h : bytes.toArray.size = 32 then .ok ⟨⟨bytes.toArray, h⟩⟩ else .error (.invalidLength bytes.length)

def hexDigits (f : Fingerprint) : List Char := Hex.encode f.bytes.toList

def toHex (f : Fingerprint) : String := String.ofList f.hexDigits

/-- The first sixteen digits. -/
def short (f : Fingerprint) : String := String.ofList (f.hexDigits.take 16)

/-- The fingerprint written in a text, with digits of either case. -/
def ofHex (text : String) : Except FingerprintError Fingerprint :=
  match Hex.decode text.toUTF8.toList with
  | .ok bytes => ofBytes bytes
  | .error e => .error (.hex e)

/-- The order of the bytes, first byte first. -/
instance : Ord Fingerprint := ⟨compareOn fun f => f.bytes.toList.map UInt8.toNat⟩

def ofData (data : List UInt8) : Fingerprint := ⟨Blake3.hash data⟩

end Fingerprint

/-- The fingerprints of a stage's parents by parent id. -/
abbrev ParentFingerprints := SortedMap String Fingerprint

namespace Fingerprint

def entryChars (entry : String × Fingerprint) : List Char := entry.1.toList ++ ':' :: entry.2.hexDigits

/-- The parent entries, with a newline between two of them. -/
def entriesChars : List (String × Fingerprint) → List Char
  | [] => []
  | [entry] => entryChars entry
  | entry :: more => entryChars entry ++ '\n' :: entriesChars more

/-- The text that is hashed for a content and its parents. -/
def hashedText (content : String) (parents : ParentFingerprints) : String :=
  String.ofList (content.toList ++ '\x00' :: entriesChars parents.entries)

def chain (content : String) (parents : ParentFingerprints) : Fingerprint :=
  ofData (hashedText content parents).toUTF8.toList

/-- The fingerprint of a content and a list of parents in any order; of equal keys the last counts. -/
def chainList (content : String) (parents : List (String × Fingerprint)) : Fingerprint :=
  chain content (.ofList parents)

end Fingerprint
end StageLineage
