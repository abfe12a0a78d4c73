import StageLineage.Fingerprint
import StageLineage.Payload

/-! Envelopes are the stored records of materialized stages: a content, its fingerprint, and the
    fingerprints of the parents that it was chained to. A stored envelope is a JSON object with these
    three fields, or an array of the three values. -/

namespace StageLineage

/-- A content with the fingerprint that chains it to its parents. -/
structure Envelope where
  content : Json
  fingerprint : Fingerprint
  parents : ParentFingerprints

namespace Envelope

def ofPayload (p : Payload) (parents : ParentFingerprints) : Envelope :=
  ⟨p.value, .chain p.text parents, parents⟩

/-- The fingerprint that the content and the parents ought to have. -/
def recompute (e : Envelope) : Fingerprint := .chain e.content.canonicalText e.parents

/-- Whether the stored fingerprint is the one that the content and the parents ought to have. -/
def verify (e : Envelope) : Bool := e.recompute = e.fingerprint

/-! ### Writing -/

def toJson (e : Envelope) : Json :=
  .object [("content", e.content), ("fingerprint", .string e.fingerprint.toHex),
    ("parentFingerprints", .object (e.parents.entries.map fun p => (p.1, .string p.2.toHex)))]

def encode (pretty : Bool) (e : Envelope) : String :=
  if pretty then e.toJson.indented else e.toJson.compact

/-! ### Reading -/

/-- One field of a stored envelope; unknown fields are passed over. -/
inductive Part where
  | content (value : Json)
  | fingerprint (value : Fingerprint)
  | parents (value : ParentFingerprints)
  | other

/-- How many containers the content may nest inside the envelope. -/
def contentDepth : Nat := Json.maxDepth - 1

def fingerprint? : Json.Reader Fingerprint := fun cs =>
  match Json.string? true cs with
  | none => none
  | some (text, rest) =>
    match Fingerprint.ofHex text with
    | .ok f => some (f, rest)
    | .error _ => none

def parents? : Json.Reader ParentFingerprints := fun cs =>
  match Json.skipBlanks cs with
  | '\x7b' :: rest => (Json.fields true (fun _ => fingerprint?) rest).map fun r => (.ofList r.1, r.2)
  | _ => none

def part? (key : String) : Json.Reader Part := fun cs =>
  if key = "content" then (Json.value? true contentDepth cs).map fun r => (.content r.1, r.2)
  else if key = "fingerprint" then (fingerprint? cs).map fun r => (.fingerprint r.1, r.2)
  else if key = "parentFingerprints" then (parents? cs).map fun r => (.parents r.1, r.2)
  else (Json.skipValue cs).map fun r => (.other, r.2)

/-- The values that `f` takes from a list of fields, if there is at most one. -/
def atMostOne {α : Type} (f : Part → Option α) (parts : List (String × Part)) : Option (Option α) :=
  match parts.filterMap fun p => f p.2 with
  | [] => some none
  | [x] => some (some x)
  | _ => none

/-- The envelope made of some fields: none of the three occurs twice, and only the parents may be missing. -/
def ofParts? (parts : List (String × Part)) : Option Envelope := do
  let content ← atMostOne (fun | .content v => some v | _ => none) parts
  let fingerprint ← atMostOne (fun | .fingerprint v => some v | _ => none) parts
  let parents ← atMostOne (fun | .parents v => some v | _ => none) parts
  return ⟨← content, ← fingerprint, parents.getD .empty⟩

/-- Reads the values of an envelope in array form, after the opening bracket. -/
def values? : Json.Reader Envelope := fun cs => do
  let (content, rest) ← Json.value? true contentDepth cs
  match Json.skipBlanks rest with
  | ',' :: rest =>
    let (fingerprint, rest) ← fingerprint? rest
    match Json.skipBlanks rest with
    | ']' :: rest => some (⟨content, fingerprint, .empty⟩, rest)
    | ',' :: rest =>
      let (parents, rest) ← parents? rest
      match Json.skipBlanks rest with
      | ']' :: rest => some (⟨content, fingerprint, parents⟩, rest)
      | _ => none
    | _ => none
  | _ => none

def envelope? : Json.Reader Envelope := fun cs =>
  match Json.skipBlanks cs with
  | '\x7b' :: rest => do
    let (parts, rest) ← Json.fields true part? rest
    let e ← ofParts? parts
    return (e, rest)
  | '[' :: rest => values? rest
  | _ => none

def decode? (text : String) : Option Envelope := Json.complete envelope? text.toList

/-! ### Bytes -/

def isField (key : String) : Bool := key = "content" || key = "fingerprint" || key = "parentFingerprints"

/-- The values of unknown fields, each by how much of the text is left before and after it. -/
def passedOver (cs : List Char) : List (Nat × Nat) :=
  let span : String → Json.Reader (Option (Nat × Nat)) := fun key cs =>
    (Json.skipValue cs).map fun r => (if isField key then none else some (cs.length, r.2.length), r.2)
  match Json.skipBlanks cs with
  | '\x7b' :: rest => ((Json.fields false span rest).map fun r => r.1.filterMap (·.2)).getD []
  | _ => []

/-- The bytes with a question mark for each that is not ASCII and stands in the value of an unknown field. To find
    these values the bytes are taken for characters, since all that structures the text is ASCII. -/
def masked (bytes : ByteArray) : ByteArray :=
  let values := passedOver (bytes.toList.map fun b => Char.ofNat b.toNat)
  ⟨bytes.data.mapIdx fun i b =>
    let left := bytes.size - i
    if 0x80 ≤ b && values.any fun v => v.2 < left && left ≤ v.1 then 0x3f else b⟩

/-- Reads a stored envelope. Only what is passed over need not be UTF-8. -/
def ofBytes? (bytes : ByteArray) : Option Envelope :=
  (String.fromUTF8? bytes <|> String.fromUTF8? (masked bytes)) >>= decode?

end Envelope
end StageLineage
