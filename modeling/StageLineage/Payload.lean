import StageLineage.FileSystem.Basic
import StageLineage.Json.Printer
import StageLineage.Json.Reader

/-! Payloads are the JSON values that stages emit, checked once and kept in canonical form. Their
    canonical text is what gets fingerprinted. -/

namespace StageLineage

inductive PayloadError where
  | null
  | tooLarge (size max : Nat)
  /-- The text is not JSON. -/
  | malformed
  deriving DecidableEq

namespace PayloadError

def message (w : Wording) : PayloadError → String
  | null => "stage payload must not be null"
  | tooLarge size max => s!"stage payload too large: {size} bytes (max: {max})"
  | malformed => s!"payload serialization error: {w.malformed}"

def chain (w : Wording) (e : PayloadError) : List String :=
  match e with
  | malformed => [e.message w, w.malformed]
  | _ => [e.message w]

end PayloadError

/-- A value in canonical form. -/
structure Payload where
  value : Json

namespace Payload

/-- The canonical size that payloads are limited to if nothing else is said: 8 MiB. -/
def defaultLimit : Nat := 8 * 1024 * 1024

def text (p : Payload) : String := p.value.compact

/-- Accepts a value that is not null and whose canonical text has at most `limit` bytes. -/
def ofValue (limit : Nat) (value : Json) : Except PayloadError Payload :=
  match value with
  | .null => .error .null
  | value =>
    let p : Payload := ⟨value.canonical⟩
    let size := p.text.utf8ByteSize
    if limit < size then .error (.tooLarge size limit) else .ok p

def ofText (limit : Nat) (text : String) : Except PayloadError Payload :=
  match Json.parse? text with
  | some value => ofValue limit value
  | none => .error .malformed

end Payload
end StageLineage
