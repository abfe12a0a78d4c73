import StageLineage.FileSystem.Basic
import StageLineage.Payload
import StageLineage.Segment
import StageLineage.Settings.Toml

/-! The settings of the program: where sessions and manifests lie and how envelopes are made. A file of
    settings may name each of them once and nothing else. -/

namespace StageLineage

inductive IdKind where
  | persona
  | session
  deriving DecidableEq

def IdKind.name : IdKind → String
  | persona => "persona"
  | session => "session"

inductive SettingsError where
  | unreadable (path : Path) (cause : IoError)
  | malformed (path : Path)
  /-- An id is not a single directory name. -/
  | invalidId (kind : IdKind) (id : String) (cause : SegmentError)
  deriving DecidableEq

namespace SettingsError

def message (w : Wording) : SettingsError → String
  | unreadable path cause => s!"failed to read config {path.text}: {w.io cause}"
  | malformed path => s!"invalid config {path.text}: {w.malformed}"
  | invalidId kind id cause => s!"invalid {kind.name} id {Text.quoted id}: {cause.message}"

def chain (w : Wording) (e : SettingsError) : List String :=
  match e with
  | unreadable _ cause => [e.message w, w.io cause]
  | malformed _ => [e.message w, w.malformed]
  | invalidId _ _ cause => [e.message w, cause.message]

end SettingsError

structure Settings where
  /-- Where the sessions of all personas lie. -/
  sessionsRoot : Path := ⟨"./sessions"⟩
  /-- Where the manifests lie. -/
  manifestsDir : Path := ⟨"./manifests"⟩
  /-- How many bytes the canonical text of a payload may have. -/
  maxPayload : Nat := Payload.defaultLimit
  /-- Whether envelopes are indented. -/
  pretty : Bool := true

namespace Settings

/-- Whether two settings say the same, where paths are compared by their components. -/
def equiv (s t : Settings) : Bool :=
  s.sessionsRoot.equiv t.sessionsRoot && s.manifestsDir.equiv t.manifestsDir && s.maxPayload == t.maxPayload &&
    s.pretty == t.pretty

/-- The settings after one more field. -/
def withField? (s : Settings) : String × Toml.Value → Option Settings
  | ("sessions_root", .string text) => some { s with sessionsRoot := ⟨text⟩ }
  | ("manifests_dir", .string text) => some { s with manifestsDir := ⟨text⟩ }
  | ("max_payload_bytes", .integer n) => if 0 ≤ n then some { s with maxPayload := n.toNat } else none
  | ("pretty_envelopes", .boolean b) => some { s with pretty := b }
  | _ => none

def parse? (text : String) : Option Settings := do
  let fields ← Toml.parse? text
  fields.foldlM withField? {}

def load {m : Type → Type} [Monad m] [FileSystem m] (p : Path) : m (Except SettingsError Settings) := do
  match ← FileSystem.readText p with
  | .error cause => return .error (.unreadable p cause)
  | .ok text =>
    match parse? text with
    | some s => return .ok s
    | none => return .error (.malformed p)

/-- Checks that an id is a single directory name. -/
def checkId (kind : IdKind) (id : String) : Except SettingsError Unit :=
  (Segment.validate id).mapError (.invalidId kind id)

def sessionRoot (s : Settings) (persona session : String) : Except SettingsError Path := do
  checkId .persona persona
  checkId .session session
  return (s.sessionsRoot.child persona).child session

end Settings
end StageLineage
