import StageLineage.Manifest.Reader
import StageLineage.Yaml.Document

/-! The formats in which manifests are written, and the choice of a format by the extension of a file.
    Of two formats for one extension the one of higher priority is taken. -/

namespace StageLineage

inductive Format where
  | json
  | yaml
  deriving DecidableEq

namespace Format

def name : Format → String
  | json => "json"
  | yaml => "yaml"

def extensions : Format → List String
  | json => ["json"]
  | yaml => ["yaml", "yml"]

/-- Which format is taken first. -/
def priority : Format → Nat
  | json => 1
  | yaml => 0

def decode (f : Format) (text : String) : Except ManifestError Json :=
  match f with
  | json =>
    match Json.parse? text with
    | some document => .ok document
    | none => .error (.malformed f.name)
  | yaml =>
    match Yaml.parse text with
    | .ok document => .ok document
    | .error .malformed => .error (.malformed f.name)
    | .error (.documentCount count) => .error (.documentCount f.name count)

def manifest (f : Format) (text : String) : Except ManifestError Definition := do
  Manifest.ofDocument (← f.decode text)

end Format

/-- Formats in the order in which they are tried. -/
structure Formats where
  formats : List Format

namespace Formats

def empty : Formats := ⟨[]⟩

/-- Adds a format behind those of the same or a higher priority. -/
def register (fs : Formats) (f : Format) : Formats :=
  let first := fs.formats.takeWhile (f.priority ≤ ·.priority)
  ⟨first ++ f :: fs.formats.drop first.length⟩

def standard : Formats := (empty.register .yaml).register .json

def extensions (fs : Formats) : List String := fs.formats.flatMap (·.extensions)

def forPath? (fs : Formats) (p : Path) : Option Format :=
  p.extension?.bind fun extension => fs.formats.find? (·.extensions.contains extension)

def description (fs : Formats) : String :=
  s!"FormatRegistry \x7b format_count: {fs.formats.length}, extensions: {Text.quotedList fs.extensions} \x7d"

/-- Reads the manifest in a file. -/
def load {m : Type → Type} [Monad m] [FileSystem m] (fs : Formats) (p : Path) :
    m (Except ManifestError Definition) := do
  match fs.forPath? p with
  | none => return .error (.unsupportedFormat (p.extension?.getD ""))
  | some format =>
    match ← FileSystem.readText p with
    | .error cause => return .error (.unreadable p cause)
    | .ok text => return format.manifest text

end Formats
end StageLineage
