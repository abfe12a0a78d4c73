import StageLineage.Registry
import StageLineage.Settings.Basic

/-! Why a command failed. The messages say what was being done, and then what went wrong with it, from
    the outermost cause to the innermost. -/

namespace StageLineage.Cli

inductive Purpose where
  | validating
  | loading
  deriving DecidableEq

def Purpose.word : Purpose → String
  | validating => "validating"
  | loading => "loading"

inductive Failure where
  /-- The file of settings. -/
  | settings (path : Path) (cause : SettingsError)
  /-- The ids that locate a session. -/
  | location (cause : SettingsError)
  | manifest (purpose : Purpose) (path : Path) (cause : ManifestError)
  | layout (cause : LayoutError)
  /-- The directory of manifests. -/
  | registry (dir : Path) (cause : RegistryError)
  | unknownPersona (persona : String) (dir : Path) (known : List String)
  | unreadableContent (path : Path) (cause : IoError)
  | malformedContent
  /-- A stage that was asked for. -/
  | materialize (stage : String) (root : Path) (cause : SessionError)
  /-- A stage of a scenario. -/
  | step (stage : String) (cause : SessionError)
  | session (cause : SessionError)
  | skipNotOptional (stage : String)
  | skipUnknown (stage : String)
  deriving DecidableEq

namespace Failure

/-- The messages of a failure, outermost first. -/
def chain (w : Wording) : Failure → List String
  | settings path cause => s!"loading config {path.text}" :: cause.chain w
  | location cause => cause.chain w
  | manifest purpose path cause => s!"{purpose.word} {path.text}" :: cause.chain w
  | layout cause => cause.chain
  | registry dir cause => s!"loading manifests from {dir.text}" :: cause.chain w
  | unknownPersona persona dir known =>
    let names := ", ".intercalate known
    [s!"persona '{persona}' not found in {dir.text} (known: {names})"]
  | unreadableContent path cause => [s!"reading {path.text}", w.io cause]
  | malformedContent => ["stage content must be JSON", w.malformed]
  | materialize stage root cause => s!"materializing '{stage}' in {root.text}" :: cause.chain w
  | step stage cause => s!"materializing '{stage}'" :: cause.chain w
  | session cause => cause.chain w
  | skipNotOptional stage => [s!"cannot skip '{stage}': stage is not optional"]
  | skipUnknown stage => [s!"cannot skip '{stage}': no such stage"]

end Failure
end StageLineage.Cli
