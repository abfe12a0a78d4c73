import StageLineage.Cli.Arguments
import StageLineage.Cli.Failure
import StageLineage.Cli.Report
import StageLineage.Store.Disk

/-! The commands over a file system. Each reads what it needs, and its lines are made from what it found;
    a command that fails before it has found anything writes nothing. -/

namespace StageLineage.Cli

/-! ### Preparations -/

section
variable {m : Type → Type} [Monad m] [FileSystem m]

/-- An operation with errors of its own as a part of a command. -/
def attempt {ε α : Type} (wrap : ε → Failure) (action : m (Except ε α)) : ExceptT Failure m α := do
  match ← (action : m _) with
  | .ok x => return x
  | .error e => throw (wrap e)

def SharedOptions.settings (o : SharedOptions) : ExceptT Failure m Settings := do
  let s ← match o.config with
    | none => pure {}
    | some path => attempt (.settings path) (Settings.load path)
  return { s with
    sessionsRoot := o.sessionsRoot.getD s.sessionsRoot, manifestsDir := o.manifestsDir.getD s.manifestsDir }

def readManifest (purpose : Purpose) (path : Path) : ExceptT Failure m Definition :=
  attempt (.manifest purpose path) (Formats.standard.load path)

def layOut (d : Definition) : ExceptT Failure m Persona := attempt Failure.layout (pure (Persona.compile d))

def findPersona (s : Settings) (persona : String) : ExceptT Failure m Persona := do
  let (registry, loaded) ← (Registry.empty.loadDirectory .standard s.manifestsDir : m _)
  let _ ← attempt (Failure.registry s.manifestsDir) (pure loaded)
  match registry.get? persona with
  | some p => return p
  | none => throw (.unknownPersona persona s.manifestsDir registry.ids)

def openSession (s : Settings) (p : Persona) (persona session : String) : ExceptT Failure m Session := do
  let root ← attempt Failure.location (pure (s.sessionRoot persona session))
  return ⟨p, ⟨s.maxPayload, s.pretty⟩, root⟩

def ContentSource.read (source : ContentSource) : ExceptT Failure m Json := do
  let text ← match source with
    | inline text => pure text
    | file path => attempt (.unreadableContent path) (FileSystem.readText path)
  match Json.parse? text with
  | some content => return content
  | none => throw .malformedContent

/-! ### Commands -/

def validate (manifest : Path) : ExceptT Failure m (List String) := do
  return Report.manifest (← readManifest .validating manifest)

def showPaths (manifest : Path) : ExceptT Failure m (List String) := do
  return Report.paths (← layOut (← readManifest .loading manifest)).topology

def materialize (s : Settings) (persona session stage : String) (source : ContentSource) :
    ExceptT Failure m (List String) := do
  let opened ← openSession s (← findPersona s persona) persona session
  let content ← source.read
  let x ← attempt (.materialize stage opened.root) (opened.materialize stage content).run
  return Report.materialization x

def status (s : Settings) (persona session : String) (json : Bool) : ExceptT Failure m (List String) := do
  let opened ← openSession s (← findPersona s persona) persona session
  let position ← attempt Failure.session opened.position.run
  let stale ← attempt Failure.session opened.stale.run
  return if json then [(Report.statusJson persona session position stale).indented] else Report.status position stale

end
end StageLineage.Cli
