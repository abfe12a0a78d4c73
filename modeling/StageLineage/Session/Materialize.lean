import StageLineage.Session.Basic

/-! Materializing a stage: its content is sealed with the fingerprints of the parents that are present
    and written where the stage stands. Parents are looked at in the order of their declaration, and
    nothing is written unless all of them are in order. -/

namespace StageLineage

/-- A stage that was materialized. -/
structure Materialization where
  path : StagePath
  /-- Where the envelope lies in the store. -/
  artifactPath : Path
  envelope : Envelope
  /-- Whether an envelope was there before. -/
  replaced : Bool
  /-- The optional parents without envelope. -/
  skippedParents : List String

/-- What is known of the parents that were looked at. -/
structure GatheredParents where
  fingerprints : ParentFingerprints
  skipped : List String

namespace Session
variable {m : Type → Type} [Monad m] [SessionStore m]

/-- Looks at parents one after another. -/
def gatherParents (d : Definition) (l : Lineage) (stage : String) (g : GatheredParents) :
    List String → ExceptT SessionError m GatheredParents
  | [] => return g
  | parent :: rest => do
    if l.isPresent parent then
      match ← readFrom l parent with
      | none => throw (.missingParent stage parent)
      | some e => gatherParents d l stage { g with fingerprints := g.fingerprints.insert parent e.fingerprint } rest
    else if (d.stage? parent).any (·.optional) then
      gatherParents d l stage { g with skipped := g.skipped ++ [parent] } rest
    else throw (.missingParent stage parent)

/-- Seals and writes an envelope whose parents are known. -/
def writeEnvelope (s : Session) (l : Lineage) (stage : String) (payload : Payload) (g : GatheredParents) :
    ExceptT SessionError m Materialization := do
  match l.path? stage with
  | none => throw (.unknownStage stage)
  | some path =>
    let artifactPath := s.root.join path.artifactPath
    let replaced ← (SessionStore.fileExists artifactPath : m Bool)
    let envelope := Envelope.ofPayload payload g.fingerprints
    onStore (SessionStore.ensureDirectory (s.root.join path.metaDir))
    onStore (SessionStore.write artifactPath (envelope.encode s.options.pretty).toUTF8)
    return ⟨path, artifactPath, envelope, replaced, g.skipped⟩

/-- Materializes a stage with a content. -/
def materialize (s : Session) (stage : String) (content : Json) : ExceptT SessionError m Materialization := do
  match s.persona.definition.stage? stage with
  | none => throw (.unknownStage stage)
  | some declared =>
    match Payload.ofValue s.options.maxPayload content with
    | .error cause => throw (.payload stage cause)
    | .ok payload =>
      let l ← s.lineage
      let g ← gatherParents s.persona.definition l stage ⟨.empty, []⟩ declared.distinctParents
      s.writeEnvelope l stage payload g

end Session
end StageLineage
