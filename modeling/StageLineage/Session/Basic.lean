import StageLineage.Envelope
import StageLineage.Position
import StageLineage.Store.Basic

/-! Sessions: runs of one persona whose envelopes lie in a store, below a root of their own. -/

namespace StageLineage

structure Persona where
  definition : Definition
  topology : Topology

namespace Persona

def compile (d : Definition) : Except LayoutError Persona := do
  return ⟨d, ← Topology.resolve d⟩

def id (p : Persona) : String := p.definition.persona

end Persona

/-- How envelopes are made. -/
structure SessionOptions where
  /-- How many bytes the canonical text of a payload may have. -/
  maxPayload : Nat := Payload.defaultLimit
  /-- Whether envelopes are indented. -/
  pretty : Bool := true

structure Session where
  persona : Persona
  options : SessionOptions
  root : Path

inductive SessionError where
  | unknownStage (stage : String)
  /-- A parent that is not optional has no envelope. -/
  | missingParent (stage parent : String)
  | payload (stage : String) (cause : PayloadError)
  /-- The stored file is not an envelope. -/
  | corruptEnvelope (stage : String) (path : Path)
  | layout (cause : LayoutError)
  | store (cause : StoreError)
  deriving DecidableEq

namespace SessionError

def message (w : Wording) : SessionError → String
  | unknownStage stage => s!"unknown stage '{stage}'"
  | missingParent stage parent => s!"cannot materialize '{stage}': required parent '{parent}' has no artifact"
  | payload stage cause => s!"invalid payload for stage '{stage}': {cause.message w}"
  | corruptEnvelope stage path => s!"corrupt envelope for stage '{stage}' at {path.text}: {w.malformed}"
  | layout cause => cause.message
  | store cause => cause.message w

def stage? : SessionError → Option String
  | unknownStage stage | missingParent stage _ | payload stage _ | corruptEnvelope stage _ => some stage
  | layout cause => some cause.stage
  | store _ => none

/-- Whether a stage was asked for before its parents. -/
def isPrecondition : SessionError → Bool
  | missingParent _ _ => true
  | _ => false

/-- Whether what was asked for makes no sense in itself. -/
def isValidation : SessionError → Bool
  | unknownStage _ | payload _ _ | layout _ => true
  | _ => false

def chain (w : Wording) (e : SessionError) : List String :=
  match e with
  | payload _ cause => e.message w :: cause.chain w
  | corruptEnvelope _ _ => [e.message w, w.malformed]
  | layout cause => cause.chain
  | store cause => cause.chain w
  | _ => [e.message w]

end SessionError

namespace Session
variable {m : Type → Type} [Monad m] [SessionStore m]

/-- A store operation as a part of a session operation. -/
def onStore {α : Type} (action : m (Except StoreError α)) : ExceptT SessionError m α := do
  match ← (action : m _) with
  | .ok x => return x
  | .error cause => throw (.store cause)

def lineage (s : Session) : ExceptT SessionError m Lineage := do
  match ← (Lineage.scan SessionStore.fileExists s.persona.topology s.root : m _) with
  | .ok l => return l
  | .error cause => throw (.layout cause)

/-- The stored envelope of a stage that stands where the lineage says. -/
def readFrom (l : Lineage) (stage : String) : ExceptT SessionError m (Option Envelope) := do
  match l.artifactPath? stage with
  | none => return none
  | some path =>
    match ← onStore (SessionStore.read path) with
    | none => return none
    | some bytes =>
      match Envelope.ofBytes? bytes with
      | some e => return some e
      | none => throw (.corruptEnvelope stage path)

def readEnvelope (s : Session) (stage : String) : ExceptT SessionError m (Option Envelope) := do
  if s.persona.definition.contains stage then readFrom (← s.lineage) stage else throw (.unknownStage stage)

def completed (s : Session) : ExceptT SessionError m (List String) := do
  return Position.completedIds s.persona.definition (← s.lineage)

def position (s : Session) : ExceptT SessionError m Position := do
  return Position.of s.persona.definition (← s.lineage)

end Session
end StageLineage
