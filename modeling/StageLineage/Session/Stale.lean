import StageLineage.Session.Basic

/-! Stale stages: stages whose envelope fails its own check, or was chained to a parent as it no longer
    is, or to a parent that is itself stale. -/

namespace StageLineage

inductive StaleReason where
  /-- The fingerprint does not belong to the content and the parents. -/
  | tampered
  /-- The fingerprint of a parent is not the one that the stage was chained to. -/
  | parentChanged (parent : String)
  | parentStale (parent : String)
  deriving DecidableEq

structure StaleStage where
  stage : String
  reason : StaleReason
  deriving DecidableEq

/-- What is known of the stages that were looked at. -/
structure StaleScan where
  /-- The stored fingerprints by stage. -/
  current : List (String × Fingerprint)
  stale : List StaleStage

namespace StaleScan

def fingerprint? (scan : StaleScan) (stage : String) : Option Fingerprint :=
  (scan.current.find? (·.1 == stage)).map (·.2)

/-- What makes the child of a parent stale. -/
def parentReason? (scan : StaleScan) (e : Envelope) (parent : String) : Option StaleReason :=
  if scan.stale.any (·.stage == parent) then some (.parentStale parent)
  else if e.parents.get? parent ≠ scan.fingerprint? parent then some (.parentChanged parent)
  else none

/-- What makes an envelope stale, given the declared parents of its stage. -/
def reason? (scan : StaleScan) (parents : List String) (e : Envelope) : Option StaleReason :=
  if e.verify then parents.findSome? (scan.parentReason? e) else some .tampered

def add (scan : StaleScan) (stage : String) (parents : List String) (e : Envelope) : StaleScan :=
  let found := (scan.reason? parents e).map fun reason => StaleStage.mk stage reason
  ⟨(stage, e.fingerprint) :: scan.current, scan.stale ++ found.toList⟩

end StaleScan

namespace Session
variable {m : Type → Type} [Monad m] [SessionStore m]

/-- Looks at present stages one after another. -/
def scanStale (d : Definition) (l : Lineage) (scan : StaleScan) : List String → ExceptT SessionError m StaleScan
  | [] => return scan
  | id :: rest => do
    match ← readFrom l id with
    | none => scanStale d l scan rest
    | some e => scanStale d l (scan.add id (Stage.distinct (d.parents id)) e) rest

/-- The stale stages in topological order. -/
def stale (s : Session) : ExceptT SessionError m (List StaleStage) := do
  let l ← s.lineage
  return (← scanStale s.persona.definition l ⟨[], []⟩ l.presentIds).stale

end Session
end StageLineage
