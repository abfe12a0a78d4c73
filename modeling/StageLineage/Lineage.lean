import StageLineage.Topology

/-! The lineage of one session: where each stage really stands, and whether its envelope is there. An
    optional parent without envelope does not take part in a join, so that a join of which one parent
    is left becomes plain nesting; if no parent is left, all of them take part. -/

namespace StageLineage

/-- Where a stage of a session stands. -/
structure RealizedStage where
  path : StagePath
  /-- Whether its envelope exists. -/
  present : Bool
  deriving DecidableEq

/-- The stages of a session in topological order. -/
structure Lineage where
  root : Path
  stages : List RealizedStage

namespace Lineage

def find? (stages : List RealizedStage) (id : String) : Option RealizedStage := stages.find? (·.path.stage == id)

/-- The parents of a stage that are realized, and of these the ones that take part if any does. -/
def takingPart (t : Topology) (done : List RealizedStage) (parents : List String) : List RealizedStage :=
  let all := parents.filterMap (find? done)
  let effective := all.filter fun p => !t.isOptional p.path.stage || p.present
  if effective.isEmpty then all else effective

def realize (t : Topology) (done : List RealizedStage) (l : StageLayout) : Except LayoutError StagePath := do
  let parents := takingPart t done l.parents
  let dir ← Topology.place l.path.stage l.segment (parents.map fun p => (p.path.stage, p.path.dir))
  return ⟨l.path.stage, dir⟩

section Scan
variable {m : Type → Type} [Monad m]

/-- Realizes layouts one after another, asking for each path whether its envelope exists. -/
def scanFrom (fileExists : Path → m Bool) (t : Topology) (root : Path) (done : List RealizedStage) :
    List StageLayout → m (Except LayoutError (List RealizedStage))
  | [] => return .ok done
  | l :: rest =>
    match realize t done l with
    | .error e => return .error e
    | .ok path => do
      let present ← fileExists (root.join path.artifactPath)
      scanFrom fileExists t root (done ++ [⟨path, present⟩]) rest

def scan (fileExists : Path → m Bool) (t : Topology) (root : Path) : m (Except LayoutError Lineage) := do
  return (← scanFrom fileExists t root [] t.stages).map fun stages => ⟨root, stages⟩

end Scan

def path? (l : Lineage) (id : String) : Option StagePath := (find? l.stages id).map (·.path)

def isPresent (l : Lineage) (id : String) : Bool := (find? l.stages id).any (·.present)

def artifactPath? (l : Lineage) (id : String) : Option Path := (l.path? id).map fun p => l.root.join p.artifactPath

def metaDir? (l : Lineage) (id : String) : Option Path := (l.path? id).map fun p => l.root.join p.metaDir

/-- The stages whose envelopes exist, in topological order. -/
def presentIds (l : Lineage) : List String := (l.stages.filter (·.present)).map (·.path.stage)

def paths (l : Lineage) : List StagePath := l.stages.map (·.path)

end Lineage
end StageLineage
