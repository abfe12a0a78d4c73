import StageLineage.LineagePath
import StageLineage.Manifest.Definition

/-! The layout of the stages of a manifest in a session tree. A stage nests below its parent. A stage
    with two or more parents nests below a join directory, named by the sorted ids of the parents and
    placed where the directories of the parents part. -/

namespace StageLineage

inductive LayoutError where
  | unknownStage (stage : String)
  | invalidSegment (stage : String) (cause : SegmentError)
  deriving DecidableEq

namespace LayoutError

def message : LayoutError → String
  | unknownStage stage => s!"unknown stage '{stage}'"
  | invalidSegment stage cause => s!"cannot lay out stage '{stage}': {cause.message}"

def stage : LayoutError → String
  | unknownStage stage | invalidSegment stage _ => stage

def chain (e : LayoutError) : List String :=
  match e with
  | unknownStage _ => [e.message]
  | invalidSegment _ cause => [e.message, cause.message]

end LayoutError

/-- What the layout of a session needs to know of a stage. -/
structure StageLayout where
  segment : Segment
  /-- The declared parents, each once. -/
  parents : List String
  optional : Bool
  /-- The path if every parent takes part. -/
  path : StagePath

/-- The stages of a manifest in topological order. -/
structure Topology where
  stages : List StageLayout

namespace Topology

/-- The directory of a stage, given the directories of the parents that take part. -/
def place (id : String) (segment : Segment) : List (String × LineagePath) → Except LayoutError LineagePath
  | [] => .ok (LineagePath.root.child segment)
  | [(_, dir)] => .ok (dir.child segment)
  | (first, dir) :: rest =>
    let base := rest.foldl (fun common p => common.common p.2) dir
    match Segment.ofParents (first :: rest.map (·.1)) with
    | .ok join => .ok ((base.child join).child segment)
    | .error cause => .error (.invalidSegment id cause)

def find? (stages : List StageLayout) (id : String) : Option StageLayout := stages.find? (·.path.stage == id)

/-- The directory of a parent that is already laid out. -/
def parentDir (placed : List StageLayout) (parent : String) : Except LayoutError (String × LineagePath) :=
  match find? placed parent with
  | some layout => .ok (parent, layout.path.dir)
  | none => .error (.unknownStage parent)

def layout (d : Definition) (placed : List StageLayout) (id : String) : Except LayoutError StageLayout :=
  match d.stage? id with
  | none => .error (.unknownStage id)
  | some stage =>
    match Segment.ofStage id with
    | .error cause => .error (.invalidSegment id cause)
    | .ok segment => do
      let parents := stage.distinctParents
      let dir ← place id segment (← parents.mapM (parentDir placed))
      return ⟨segment, parents, stage.optional, ⟨id, dir⟩⟩

def layoutAll (d : Definition) (placed : List StageLayout) : List String → Except LayoutError (List StageLayout)
  | [] => .ok placed
  | id :: ids => do
    let l ← layout d placed id
    layoutAll d (placed ++ [l]) ids

def resolve (d : Definition) : Except LayoutError Topology := do
  return ⟨← layoutAll d [] d.order⟩

def path? (t : Topology) (id : String) : Option StagePath := (find? t.stages id).map (·.path)

def paths (t : Topology) : List StagePath := t.stages.map (·.path)

def isOptional (t : Topology) (id : String) : Bool := (find? t.stages id).any (·.optional)

end Topology
end StageLineage
