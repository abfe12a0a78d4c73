import StageLineage.Path
import StageLineage.Segment

/-! Lineage paths are the places of stages in a session tree: the segments from the session root down.
    A stage path adds the envelope file of its stage, `meta/<id>.json`. -/

namespace StageLineage

/-- The segments from the session root to a directory. -/
structure LineagePath where
  segments : List Segment
  deriving DecidableEq, Inhabited

namespace LineagePath

def root : LineagePath := ⟨[]⟩

def length (p : LineagePath) : Nat := p.segments.length

/-- The path one segment further down. -/
def child (p : LineagePath) (s : Segment) : LineagePath := ⟨p.segments ++ [s]⟩

def parent? (p : LineagePath) : Option LineagePath :=
  if p.segments.isEmpty then none else some ⟨p.segments.dropLast⟩

def isPrefixOf (p q : LineagePath) : Bool := p.segments.isPrefixOf q.segments

def isAncestorOf (p q : LineagePath) : Bool := p.length < q.length && p.isPrefixOf q

def commonSegments : List Segment → List Segment → List Segment
  | a :: as, b :: bs => if a = b then a :: commonSegments as bs else []
  | _, _ => []

def common (p q : LineagePath) : LineagePath := ⟨commonSegments p.segments q.segments⟩

def containsJoin (p : LineagePath) : Bool := p.segments.any (·.isJoin)

/-- The path below a directory of the file system, segment after segment. -/
def relativePath (p : LineagePath) : Path := p.segments.foldl (fun dir s => dir.child s.dirName) .empty

/-- The directory names with a separator between two of them. -/
def display (p : LineagePath) : String := "/".intercalate (p.segments.map (·.dirName))

instance : Ord LineagePath := ⟨compareOn segments⟩

end LineagePath

/-- The place of one stage: its directory and its envelope file. -/
structure StagePath where
  stage : String
  dir : LineagePath
  deriving DecidableEq, Inhabited

namespace StagePath

/-- The directory of envelopes below every stage directory. -/
def metaName : String := "meta"

def artifactFile (p : StagePath) : String := p.stage ++ ".json"

def metaDir (p : StagePath) : Path := p.dir.relativePath.child metaName

def artifactPath (p : StagePath) : Path := p.metaDir.child p.artifactFile

/-- The text of a stage path. -/
def display (p : StagePath) : String := p.dir.display ++ "/" ++ metaName ++ "/" ++ p.artifactFile

end StagePath
end StageLineage
