import StageLineage.Manifest.Graph
import StageLineage.Manifest.Stage

/-! A checked manifest: its header, its stages in the order of declaration, and an order in which they
    can run. All other facts about the graph of the stages are derived from these. -/

namespace StageLineage

/-- A checked manifest. -/
structure Definition where
  header : Header
  stages : List Stage
  /-- Parents before children. -/
  order : List String

/-- The graph of some stages, with an edge for each declared parent. -/
def StageGraph.ofStages (stages : List Stage) : StageGraph :=
  ⟨stages.map (·.id), stages.flatMap fun s => s.parents.map fun p => ⟨p, s.id⟩⟩

namespace Definition

def persona (d : Definition) : String := d.header.persona

def ids (d : Definition) : List String := d.stages.map (·.id)

def stage? (d : Definition) (id : String) : Option Stage := d.stages.find? (·.id == id)

def contains (d : Definition) (id : String) : Bool := (d.stage? id).isSome

def edges (d : Definition) : List Edge := (StageGraph.ofStages d.stages).edges

/-- The stages that declare no parents at all. -/
def rootIds (d : Definition) : List String := (d.stages.filter (·.isRoot)).map (·.id)

def parents (d : Definition) (id : String) : List String := ((d.stage? id).map (·.parents)).getD []

/-- The stages that declare `id` as a parent, each once. -/
def children (d : Definition) (id : String) : List String :=
  (d.stages.filter (·.parents.contains id)).map (·.id)

/-- The stages that are nobody's parent. -/
def terminalIds (d : Definition) : List String := d.ids.filter fun id => (d.children id).isEmpty

/-- Whether a stage declares two or more parents. -/
def isJoin (d : Definition) (id : String) : Bool := (d.stage? id).any (·.isJoin)

/-- The stages above `id`, nearest first. -/
def ancestors (d : Definition) (id : String) : List String :=
  StageGraph.reach d.parents d.ids (d.parents id)

/-- The stages below `id`, nearest first. -/
def descendants (d : Definition) (id : String) : List String :=
  StageGraph.reach d.children d.ids (d.children id)

/-- The roots and everything below them, in the order of declaration. -/
def reachable (d : Definition) : List String :=
  let found := d.rootIds.flatMap fun root => root :: d.descendants root
  d.ids.filter (found.contains ·)

/-- The stage whose artifact completes `id`. -/
def completionTarget? (d : Definition) (id : String) : Option String :=
  (d.stage? id).bind (·.completionTarget?)

end Definition
end StageLineage
