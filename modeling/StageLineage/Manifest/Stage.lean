import StageLineage.Json.Value

/-! The parts of a manifest: its header and its stages. Absent optional parts are already replaced by
    their defaults, except where a later question tells absence and presence apart. -/

namespace StageLineage

/-- What a manifest says about itself. -/
structure Header where
  name : String
  persona : String
  description : String
  category : Option String
  version : String
  locked : Bool
  authors : List String

def Header.defaultVersion : String := "1.0.0"

/-- Which artifact completes a stage. -/
inductive CompletionRule where
  /-- The artifact of the stage itself. -/
  | ownArtifact
  /-- None: the stage is an action of the operator. -/
  | never
  /-- The artifact of another stage. -/
  | artifactOf (stage : String)
  deriving DecidableEq

/-- The stage whose artifact completes the stage `own`. -/
def CompletionRule.target? (own : String) : CompletionRule → Option String
  | ownArtifact => some own
  | never => none
  | artifactOf stage => some stage

/-- What an operator is told before skipping an optional stage. -/
structure SkipWarning where
  text : String
  reason : Option String
  maxWarnings : Option Nat

structure Stage where
  id : String
  /-- The name that is shown. -/
  name : String
  phase : Option String
  /-- The declared parents; only a stage that declares none at all is a root. -/
  previous : Option (List String)
  /-- Whether the stages below may run without this one. -/
  optional : Bool
  produces : List String
  parameters : Json
  instruction : String
  commands : List String
  handler : Option String
  skipWarning : Option SkipWarning
  narrative : Option String
  blueprint : List Json
  completesWith : CompletionRule

namespace Stage

/-- The declared parents in the order of the declaration. -/
def parents (s : Stage) : List String := s.previous.getD []

/-- The members of a list, each at its first place. -/
def distinct : List String → List String
  | [] => []
  | x :: rest => x :: (distinct rest).filter (· != x)

def distinctParents (s : Stage) : List String := distinct s.parents

/-- Whether a stage declares no parents at all. -/
def isRoot (s : Stage) : Bool := s.previous.isNone

/-- Whether a stage declares two or more parents. -/
def isJoin (s : Stage) : Bool := 1 < s.parents.length

/-- The stage whose artifact completes this one. -/
def completionTarget? (s : Stage) : Option String := s.completesWith.target? s.id

end Stage
end StageLineage
