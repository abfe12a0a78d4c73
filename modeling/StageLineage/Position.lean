import StageLineage.Lineage

/-! The position of a session: which stages are complete, which can run, and which one is next. A stage
    can run if it is reachable from a root, is not complete, and each parent either has an envelope of
    its own or is optional. That another stage's envelope completes a parent is not enough. -/

namespace StageLineage

/-- Whether a stage is complete under its rule. -/
def Stage.isComplete (s : Stage) (l : Lineage) : Bool := s.completionTarget?.any l.isPresent

structure Position where
  /-- The complete stages in the order of declaration. -/
  completed : List String
  /-- The stages that can run, in the order of declaration. -/
  available : List Stage

namespace Position

/-- The complete stages of a session in the order of declaration. -/
def completedIds (d : Definition) (l : Lineage) : List String := (d.stages.filter (·.isComplete l)).map (·.id)

/-- Whether a parent does not keep its children from running. -/
def isSatisfied (d : Definition) (l : Lineage) (parent : String) : Bool :=
  l.isPresent parent || (d.stage? parent).any (·.optional)

def of (d : Definition) (l : Lineage) : Position :=
  let reachable := d.reachable
  let available := d.stages.filter fun s =>
    reachable.contains s.id && !s.isComplete l && s.parents.all (isSatisfied d l)
  ⟨completedIds d l, available⟩

def availableIds (p : Position) : List String := p.available.map (·.id)

def current? (p : Position) : Option Stage := p.available.head?

def commands (p : Position) : List String := (p.current?.map (·.commands)).getD []

def isFinished (p : Position) : Bool := p.available.isEmpty

/-- Whether a stage can only be finished by an action of the operator. -/
def isAction (s : Stage) : Bool := s.completesWith = .never

end Position
end StageLineage
