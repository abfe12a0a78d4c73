/-! The graph of a manifest's stages: its cycles and its order. A cycle is looked for in two passes, a
    depth-first search that lists the stages as it leaves them, and a walk back over that list. The
    order puts parents before children and otherwise follows the declaration. -/

namespace StageLineage

/-- An edge from a parent to a child. -/
structure Edge where
  parent : String
  child : String
  deriving DecidableEq

/-- Stage ids in the order of their declaration, and the edges between them. -/
structure StageGraph where
  ids : List String
  edges : List Edge

namespace StageGraph

/-- The children of a stage, one for each edge. -/
def children (g : StageGraph) (id : String) : List String :=
  (g.edges.filter (·.parent == id)).map (·.child)

/-- The parents of a stage, one for each edge. -/
def parents (g : StageGraph) (id : String) : List String :=
  (g.edges.filter (·.child == id)).map (·.parent)

/-! ### Cycles -/

/-- Depth-first search with a stack. A stage that is still unseen stays on the stack and its children
    go on top of it; a stage that was seen leaves the stack and is finished. The finished stages are
    listed with the last one first. A stage that is its own child ends the search. -/
def search (g : StageGraph) (unseen stack finished : List String) : Except String (List String) :=
  match stack with
  | [] => .ok finished
  | x :: rest =>
    if x ∈ unseen then
      if x ∈ g.children x then .error x
      else
        let unseen' := unseen.erase x
        search g unseen' ((g.children x).filter (· ∈ unseen') ++ x :: rest) finished
    else search g unseen rest (if x ∈ finished then finished else x :: finished)
termination_by (unseen.length, stack.length)
decreasing_by
  · apply Prod.Lex.left
    rw [List.length_erase_of_mem ‹_›]
    have := List.length_pos_of_mem ‹x ∈ unseen›
    omega
  · apply Prod.Lex.right
    simp

/-- The first parent, of the first stage in a list that has one, that does not come before it. -/
def parentBehind? (g : StageGraph) (passed : List String) : List String → Option String
  | [] => none
  | x :: rest =>
    match (g.parents x).find? (· ∉ x :: passed) with
    | some parent => some parent
    | none => parentBehind? g (x :: passed) rest

/-- A stage on a cycle, if there is one. -/
def cycle? (g : StageGraph) : Option String :=
  match g.search g.ids g.ids [] with
  | .error x => some x
  | .ok finished => g.parentBehind? [] finished

/-! ### Order -/

/-- Whether all parents of a stage stand in `placed`. -/
def isReady (g : StageGraph) (placed : List String) (id : String) : Bool :=
  (g.parents id).all (placed.contains ·)

/-- Places again and again the first pending stage that is ready. -/
def place (g : StageGraph) (pending placed : List String) : List String :=
  match _found : pending.find? (g.isReady placed) with
  | none => []
  | some x => x :: place g (pending.erase x) (x :: placed)
termination_by pending.length
decreasing_by
  have := List.mem_of_find?_eq_some _found
  rw [List.length_erase_of_mem this]
  have := List.length_pos_of_mem this
  omega

/-- Parents before children, else in the order of declaration; or a stage on a cycle. -/
def order (g : StageGraph) : Except String (List String) :=
  match g.cycle? with
  | some x => .error x
  | none => .ok (g.place g.ids [])

/-! ### Reachability -/

/-- The members of `unseen` that are reached from a queue over `next`, breadth first, each once. -/
def reach (next : String → List String) (unseen queue : List String) : List String :=
  match queue with
  | [] => []
  | x :: rest =>
    if x ∈ unseen then x :: reach next (unseen.erase x) (rest ++ next x)
    else reach next unseen rest
termination_by (unseen.length, queue.length)
decreasing_by
  · apply Prod.Lex.left
    rw [List.length_erase_of_mem ‹_›]
    have := List.length_pos_of_mem ‹x ∈ unseen›
    omega
  · apply Prod.Lex.right
    simp

end StageGraph
end StageLineage
