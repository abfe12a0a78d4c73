import StageLineage.Cli.Command

/-! Scenarios: a session is driven from its position to the end. At each step the first stage that can
    run, is not left out and was not run before is materialized with a content made up from the names of
    what it produces. A stage is run at most once, so a scenario ends. -/

namespace StageLineage.Cli

inductive ScenarioEnd where
  /-- The next stage can only be finished by the operator. -/
  | atAction (stage : String)
  | exhausted
  deriving DecidableEq

structure ScenarioRun where
  root : Path
  /-- The stages that were materialized, in order. -/
  materialized : List StagePath
  ending : Except Failure ScenarioEnd

namespace ScenarioRun

def lastLine : ScenarioEnd → String
  | .atAction stage => s!"stopped at action stage '{stage}'"
  | .exhausted => "no stages left"

def lines (run : ScenarioRun) : List String :=
  Report.steps 1 run.materialized ++ (run.ending.toOption.map lastLine).toList

end ScenarioRun

/-- A content for a stage: what it produces, each with the stage and the number of the step. -/
def syntheticContent (s : Stage) (step : Nat) : Json :=
  .object (s.produces.map fun key => (key, .object [("stage", .string s.id), ("step", .ofNat step)]))

/-- Checks that the stages to be left out can be left out. -/
def checkSkips (d : Definition) : List String → Except Failure Unit
  | [] => .ok ()
  | id :: rest =>
    match d.stage? id with
    | none => .error (.skipUnknown id)
    | some s => if s.optional then checkSkips d rest else .error (.skipNotOptional id)

section
variable {m : Type → Type} [Monad m]

/-- Runs the stages in `todo` that come up, after those in `done`. -/
def drive [SessionStore m] (s : Session) (todo : List String) (done : List StagePath) :
    m (List StagePath × Except Failure ScenarioEnd) := do
  match ← s.position.run with
  | .error cause => return (done, .error (.session cause))
  | .ok position =>
    match _found : position.available.find? (todo.contains ·.id) with
    | none => return (done, .ok .exhausted)
    | some stage =>
      if stage.completesWith = .never then return (done, .ok (.atAction stage.id))
      else
        match ← (s.materialize stage.id (syntheticContent stage (done.length + 1))).run with
        | .error cause => return (done, .error (.step stage.id cause))
        | .ok x => drive s (todo.erase stage.id) (done ++ [x.path])
termination_by todo.length
decreasing_by
  have member : stage.id ∈ todo := by simpa using List.find?_some _found
  have := List.length_erase_of_mem member
  have := List.length_pos_of_mem member
  omega

def scenario [FileSystem m] (s : Settings) (manifest : Path) (session : String) (skips : List String) :
    ExceptT Failure m ScenarioRun := do
  let d ← readManifest .loading manifest
  attempt id (pure (checkSkips d skips))
  let p ← layOut d
  let opened ← openSession s p p.id session
  let (materialized, ending) ← (drive opened (d.ids.filter (!skips.contains ·)) [] : m _)
  return ⟨opened.root, materialized, ending⟩

end
end StageLineage.Cli
