import StageLineage.Cli.Reader
import StageLineage.Cli.Scenario

/-! The program: a line of arguments becomes a command, the command is run over a file system, and what
    comes of it is written to the standard streams. -/

namespace StageLineage.Cli

/-- The lines that a command wrote, and the failure in which it ended, if any. -/
structure Outcome where
  lines : List String
  failure : Option Failure

namespace Outcome

/-- The outcome of a command that writes its lines at the end. -/
def ofLines : Except Failure (List String) → Outcome
  | .ok lines => ⟨lines, none⟩
  | .error e => ⟨[], some e⟩

/-- The outcome of a scenario, which writes a line for each step. -/
def ofScenario : Except Failure ScenarioRun → Outcome
  | .ok run =>
    match run.ending with
    | .ok _ => ⟨run.lines, none⟩
    | .error e => ⟨run.lines, some e⟩
  | .error e => ⟨[], some e⟩

end Outcome

structure Exit where
  output : String
  errorOutput : String
  code : UInt32
  deriving DecidableEq

namespace Exit

def ofUsage (e : UsageError) : Exit :=
  if e.exitCode = 0 then ⟨e.message ++ "\n", "", 0⟩ else ⟨"", e.message ++ "\n", e.exitCode⟩

def ofOutcome (w : Wording) (o : Outcome) : Exit :=
  match o.failure with
  | none => ⟨Report.text o.lines, "", 0⟩
  | some e => ⟨Report.text o.lines, "error: " ++ ": ".intercalate (e.chain w) ++ "\n", 1⟩

end Exit

section
variable {m : Type → Type} [Monad m] [FileSystem m]

def Command.run (s : Settings) : Command → m Outcome
  | validate manifest => return .ofLines (← (Cli.validate manifest).run)
  | paths manifest => return .ofLines (← (showPaths manifest).run)
  | materialize persona session stage source =>
    return .ofLines (← (Cli.materialize s persona session stage source).run)
  | status persona session json => return .ofLines (← (Cli.status s persona session json).run)
  | scenario manifest session skips => return .ofScenario (← (Cli.scenario s manifest session skips).run)

def Invocation.run (i : Invocation) : m Outcome := do
  match ← i.shared.settings.run with
  | .ok s => i.command.run s
  | .error e => return ⟨[], some e⟩

def runProgram (w : Wording) (words : List String) : m Exit := do
  match Invocation.read words with
  | .error e => return .ofUsage e
  | .ok i => return .ofOutcome w (← i.run)

end
end StageLineage.Cli
