import StageLineage.Json.Printer
import StageLineage.Session.Materialize
import StageLineage.Session.Stale
import StageLineage.Text.Quoted

/-! What the commands write, line by line. -/

namespace StageLineage.Cli.Report

/-! ### Columns -/

def padRight (width : Nat) (text : String) : String := text.pushn ' ' (width - text.length)

def padLeft (width : Nat) (text : String) : String := "".pushn ' ' (width - text.length) ++ text

def listed (items : List String) : String := ", ".intercalate items

/-- Lines as a text in which each of them is ended. -/
def text (lines : List String) : String := lines.foldl (fun shown line => shown ++ line ++ "\n") ""

/-! ### Manifests -/

def manifest (d : Definition) : List String :=
  [s!"{d.header.name} ({d.header.persona}) v{d.header.version}",
    s!"stages:     {d.stages.length}",
    s!"edges:      {d.edges.length}",
    s!"roots:      {listed d.rootIds}",
    s!"terminals:  {listed d.terminalIds}",
    "order:      " ++ " -> ".intercalate d.order]

/-- The column of stage ids: as wide as the longest takes bytes. -/
def idWidth (t : Topology) : Nat := t.paths.foldl (fun width p => max width p.stage.utf8ByteSize) 0

def paths (t : Topology) : List String :=
  t.paths.map fun p => s!"{padRight (idWidth t) p.stage}  {p.display}"

/-! ### Stages -/

def materialization (x : Materialization) : List String :=
  let done := if x.replaced then "replaced" else "created"
  s!"{done} {x.path.stage} -> {x.artifactPath.text}" :: s!"fingerprint {x.envelope.fingerprint.toHex}" ::
    x.skippedParents.map fun parent => s!"skipped optional parent {parent}"

def step (number : Nat) (p : StagePath) : String :=
  s!"{padLeft 3 (toString number)}. {padRight 16 p.stage} {p.display}"

/-- The stages at the steps of a scenario, of which the first has the given number. -/
def steps (number : Nat) : List StagePath → List String
  | [] => []
  | p :: rest => step number p :: steps (number + 1) rest

/-! ### Sessions -/

def indent : String := "            "

def current : Option Stage → List String
  | none => ["current:    (none)"]
  | some s =>
    s!"current:    {s.id} ({s.name})" :: ((if s.instruction.isEmpty then [] else [indent ++ s.instruction]) ++
      (s.skipWarning.map fun warning => indent ++ "skip warning: " ++ warning.text).toList)

def position (p : Position) : List String :=
  s!"completed:  {listed p.completed}" :: (current p.current? ++
    s!"available:  {listed p.availableIds}" :: p.commands.map fun command => s!"  $ {command}")

def reason : StaleReason → String
  | .tampered => "Tampered"
  | .parentChanged parent => s!"ParentChanged \x7b parent: {Text.quoted parent} \x7d"
  | .parentStale parent => s!"ParentStale \x7b parent: {Text.quoted parent} \x7d"

def stale (s : StaleStage) : String := s!"stale:      {s.stage} ({reason s.reason})"

def status (p : Position) (found : List StaleStage) : List String := position p ++ found.map stale

/-! ### Sessions in JSON -/

def ruleJson : CompletionRule → Json
  | .ownArtifact => .object [("rule", .string "own_artifact")]
  | .never => .object [("rule", .string "never")]
  | .artifactOf stage => .object [("rule", .string "alias"), ("target", .string stage)]

def warningJson (warning : SkipWarning) : Json :=
  .object [("text", .string warning.text), ("reason", .ofString? warning.reason),
    ("max_warnings", (warning.maxWarnings.map Json.ofNat).getD .null)]

def currentJson (s : Stage) : Json :=
  .object [("id", .string s.id), ("name", .string s.name), ("instruction", .string s.instruction),
    ("handler", .ofString? s.handler), ("optional", .bool s.optional), ("completes_with", ruleJson s.completesWith),
    ("skip_warning", (s.skipWarning.map warningJson).getD .null)]

def positionJson (p : Position) : Json :=
  .object [("completed_stages", .ofStrings p.completed), ("current_stage", (p.current?.map currentJson).getD .null),
    ("available_stages", .ofStrings p.availableIds), ("available_commands", .ofStrings p.commands)]

def reasonJson : StaleReason → Json
  | .tampered => .object [("kind", .string "tampered")]
  | .parentChanged parent => .object [("kind", .string "parent_changed"), ("parent", .string parent)]
  | .parentStale parent => .object [("kind", .string "parent_stale"), ("parent", .string parent)]

def staleJson (s : StaleStage) : Json := .object [("stage_id", .string s.stage), ("reason", reasonJson s.reason)]

def statusJson (persona session : String) (p : Position) (found : List StaleStage) : Json :=
  .object [("persona", .string persona), ("session", .string session), ("position", positionJson p),
    ("stale", .array (found.map staleJson))]

end StageLineage.Cli.Report
