import StageLineage.Json.Printer
import StageLineage.Manifest.Definition
import StageLineage.Manifest.Error

/-! Reading a manifest from a document. The header is checked first, then the stages one by one, then
    what they say about each other, and last that their graph has no cycle. The first fault in this
    order is the answer. An explicit null counts as an absent field, except in `completes_with`. -/

namespace StageLineage
namespace Manifest

abbrev Fields := List (String × Json)

/-! ### Fields -/

/-- The value of a field, if it is present and not null. -/
def present? (fields : Fields) (field : String) : Option Json :=
  match Json.field? fields field with
  | some .null => none
  | value => value

def text? (stage : Option String) (fields : Fields) (field : String) : Except ManifestError (Option String) :=
  match present? fields field with
  | none => .ok none
  | some (.string text) => .ok (some text)
  | some _ => .error (.invalidField stage field .text)

def boolean? (stage : Option String) (fields : Fields) (field : String) : Except ManifestError (Option Bool) :=
  match present? fields field with
  | none => .ok none
  | some (.bool value) => .ok (some value)
  | some _ => .error (.invalidField stage field .boolean)

/-- The texts of a list that holds nothing else. -/
def texts (stage : Option String) (field : String) : List Json → Except ManifestError (List String)
  | [] => .ok []
  | .string text :: items => (texts stage field items).map (text :: ·)
  | _ :: _ => .error (.invalidField stage field .texts)

/-- An optional list of texts; an empty list is not an absent one. -/
def texts? (stage : Option String) (fields : Fields) (field : String) : Except ManifestError (Option (List String)) :=
  match present? fields field with
  | none => .ok none
  | some (.array items) => (texts stage field items).map some
  | some _ => .error (.invalidField stage field .texts)

/-! ### Header -/

/-- A text that the header must have. -/
def headerText (root : Fields) (field : String) : Except ManifestError String :=
  match present? root field with
  | none => .error (.missingField field)
  | some (.string text) => .ok text
  | some _ => .error (.invalidField none field .text)

/-- The version. A number with a point is refused, since it does not keep its digits. -/
def version (root : Fields) : Except ManifestError String :=
  match present? root "version" with
  | none => .ok Header.defaultVersion
  | some (.string text) => .ok text
  | some (.number (.integer n)) => .ok (String.ofList (Json.integerChars n))
  | some (.number (.float _)) => .error (.invalidField none "version" .version)
  | some _ => .error (.invalidField none "version" .text)

def header (root : Fields) : Except ManifestError Header := do
  let name ← headerText root "name"
  let persona ← headerText root "persona"
  let description ← text? none root "description"
  let category ← text? none root "category"
  let version ← version root
  let locked ← boolean? none root "locked"
  let authors ← texts? none root "authors"
  return { name, persona, description := description.getD "", category, version, locked := locked.getD false,
           authors := authors.getD [] }

/-! ### Stages -/

/-- Whether a text names a handler: a small letter, then small letters, digits, `_` and `-`. -/
def isHandler (handler : String) : Bool :=
  match handler.toList with
  | [] => false
  | first :: rest => first.isLower && rest.all fun c => c.isLower || c.isDigit || c == '_' || c == '-'

def stageId (index : Nat) (fields : Fields) : Except ManifestError String :=
  match present? fields "id" with
  | none => .error (.missingStageId index)
  | some (.string id) =>
    match Segment.validate id with
    | .ok _ => .ok id
    | .error cause => .error (.invalidStageId id cause)
  | some _ => .error (.invalidField none "id" .text)

def produces (id : String) (fields : Fields) : Except ManifestError (List String) :=
  match present? fields "produces" with
  | none => .error (.missingProduces id)
  | some (.array items) =>
    match texts (some id) "produces" items with
    | .ok [] => .error (.emptyProduces id)
    | result => result
  | some _ => .error (.producesNotList id)

def handler? (id : String) (fields : Fields) : Except ManifestError (Option String) :=
  match text? (some id) fields "handler" with
  | .ok (some handler) => if isHandler handler then .ok (some handler) else .error (.invalidHandler id handler)
  | result => result

/-- The completion rule, where null differs from an absent field. -/
def completesWith (id : String) (fields : Fields) : Except ManifestError CompletionRule :=
  match Json.field? fields "completes_with" with
  | none => .ok .ownArtifact
  | some .null => .ok .never
  | some (.string target) => .ok (.artifactOf target)
  | some _ => .error (.invalidField (some id) "completes_with" .stageOrNull)

/-- The text of a skip warning; an absent `text` may be given as `message`. -/
def skipText? (fields : Fields) : Option String :=
  match (Json.field? fields "text").or (Json.field? fields "message") with
  | some (.string text) => some text
  | _ => none

/-- The greatest number of warnings that can be asked for. -/
def maxWarningsLimit : Int := 4294967295

/-- How often a skip warning is shown. -/
def maxWarnings? (fields : Fields) : Except FieldShape (Option Nat) :=
  match present? fields "max_warnings" with
  | none => .ok none
  | some (.number (.integer n)) => if 0 ≤ n && n ≤ maxWarningsLimit then .ok (some n.toNat) else .error .skipMaximum
  | some _ => .error .skipMaximum

/-- A skip warning given as an object. -/
def skipWarningOf (fields : Fields) : Except FieldShape SkipWarning :=
  match skipText? fields, present? fields "reason" with
  | none, _ => .error .skipText
  | some text, none => (maxWarnings? fields).map fun max => ⟨text, none, max⟩
  | some text, some (.string reason) => (maxWarnings? fields).map fun max => ⟨text, some reason, max⟩
  | some _, some _ => .error .skipReason

def skipWarning? (id : String) (fields : Fields) : Except ManifestError (Option SkipWarning) :=
  match present? fields "skip_warning" with
  | none => .ok none
  | some (.string text) => .ok (some ⟨text, none, none⟩)
  | some (.object warning) =>
    match skipWarningOf warning with
    | .ok warning => .ok (some warning)
    | .error shape => .error (.invalidField (some id) "skip_warning" shape)
  | some _ => .error (.invalidField (some id) "skip_warning" .skipWarning)

def blueprint (id : String) (fields : Fields) : Except ManifestError (List Json) :=
  match present? fields "blueprint" with
  | none => .ok []
  | some (.array items) => .ok items
  | some _ => .error (.invalidField (some id) "blueprint" .list)

def stageFields (index : Nat) : Json → Except ManifestError Fields
  | .object fields => .ok fields
  | _ => .error (.stageNotAnObject index)

/-- The stage at `index`, checked on its own. -/
def stage (index : Nat) (entry : Json) : Except ManifestError Stage := do
  let fields ← stageFields index entry
  let id ← stageId index fields
  let produces ← produces id fields
  let handler ← handler? id fields
  let previous ← texts? (some id) fields "previous"
  let completesWith ← completesWith id fields
  let name ← text? (some id) fields "name"
  let phase ← text? (some id) fields "phase"
  let optional ← boolean? (some id) fields "optional"
  let instruction ← text? (some id) fields "instruction"
  let commands ← texts? (some id) fields "commands"
  let skipWarning ← skipWarning? id fields
  let narrative ← text? (some id) fields "narrative"
  let blueprint ← blueprint id fields
  return { id, name := name.getD id, phase, previous, optional := optional.getD false, produces,
           parameters := (present? fields "parameters").getD (.object []), instruction := instruction.getD "",
           commands := commands.getD [], handler, skipWarning, narrative, blueprint, completesWith }

/-- The stages of some entries, after the stages that were read before them. -/
def stagesAfter (before : List Stage) : List Json → Except ManifestError (List Stage)
  | [] => .ok before
  | entry :: entries =>
    match stage before.length entry with
    | .error e => .error e
    | .ok s =>
      match before.findIdx? (·.id == s.id) with
      | some first => .error (.duplicateStageId s.id first before.length)
      | none => stagesAfter (before ++ [s]) entries

def entries (root : Fields) : Except ManifestError (List Json) :=
  match present? root "stages" with
  | none => .error .missingStages
  | some (.array []) => .error .emptyStages
  | some (.array items) => .ok items
  | some _ => .error .stagesNotList

/-! ### The whole manifest -/

/-- Checks that the stages named by a stage are among `ids`, its parents first. -/
def checkReferences (ids : List String) (s : Stage) : Except ManifestError Unit :=
  match s.parents.find? (· ∉ ids) with
  | some parent => .error (.unknownParent s.id parent)
  | none =>
    match s.completesWith with
    | .artifactOf target => if target ∈ ids then .ok () else .error (.unknownTarget s.id target)
    | _ => .ok ()

/-- Puts the stages into order, after checking what they say about each other. -/
def orderOf (stages : List Stage) : Except ManifestError (List String) := do
  stages.forM (checkReferences (stages.map (·.id)))
  match (StageGraph.ofStages stages).order with
  | .ok order => return order
  | .error stage => throw (.cycle stage)

def ofDocument : Json → Except ManifestError Definition
  | .object root => do
    let header ← header root
    let stages ← stagesAfter [] (← entries root)
    let order ← orderOf stages
    return ⟨header, stages, order⟩
  | _ => .error .notAnObject

end Manifest
end StageLineage
