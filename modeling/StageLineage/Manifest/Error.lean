import StageLineage.FileSystem.Basic
import StageLineage.Segment

/-! Why a text is not a manifest. Each cause names the stage or the field that is at fault. -/

namespace StageLineage

/-- What a field has to hold. -/
inductive FieldShape where
  | text
  | boolean
  | texts
  | list
  | version
  | stageOrNull
  | skipWarning
  | skipText
  | skipReason
  | skipMaximum
  deriving DecidableEq

def FieldShape.description : FieldShape → String
  | text => "a string"
  | boolean => "a boolean"
  | texts => "a list of strings"
  | list => "a list"
  | version => "a string or an integer (quote dotted versions)"
  | stageOrNull => "a stage id or null"
  | skipWarning => "a string or an object"
  | skipText => "an object with a 'text' string"
  | skipReason => "an object whose 'reason' is a string"
  | skipMaximum => "an object whose 'max_warnings' is a non-negative integer"

/-- Why a text is not a manifest. -/
inductive ManifestError where
  | notAnObject
  | missingField (field : String)
  /-- A field of a stage, or of the header, has the wrong shape. -/
  | invalidField (stage : Option String) (field : String) (expected : FieldShape)
  | missingStages
  | stagesNotList
  | emptyStages
  | stageNotAnObject (index : Nat)
  | missingStageId (index : Nat)
  | invalidStageId (stage : String) (cause : SegmentError)
  | duplicateStageId (stage : String) (firstIndex index : Nat)
  | missingProduces (stage : String)
  | producesNotList (stage : String)
  | emptyProduces (stage : String)
  | invalidHandler (stage handler : String)
  | unknownParent (stage parent : String)
  | unknownTarget (stage target : String)
  | cycle (stage : String)
  /-- The text does not follow the format of that name. -/
  | malformed (format : String)
  /-- The text holds more than one document. -/
  | documentCount (format : String) (count : Nat)
  | unsupportedFormat (extension : String)
  | unreadable (path : Path) (cause : IoError)
  deriving DecidableEq

namespace ManifestError

def message (w : Wording) : ManifestError → String
  | notAnObject => "manifest root must be an object"
  | missingField field => s!"manifest is missing required field '{field}'"
  | invalidField (some stage) field expected => s!"stage '{stage}': field '{field}' must be {expected.description}"
  | invalidField none field expected => s!"field '{field}' must be {expected.description}"
  | missingStages => "manifest is missing required field 'stages'"
  | stagesNotList => "field 'stages' must be a list"
  | emptyStages => "field 'stages' must not be empty"
  | stageNotAnObject index => s!"stage #{index} must be an object"
  | missingStageId index => s!"stage #{index} is missing required field 'id'"
  | invalidStageId stage cause => s!"stage id {Text.quoted stage} is invalid: {cause.message}"
  | duplicateStageId stage firstIndex index =>
    s!"duplicate stage id '{stage}' (stage #{index}, first declared at #{firstIndex})"
  | missingProduces stage => s!"stage '{stage}' is missing required field 'produces'"
  | producesNotList stage => s!"stage '{stage}': field 'produces' must be a list"
  | emptyProduces stage => s!"stage '{stage}': field 'produces' must not be empty"
  | invalidHandler stage handler => s!"stage '{stage}': handler {Text.quoted handler} must match ^[a-z][a-z0-9_-]*$"
  | unknownParent stage parent => s!"stage '{stage}' declares unknown parent '{parent}'"
  | unknownTarget stage target => s!"stage '{stage}' completes with unknown stage '{target}'"
  | cycle stage => s!"stage graph contains a cycle through '{stage}'"
  | malformed format => s!"{format} syntax error: {w.malformed}"
  | documentCount format count => s!"{format} syntax error: expected a single document, found {count}"
  | unsupportedFormat extension => s!"no manifest format registered for extension: '{extension}'"
  | unreadable path cause => s!"io error reading {path.text}: {w.io cause}"

def stage? : ManifestError → Option String
  | invalidField stage _ _ => stage
  | invalidStageId stage _ | duplicateStageId stage _ _ | missingProduces stage | producesNotList stage
  | emptyProduces stage | invalidHandler stage _ | unknownParent stage _ | unknownTarget stage _ | cycle stage =>
    some stage
  | _ => none

def chain (w : Wording) (e : ManifestError) : List String :=
  match e with
  | invalidStageId _ cause => [e.message w, cause.message]
  | unreadable _ cause => [e.message w, w.io cause]
  | _ => [e.message w]

end ManifestError
end StageLineage
