import StageLineage.Path

/-! What the program can be asked to do: the commands with their arguments, the options that every
    command takes, and the ways in which a line of arguments fails to ask for anything. -/

namespace StageLineage.Cli

/-! ### Arguments -/

/-- The arguments by which a command is told what to do. -/
inductive Argument where
  | config
  | sessionsRoot
  | manifestsDir
  | logFormat
  | manifest
  | persona
  | session
  | stage
  | content
  | contentFile
  | json
  | skip
  deriving DecidableEq

namespace Argument

/-- The name of an argument, which follows `--` if it is an option. -/
def name : Argument → String
  | config => "config"
  | sessionsRoot => "sessions-root"
  | manifestsDir => "manifests-dir"
  | logFormat => "log-format"
  | manifest => "manifest"
  | persona => "persona"
  | session => "session"
  | stage => "stage"
  | content => "content"
  | contentFile => "content-file"
  | json => "json"
  | skip => "skip"

/-- The options that every command takes. -/
def shared : List Argument := [config, sessionsRoot, manifestsDir, logFormat]

/-- Whether an argument is a switch, which takes no value. -/
def isSwitch (a : Argument) : Bool := a = json

def isRepeatable (a : Argument) : Bool := a = skip

/-- Whether a text is a value for an argument: paths are not empty, and there are two log formats. -/
def accepts : Argument → String → Bool
  | config, value | sessionsRoot, value | manifestsDir, value | manifest, value | contentFile, value => !value.isEmpty
  | logFormat, value => value == "text" || value == "json"
  | _, _ => true

end Argument

inductive CommandName where
  | validate
  | paths
  | materialize
  | status
  | scenario
  deriving DecidableEq

namespace CommandName

def text : CommandName → String
  | validate => "validate"
  | paths => "paths"
  | materialize => "materialize"
  | status => "status"
  | scenario => "scenario"

def all : List CommandName := [validate, paths, materialize, status, scenario]

def ofText? (name : String) : Option CommandName := all.find? (·.text == name)

def options : CommandName → List Argument
  | validate | paths => []
  | materialize => [.persona, .session, .stage, .content, .contentFile]
  | status => [.persona, .session, .json]
  | scenario => [.session, .skip]

def takesManifest : CommandName → Bool
  | validate | paths | scenario => true
  | materialize | status => false

end CommandName

/-! ### Commands -/

inductive LogFormat where
  | text
  | json
  deriving DecidableEq

def LogFormat.name : LogFormat → String
  | text => "text"
  | json => "json"

structure SharedOptions where
  config : Option Path
  sessionsRoot : Option Path
  manifestsDir : Option Path
  logFormat : LogFormat

inductive ContentSource where
  | inline (text : String)
  | file (path : Path)

inductive Command where
  | validate (manifest : Path)
  | paths (manifest : Path)
  | materialize (persona session stage : String) (content : ContentSource)
  | status (persona session : String) (json : Bool)
  | scenario (manifest : Path) (session : String) (skips : List String)

/-- All that a line of arguments asks for. -/
structure Invocation where
  shared : SharedOptions
  command : Command

/-! ### Failures -/

/-- Why a line of arguments asks for no command. -/
inductive UsageError where
  | helpRequested
  | versionRequested
  /-- Nothing at all is given. -/
  | nothingGiven
  | missingCommand
  | unknownCommand
  | unknownArgument
  /-- An argument is given twice, or together with one that excludes it. -/
  | conflict
  | missingArgument
  | invalidValue
  /-- A switch is given a value. -/
  | unwantedValue
  deriving DecidableEq

namespace UsageError

/-- The exit code of the program; being asked for help or for the version is no failure. -/
def exitCode : UsageError → UInt32
  | helpRequested | versionRequested => 0
  | _ => 2

def message : UsageError → String
  | helpRequested | nothingGiven => "stagetree [OPTIONS] <COMMAND>"
  | versionRequested => "stagetree 0.1.0"
  | missingCommand => "error: a command is required"
  | unknownCommand => "error: unrecognized command"
  | unknownArgument => "error: unexpected argument"
  | conflict => "error: an argument cannot be used here again"
  | missingArgument => "error: a required argument is missing"
  | invalidValue => "error: a value is missing or not allowed"
  | unwantedValue => "error: an argument takes no value"

end UsageError
end StageLineage.Cli
