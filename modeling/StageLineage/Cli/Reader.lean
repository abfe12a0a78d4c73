import StageLineage.Cli.Arguments

/-! Reading a line of arguments. The shared options may stand before the name of the command and behind
    it, where the later place counts. An argument is pending from the place where it begins until the
    next one begins or the line ends; only then is it checked and settled. -/

namespace StageLineage.Cli

/-! ### Words -/

/-- The shape of a word on the line. -/
inductive Word where
  /-- The word `--`, behind which no word is an option. -/
  | separator
  | long (name : String) (value : Option String)
  | short (letter : Char)
  | plain
  deriving DecidableEq

/-- The shape of a word; a single `-` is plain. -/
def Word.of (text : String) : Word :=
  match text.toList with
  | ['-', '-'] => .separator
  | '-' :: '-' :: rest =>
    match rest.span (· != '=') with
    | (name, []) => .long (String.ofList name) none
    | (name, _ :: value) => .long (String.ofList name) (some (String.ofList value))
  | '-' :: letter :: _ => .short letter
  | _ => .plain

def isCommandWord (text : String) : Bool := text == "help" || (CommandName.ofText? text).isSome

/-! ### Levels -/

/-- Where a word stands: before the name of the command, or behind it. -/
inductive Level where
  | program
  | command (name : CommandName)

namespace Level

def option? (l : Level) (name : String) : Option Argument :=
  let options := match l with
    | program => Argument.shared
    | command c => c.options ++ Argument.shared
  options.find? (·.name == name)

def positional? : Level → Option Argument
  | program => none
  | command c => if c.takesManifest then some .manifest else none

/-- What an option asks for in place of a command. -/
def request? (l : Level) (name : String) : Option UsageError :=
  match l, name with
  | _, "help" => some .helpRequested
  | program, "version" => some .versionRequested
  | _, _ => none

/-- The long name that a letter stands for. -/
def longName (letter : Char) : String :=
  if letter = 'h' then "help" else if letter = 'V' then "version" else ""

/-- Why a word that is no option has no place. -/
def stray (l : Level) (trailing : Bool) (text : String) : UsageError :=
  match l with
  | program => if trailing && isCommandWord text then .unknownArgument else .unknownCommand
  | command _ => .unknownArgument

end Level

/-! ### Reading one level -/

structure Scan where
  /-- The arguments that are settled, in order. -/
  settled : List (Argument × String)
  /-- The argument that is pending, with its value if that was read. -/
  pending : Option (Argument × Option String)
  /-- Whether the separator was read. -/
  trailing : Bool

namespace Scan

def empty : Scan := ⟨[], none, false⟩

def has (s : Scan) (a : Argument) : Bool := s.settled.any (·.1 = a)

def settle (s : Scan) (a : Argument) (value : String) : Except UsageError Scan :=
  if s.has a && !a.isRepeatable then .error .conflict
  else if a.accepts value then .ok { s with settled := s.settled ++ [(a, value)] }
  else .error .invalidValue

def resolve (s : Scan) : Except UsageError Scan :=
  match s.pending with
  | none => .ok s
  | some (_, none) => .error .invalidValue
  | some (a, some value) => { s with pending := none }.settle a value

def awaiting? (s : Scan) : Option Argument :=
  match s.pending with
  | some (a, none) => if s.trailing then none else some a
  | _ => none

def addPositional (l : Level) (s : Scan) (text : String) : Except UsageError Scan :=
  match l.positional? with
  | none => .error (l.stray s.trailing text)
  | some a =>
    if s.has a || s.pending.any (·.1 = a) then .error (l.stray s.trailing text)
    else do return { ← s.resolve with pending := some (a, some text) }

def answer (s : Scan) (request : UsageError) : Except UsageError Scan := do
  let _ ← s.resolve
  throw request

def addLong (l : Level) (s : Scan) (name : String) (value : Option String) : Except UsageError Scan :=
  match l.request? name, l.option? name, value with
  | some _, _, some _ => .error .unwantedValue
  | some request, _, none => s.answer request
  | none, none, _ => .error .unknownArgument
  | none, some a, some text =>
    if a.isSwitch then .error .unwantedValue else do (← s.resolve).settle a text
  | none, some a, none =>
    if a.isSwitch then do (← s.resolve).settle a "true"
    else do return { ← s.resolve with pending := some (a, none) }

def addShort (l : Level) (s : Scan) (letter : Char) : Except UsageError Scan :=
  match l.request? (Level.longName letter) with
  | some request => s.answer request
  | none => .error .unknownArgument

def add (l : Level) (s : Scan) (text : String) : Except UsageError Scan :=
  if s.trailing then s.addPositional l text
  else
    match Word.of text with
    | .separator => .ok { s with trailing := true }
    | .long name value => s.addLong l name value
    | .short letter => s.addShort l letter
    | .plain =>
      match s.awaiting? with
      | some a => .ok { s with pending := some (a, some text) }
      | none => s.addPositional l text

def addAll (l : Level) (s : Scan) : List String → Except UsageError Scan
  | [] => s.resolve
  | text :: rest => do (← s.add l text).addAll l rest

end Scan

/-! ### Commands -/

def value? (values : List (Argument × String)) (a : Argument) : Option String :=
  (values.find? (·.1 = a)).map (·.2)

def need (values : List (Argument × String)) (a : Argument) : Except UsageError String :=
  match value? values a with
  | some text => .ok text
  | none => .error .missingArgument

def CommandName.command (c : CommandName) (values : List (Argument × String)) : Except UsageError Command := do
  match c with
  | validate => return .validate ⟨← need values .manifest⟩
  | paths => return .paths ⟨← need values .manifest⟩
  | status =>
    return .status (← need values .persona) (← need values .session) (value? values .json).isSome
  | scenario =>
    let skips := (values.filter (·.1 = .skip)).map (·.2)
    return .scenario ⟨← need values .manifest⟩ (← need values .session) skips
  | materialize =>
    let content ← match value? values .content, value? values .contentFile with
      | some _, some _ => throw .conflict
      | some text, none => pure (ContentSource.inline text)
      | none, some path => pure (ContentSource.file ⟨path⟩)
      | none, none => throw .missingArgument
    return .materialize (← need values .persona) (← need values .session) (← need values .stage) content

def SharedOptions.of (values : List (Argument × String)) : SharedOptions where
  config := (value? values .config).map Path.mk
  sessionsRoot := (value? values .sessionsRoot).map Path.mk
  manifestsDir := (value? values .manifestsDir).map Path.mk
  logFormat := if value? values .logFormat = some "json" then .json else .text

/-- What the words behind `help` ask for: at most one, which has to name a command. -/
def helpRequest : List String → UsageError
  | [] => .helpRequested
  | [text] => if isCommandWord text then .helpRequested else .unknownCommand
  | _ => .unknownCommand

/-- What is wrong with a line that names no command. -/
def withoutCommand (s : Scan) : UsageError :=
  match s.resolve with
  | .error e => e
  | .ok s => if s.settled.isEmpty then .nothingGiven else .missingCommand

def readCommand (s : Scan) (c : CommandName) (words : List String) : Except UsageError Invocation := do
  let inner ← Scan.empty.addAll (.command c) words
  let command ← c.command inner.settled
  let outer ← s.resolve
  return ⟨.of (inner.settled ++ outer.settled), command⟩

def readFrom (s : Scan) : List String → Except UsageError Invocation
  | [] => .error (withoutCommand s)
  | text :: rest =>
    let named := if s.trailing || s.awaiting?.isSome then none else CommandName.ofText? text
    match named with
    | some c => readCommand s c rest
    | none =>
      if text == "help" && !s.trailing && s.awaiting?.isNone then .error (helpRequest rest)
      else do readFrom (← s.add .program text) rest

def Invocation.read (words : List String) : Except UsageError Invocation := readFrom .empty words

end StageLineage.Cli
