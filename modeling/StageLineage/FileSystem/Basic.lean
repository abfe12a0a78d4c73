import StageLineage.Path

/-! What the program asks of a file system. The operations name the cause of a failure; everything
    else is built from them and runs over any monad that provides them. -/

namespace StageLineage

inductive IoError where
  | notFound
  | isADirectory
  | notADirectory
  | alreadyExists
  /-- The bytes of a text file are not UTF-8. -/
  | invalidData
  /-- A name or a path is too long. -/
  | invalidFilename
  /-- A path holds a NUL. -/
  | invalidInput
  /-- Any other cause, with what the system says about it. -/
  | other (text : String)
  deriving DecidableEq

def IoError.message : IoError → String
  | notFound => "No such file or directory (os error 2)"
  | isADirectory => "Is a directory (os error 21)"
  | notADirectory => "Not a directory (os error 20)"
  | alreadyExists => "File exists (os error 17)"
  | invalidData => "stream did not contain valid UTF-8"
  | invalidFilename => "File name too long (os error 36)"
  | invalidInput => "file name contained an unexpected NUL byte"
  | other text => text

/-- The words for causes that lie outside the program: a text that does not follow its format, and a
    failure of the file system. -/
structure Wording where
  malformed : String
  io : IoError → String

/-- The words of the command line. -/
def Wording.plain : Wording := ⟨"malformed text", IoError.message⟩

class FileSystem (m : Type → Type) where
  isFile : Path → m Bool
  isDirectory : Path → m Bool
  readFile : Path → m (Except IoError ByteArray)
  /-- Writes a file anew, replacing what it held. -/
  writeFile : Path → ByteArray → m (Except IoError Unit)
  /-- Creates one directory below an existing one. -/
  createDirectory : Path → m (Except IoError Unit)
  /-- The names in a directory, in any order. -/
  listDirectory : Path → m (Except IoError (List String))

namespace FileSystem
variable {m : Type → Type} [Monad m] [FileSystem m]

def readText (p : Path) : m (Except IoError String) := do
  match ← readFile p with
  | .error e => return .error e
  | .ok bytes =>
    match String.fromUTF8? bytes with
    | some text => return .ok text
    | none => return .error .invalidData

/-- Creates `p` below its parents, which are given innermost first; those that are missing are created
    before it. -/
def createBelow (p : Path) : List Path → m (Except IoError Unit)
  | [] => createDirectory p
  | parent :: outer => do
    if p.isEmpty then return .ok ()
    match ← createDirectory p with
    | .ok _ => return .ok ()
    | .error .notFound =>
      match ← createBelow parent outer with
      | .error e => return .error e
      | .ok _ =>
        match ← createDirectory p with
        | .ok _ => return .ok ()
        | .error e => return if ← isDirectory p then .ok () else .error e
    | .error e => return if ← isDirectory p then .ok () else .error e

/-- Creates a directory and whatever is missing above it; an existing one is left alone. -/
def createDirectories (p : Path) : m (Except IoError Unit) :=
  if p.isEmpty then return .ok () else createBelow p p.parents

end FileSystem
end StageLineage
