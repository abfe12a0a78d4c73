import StageLineage.Cli.Program

/-! The program over the files of the machine. -/

namespace StageLineage

/-- The cause of a failed file operation. -/
def IoError.ofSystem : IO.Error → IoError
  | .noFileOrDirectory _ _ _ => .notFound
  | .alreadyExists _ _ _ => .alreadyExists
  | .inappropriateType _ code _ => if code = 21 || code = -21 then .isADirectory else .notADirectory
  | .invalidArgument _ code _ => if code = 36 || code = -36 then .invalidFilename else .invalidInput
  | .permissionDenied _ _ _ => .other "Permission denied (os error 13)"
  | e => .other (toString e)

def performed {α : Type} (action : IO α) : BaseIO (Except IoError α) :=
  return (← action.toBaseIO).mapError IoError.ofSystem

def hasKind (kind : IO.FS.FileType) (p : Path) : BaseIO Bool := do
  match ← (IO.FS.DirEntry.mk p.text "").root.metadata.toBaseIO with
  | .ok found => return !p.isEmpty && found.type == kind
  | .error _ => return false

instance : FileSystem BaseIO where
  isFile := hasKind .file
  isDirectory := hasKind .dir
  readFile p := performed (IO.FS.readBinFile p.text)
  writeFile p bytes := performed (IO.FS.writeBinFile p.text bytes)
  createDirectory p := performed (IO.FS.createDir p.text)
  listDirectory p := performed do
    return (← (IO.FS.DirEntry.mk p.text "").root.readDir).toList.map (·.fileName)

end StageLineage

def main (words : List String) : IO UInt32 := do
  let exit ← (StageLineage.Cli.runProgram .plain words : BaseIO StageLineage.Cli.Exit)
  IO.print exit.output
  IO.eprint exit.errorOutput
  return exit.code
