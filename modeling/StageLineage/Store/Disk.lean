import StageLineage.Store.Basic

/-! The store that keeps sessions in a file system. -/

namespace StageLineage

namespace SessionStore
variable {m : Type → Type} [Monad m] [FileSystem m]

/-- The bytes of a file; only its absence is no failure. -/
def readFrom (p : Path) : m (Except StoreError (Option ByteArray)) := do
  match ← FileSystem.readFile p with
  | .ok bytes => return .ok (some bytes)
  | .error .notFound => return .ok none
  | .error cause => return .error (.io p cause)

/-- The directory that a path is written into, if it is missing. -/
def missingDirectory? (p : Path) : m (Option Path) := do
  match p.directory? with
  | none => return none
  | some dir => return if ← FileSystem.isDirectory dir then none else some dir

def writeTo (p : Path) (bytes : ByteArray) : m (Except StoreError Unit) := do
  match ← missingDirectory? p with
  | some dir => return .error (.missingDirectory dir)
  | none => return (← FileSystem.writeFile p bytes).mapError (.io p)

def makeDirectories (p : Path) : m (Except StoreError Unit) :=
  return (← FileSystem.createDirectories p).mapError (.io p)

instance : SessionStore m where
  fileExists := FileSystem.isFile
  read := readFrom
  write := writeTo
  ensureDirectory := makeDirectories

end SessionStore
end StageLineage
