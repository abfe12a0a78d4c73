import StageLineage.FileSystem.Basic

/-! What sessions ask of the store that holds their files: presence, reading, writing, and making sure
    that a directory exists. Writing never creates directories. -/

namespace StageLineage

inductive StoreError where
  | io (path : Path) (cause : IoError)
  /-- The directory to write into was never made. -/
  | missingDirectory (path : Path)
  deriving DecidableEq

namespace StoreError

def message (w : Wording) : StoreError → String
  | io path cause => s!"io error at {path.text}: {w.io cause}"
  | missingDirectory path => s!"directory does not exist: {path.text}"

def chain (w : Wording) (e : StoreError) : List String :=
  match e with
  | io _ cause => [e.message w, w.io cause]
  | missingDirectory _ => [e.message w]

end StoreError

class SessionStore (m : Type → Type) where
  fileExists : Path → m Bool
  /-- The bytes of a file, if there is one. -/
  read : Path → m (Except StoreError (Option ByteArray))
  /-- Writes a file anew into an existing directory. -/
  write : Path → ByteArray → m (Except StoreError Unit)
  /-- Makes sure that a directory and all above it exist. -/
  ensureDirectory : Path → m (Except StoreError Unit)

/-- The directory that a path is written into, if it is not the working directory. -/
def Path.directory? (p : Path) : Option Path := p.parent?.filter (!·.isEmpty)

/-- Writes a file after making sure that its directory exists. -/
def SessionStore.put {m : Type → Type} [Monad m] [SessionStore m] (p : Path) (bytes : ByteArray) :
    m (Except StoreError Unit) := do
  match p.directory? with
  | none => SessionStore.write p bytes
  | some dir =>
    match ← SessionStore.ensureDirectory dir with
    | .error e => return .error e
    | .ok _ => SessionStore.write p bytes

end StageLineage
