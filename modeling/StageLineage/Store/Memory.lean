import StageLineage.SortedMap
import StageLineage.Store.Basic

/-! A store in memory. Paths that have the same components are the same; the spelling that came first
    is kept. -/

namespace StageLineage

/-- The directories that were made and the files that were written. -/
structure MemoryStore where
  directories : SortedMap Path Unit
  files : SortedMap Path ByteArray

namespace MemoryStore

def empty : MemoryStore := ⟨.empty, .empty⟩

instance : Inhabited MemoryStore := ⟨empty⟩

def fileExists (s : MemoryStore) (p : Path) : Bool := s.files.contains p

def read? (s : MemoryStore) (p : Path) : Option ByteArray := s.files.get? p

/-- Writes a file whose directory was made before. -/
def write (s : MemoryStore) (p : Path) (bytes : ByteArray) : Except StoreError MemoryStore :=
  match p.directory? with
  | some dir =>
    if s.directories.contains dir then .ok { s with files := s.files.insert p bytes }
    else .error (.missingDirectory dir)
  | none => .ok { s with files := s.files.insert p bytes }

/-- Adds paths, given innermost first, up to one that is already there. -/
def addDirectories (known : SortedMap Path Unit) : List Path → SortedMap Path Unit
  | [] => known
  | p :: above => if known.contains p then known else addDirectories (known.insert p ()) above

def ensureDirectory (s : MemoryStore) (p : Path) : MemoryStore :=
  { s with directories := addDirectories s.directories (p.ancestors.filter (!·.isEmpty)) }

def filesUnder (s : MemoryStore) (dir : Path) : List Path := s.files.keys.filter (·.startsWith dir)

instance : SessionStore (StateM MemoryStore) where
  fileExists p := fun s => (s.fileExists p, s)
  read p := fun s => (.ok (s.read? p), s)
  write p bytes := fun s =>
    match s.write p bytes with
    | .ok s' => (.ok (), s')
    | .error e => (.error e, s)
  ensureDirectory p := fun s => (.ok (), s.ensureDirectory p)

end MemoryStore
end StageLineage
