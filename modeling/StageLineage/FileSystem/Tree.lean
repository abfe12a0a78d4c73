import StageLineage.FileSystem.Basic
import StageLineage.SortedMap

/-! A file system in memory: the directories and files below a working directory. A path is followed
    name by name, so `..` needs the directory before it to exist. What lies beyond the working
    directory is taken for a directory in which nothing can be found. -/

namespace StageLineage

/-- What stands at a place of the tree. -/
inductive Tree.Entry where
  | directory
  | file (bytes : ByteArray)

/-- The entries below the working directory by the names that lead to them. -/
structure Tree where
  entries : SortedMap (List String) Tree.Entry

namespace Tree

/-- Where a path leads. -/
inductive Place where
  | within (names : List String)
  | beyond

def empty : Tree := ⟨.empty⟩

instance : Inhabited Tree := ⟨empty⟩

/-! ### Following a path -/

def maxNameSize : Nat := 255

def maxPathSize : Nat := 4095

def entry? (t : Tree) : Place → Option Entry
  | .within [] => some .directory
  | .within names => t.entries.get? names
  | .beyond => some .directory

def checkDirectory (t : Tree) (place : Place) : Except IoError Unit :=
  match t.entry? place with
  | none => .error .notFound
  | some (.file _) => .error .notADirectory
  | some .directory => .ok ()

def placeIn : Place → String → Except IoError Place
  | place, "." => .ok place
  | .within [], ".." | .beyond, ".." => .ok .beyond
  | .within names, ".." => .ok (.within names.dropLast)
  | place, name =>
    if maxNameSize < name.utf8ByteSize then .error .invalidFilename
    else
      match place with
      | .within names => .ok (.within (names ++ [name]))
      | .beyond => .error .notFound

/-- Follows names from a place; all but the last have to lead to directories. -/
def follow (t : Tree) (place : Place) : List String → Except IoError Place
  | [] => .ok place
  | name :: names => do
    t.checkDirectory place
    t.follow (← placeIn place name) names

def names (p : Path) : List String :=
  ((Path.split p.text.toList).filter (· ≠ [])).map String.ofList

def start (p : Path) : Except IoError Place :=
  if p.text.toList.contains '\x00' then .error .invalidInput
  else if p.isEmpty then .error .notFound
  else if maxPathSize < p.text.utf8ByteSize then .error .invalidFilename
  else .ok (if p.isAbsolute then .beyond else .within [])

/-- Whether a path ends with a separator, and so has to lead to a directory. -/
def wantsDirectory (p : Path) : Bool := p.text.toList.getLast? == some '/'

/-- What stands where a path leads to. -/
def locate (t : Tree) (p : Path) : Except IoError (Place × Entry) := do
  let place ← t.follow (← start p) (names p)
  match t.entry? place with
  | none => throw .notFound
  | some (.file bytes) => if wantsDirectory p then throw .notADirectory else return (place, .file bytes)
  | some .directory => return (place, .directory)

/-- The directory above the last name of a path, and that name; `special` is the error for a path whose
    last name is missing or leads to a directory by itself. -/
def locateNew (t : Tree) (special : IoError) (p : Path) : Except IoError (Place × String) := do
  let place ← start p
  match (names p).getLast? with
  | none => throw special
  | some name =>
    let above ← t.follow place (names p).dropLast
    t.checkDirectory above
    if name = "." || name = ".." then throw special else return (above, name)

/-! ### Operations -/

def holdsFile (t : Tree) (p : Path) : Bool :=
  match t.locate p with
  | .ok (_, .file _) => true
  | _ => false

def read (t : Tree) (p : Path) : Except IoError ByteArray := do
  match ← t.locate p with
  | (_, .file bytes) => return bytes
  | (_, .directory) => throw .isADirectory

def put (t : Tree) (place : Place) (e : Entry) : Except IoError Tree :=
  match place with
  | .within names => .ok ⟨t.entries.insert names e⟩
  | .beyond => .error .notFound

def write (t : Tree) (p : Path) (bytes : ByteArray) : Except IoError Tree := do
  let (above, name) ← t.locateNew .isADirectory p
  if wantsDirectory p then throw .isADirectory
  let place ← placeIn above name
  match t.entry? place with
  | some .directory => throw .isADirectory
  | _ => t.put place (.file bytes)

def makeDirectory (t : Tree) (p : Path) : Except IoError Tree := do
  let (above, name) ← t.locateNew .alreadyExists p
  let place ← placeIn above name
  match t.entry? place with
  | some _ => throw .alreadyExists
  | none => t.put place .directory

def list (t : Tree) (p : Path) : Except IoError (List String) := do
  match ← t.locate p with
  | (.within above, .directory) =>
    return t.entries.keys.filterMap fun names => if names.dropLast = above then names.getLast? else none
  | (.beyond, .directory) => return []
  | (_, .file _) => throw .notADirectory

/-- The tree without a file, if there is one at the path. -/
def remove? (t : Tree) (p : Path) : Option Tree :=
  match t.locate p with
  | .ok (.within names, .file _) => some ⟨t.entries.erase names⟩
  | _ => none

/-- The paths of all entries in order, a separator behind those of directories. -/
def listing (t : Tree) : List String :=
  (t.entries.entries.map fun e =>
    "/".intercalate e.1 ++ (match e.2 with | .directory => "/" | .file _ => "")).mergeSort fun a b => decide (a ≤ b)

/-- Performs a change that may fail; then the tree stays as it is. -/
def change (f : Tree → Except IoError Tree) : StateM Tree (Except IoError Unit) := fun t =>
  match f t with
  | .ok t' => (.ok (), t')
  | .error e => (.error e, t)

instance : FileSystem (StateM Tree) where
  isFile p := return (← get).holdsFile p
  isDirectory p := return match (← get).locate p with | .ok (_, .directory) => true | _ => false
  readFile p := return (← get).read p
  writeFile p bytes := change (·.write p bytes)
  createDirectory p := change (·.makeDirectory p)
  listDirectory p := return (← get).list p

/-- The tree with the given directories and files, and the directories above them. -/
def ofContents (directories : List Path) (files : List (Path × ByteArray)) : Tree :=
  let fill : StateM Tree Unit := do
    for p in directories do
      let _ ← FileSystem.createDirectories p
    for (p, bytes) in files do
      let _ ← FileSystem.createDirectories (p.parent?.getD .empty)
      let _ ← FileSystem.writeFile p bytes
  (fill.run empty).2

end Tree
end StageLineage
