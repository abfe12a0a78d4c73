import StageLineage.Manifest.Format
import StageLineage.Session.Basic

/-! The register of personas, by their ids. An id can be taken once; a manifest whose id is taken is
    refused and changes nothing. -/

namespace StageLineage

inductive RegistryError where
  | duplicatePersona (persona : String)
  | manifest (path : Path) (cause : ManifestError)
  | layout (cause : LayoutError)
  /-- The directory of manifests could not be listed. -/
  | io (path : Path) (cause : IoError)
  deriving DecidableEq

namespace RegistryError

def message (w : Wording) : RegistryError → String
  | duplicatePersona persona => s!"persona '{persona}' is already registered"
  | manifest path cause => s!"failed to load manifest {path.text}: {cause.message w}"
  | layout cause => cause.message
  | io path cause => s!"io error at {path.text}: {w.io cause}"

def chain (w : Wording) (e : RegistryError) : List String :=
  match e with
  | duplicatePersona _ => [e.message w]
  | manifest _ cause => e.message w :: cause.chain w
  | layout cause => cause.chain
  | io _ cause => [e.message w, w.io cause]

end RegistryError

structure Registry where
  personas : SortedMap String Persona

namespace Registry

def empty : Registry := ⟨.empty⟩

instance : Inhabited Registry := ⟨empty⟩

def get? (r : Registry) (id : String) : Option Persona := r.personas.get? id

def ids (r : Registry) : List String := r.personas.keys

def register (r : Registry) (d : Definition) : Except RegistryError (Registry × Persona) :=
  if r.personas.contains d.persona then .error (.duplicatePersona d.persona)
  else
    match Persona.compile d with
    | .ok p => .ok (⟨r.personas.insert d.persona p⟩, p)
    | .error cause => .error (.layout cause)

section Loading
variable {m : Type → Type} [Monad m] [FileSystem m]

/-- The regular files in a directory that have a known format, in order. -/
def manifestFiles (fs : Formats) (dir : Path) : m (Except IoError (List Path)) := do
  match ← FileSystem.listDirectory dir with
  | .error cause => return .error cause
  | .ok names =>
    let files ← (names.map dir.child).filterM FileSystem.isFile
    return .ok ((files.filter fun p => (fs.forPath? p).isSome).mergeSort fun p q => (compare p q).isLE)

/-- Registers the manifests in some files, up to the first that fails. -/
def loadFiles (fs : Formats) (r : Registry) : List Path → m (Registry × Except RegistryError Unit)
  | [] => return (r, .ok ())
  | p :: rest => do
    match ← fs.load p with
    | .error cause => return (r, .error (.manifest p cause))
    | .ok d =>
      match r.register d with
      | .error e => return (r, .error e)
      | .ok (r, _) => loadFiles fs r rest

/-- Registers the manifests in a directory and says how many there are. -/
def loadDirectory (fs : Formats) (r : Registry) (dir : Path) : m (Registry × Except RegistryError Nat) := do
  match ← manifestFiles fs dir with
  | .error cause => return (r, .error (.io dir cause))
  | .ok files =>
    let (r, result) ← loadFiles fs r files
    return (r, result.map fun _ => files.length)

end Loading
end Registry
end StageLineage
