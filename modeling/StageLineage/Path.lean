import StageLineage.SortedMap

/-! Paths with `/` as separator. A path keeps its spelling; it is compared by its components, so that
    repeated and trailing separators and `.` after the first place do not tell paths apart. A leading
    `.` is a component of its own, and `..` is not resolved. -/

namespace StageLineage

/-- A path as it was written. -/
structure Path where
  text : String
  deriving DecidableEq, Inhabited

namespace Path

/-- One step of a path. -/
inductive Component where
  /-- The leading `/`. -/
  | root
  /-- A leading `.`. -/
  | here
  /-- The name `..`. -/
  | up
  | name (text : String)
  deriving DecidableEq

namespace Component

/-- The rank of the kind of a component in the order of paths. -/
def rank : Component → Nat
  | root => 0
  | here => 1
  | up => 2
  | name _ => 3

/-- The name of a component, empty for the special ones. -/
def label : Component → String
  | name text => text
  | _ => ""

instance : Ord Component := ⟨compareLex (compareOn rank) (compareOn label)⟩

instance : Std.TransOrd Component :=
  inferInstanceAs (Std.TransCmp (compareLex (compareOn rank) (compareOn label)))

end Component

/-! ### Components -/

/-- Splits at every `/`. -/
def split : List Char → List (List Char)
  | [] => [[]]
  | c :: rest =>
    match c == '/', split rest with
    | true, pieces => [] :: pieces
    | false, [] => [[c]]
    | false, piece :: pieces => (c :: piece) :: pieces

/-- The component that a piece between separators stands for; an empty piece and `.` stand for none. -/
def component? (piece : List Char) : Option Component :=
  if piece = [] || piece = ['.'] then none
  else if piece = ['.', '.'] then some .up
  else some (.name (String.ofList piece))

/-- The components of the pieces that follow the text `before`, each with the text that it ends. -/
def spansAfter (before : List Char) : List (List Char) → List (Component × List Char)
  | [] => []
  | piece :: pieces =>
    let text := before ++ piece
    match component? piece with
    | some c => (c, text) :: spansAfter (text ++ ['/']) pieces
    | none => spansAfter (text ++ ['/']) pieces

/-- The components of a path, each with the part of the path that it ends. -/
def spans (p : Path) : List (Component × List Char) :=
  match split p.text.toList with
  | [] => []
  | first :: pieces =>
    if first = [] && !pieces.isEmpty then (.root, ['/']) :: spansAfter ['/'] pieces
    else if first = ['.'] then (.here, ['.']) :: spansAfter ['.', '/'] pieces
    else spansAfter [] (first :: pieces)

def components (p : Path) : List Component :=
  match split p.text.toList with
  | [] => []
  | first :: pieces =>
    if first = [] && !pieces.isEmpty then .root :: pieces.filterMap component?
    else if first = ['.'] then .here :: pieces.filterMap component?
    else (first :: pieces).filterMap component?

theorem map_spansAfter (before : List Char) (pieces : List (List Char)) :
    (spansAfter before pieces).map (·.1) = pieces.filterMap component? := by
  induction pieces generalizing before with
  | nil => rfl
  | cons piece pieces ih =>
    rw [spansAfter, List.filterMap_cons]
    cases component? piece <;> simp [ih]

theorem components_eq_map_spans (p : Path) : p.components = p.spans.map (·.1) := by
  rw [components, spans]
  cases split p.text.toList with
  | nil => rfl
  | cons first pieces =>
    dsimp only
    split
    · rw [List.map_cons, map_spansAfter]
    split
    · rw [List.map_cons, map_spansAfter]
    · rw [map_spansAfter]

instance : Ord Path := ⟨compareOn components⟩

instance : Std.TransOrd Path := inferInstanceAs (Std.TransCmp (compareOn components))

/-- Whether two paths have the same components. -/
def equiv (p q : Path) : Bool := p.components == q.components

/-- Whether the components of `dir` begin those of `p`. -/
def startsWith (p dir : Path) : Bool := dir.components.isPrefixOf p.components

/-! ### Building and taking apart -/

def isAbsolute (p : Path) : Bool := p.text.toList.head? == some '/'

def empty : Path := ⟨""⟩

def isEmpty (p : Path) : Bool := p.text.isEmpty

/-- `q` below `p`; an absolute `q` stands for itself. -/
def join (p q : Path) : Path :=
  if q.isAbsolute then q
  else if p.isEmpty || p.text.toList.getLast? == some '/' then ⟨p.text ++ q.text⟩
  else ⟨p.text ++ "/" ++ q.text⟩

/-- `name` below `p`. -/
def child (p : Path) (name : String) : Path := p.join ⟨name⟩

/-- The parts of a path that end before its last component, innermost first. -/
def parents (p : Path) : List Path :=
  match p.spans.reverse with
  | [] => []
  | (c, _) :: outer =>
    let shown := outer.map fun s => Path.mk (String.ofList s.2)
    match (c :: outer.map (·.1)).getLast? with
    | some .root => shown
    | _ => shown ++ [empty]

def parent? (p : Path) : Option Path := p.parents.head?

/-- The path itself and all its parents, innermost first. -/
def ancestors (p : Path) : List Path := p :: p.parents

/-- The last component, if it is a name. -/
def fileName? (p : Path) : Option String :=
  match p.components.getLast? with
  | some (.name text) => some text
  | _ => none

/-- The part of the file name after its last dot; a name that only begins with a dot has none. -/
def extension? (p : Path) : Option String := do
  let name ← p.fileName?
  let (reversed, rest) := name.toList.reverse.span (· != '.')
  match rest with
  | [] => none
  | _ :: stem => if stem.isEmpty then none else some (String.ofList reversed.reverse)

end Path
end StageLineage
