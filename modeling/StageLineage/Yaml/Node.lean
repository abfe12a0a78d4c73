import StageLineage.Yaml.Token

/-! The documents of a YAML text as trees of nodes, read from its tokens. -/

namespace StageLineage.Yaml

/-- A node, whose anchors are told apart by labels of type `α`. -/
inductive Node (α : Type) where
  | scalar (tag : Tag) (anchor? : Option α) (text : String) (plain : Bool)
  | sequence (tag : Tag) (anchor? : Option α) (items : List (Node α))
  | mapping (tag : Tag) (anchor? : Option α) (pairs : List (Node α × Node α))
  /-- The node of an anchor. -/
  | reference (anchor : α)

/-- A node with the names that the text gives to its anchors. -/
abbrev NamedNode := Node String

namespace Node

/-- The node that stands where nothing is written. -/
def empty : NamedNode := .scalar .none none "" true

/-- What stands before a node. -/
structure Properties where
  anchor? : Option String
  tag? : Option (List UInt8)

/-- The beginnings of URIs by the handles that stand for them. -/
abbrev Handles := List (List Char × List UInt8)

/-- The URI of a tag; its handle has to be known. -/
def uriOf? (handles : Handles) (written : WrittenTag) : Option (List UInt8) :=
  if written.handle = [] then some written.suffix
  else (handles.find? (·.1 == written.handle)).map fun h => h.2 ++ written.suffix

/-- Reads an anchor and a tag in either order, if they are there. -/
def properties (handles : Handles) : List Token → Option (Properties × List Token)
  | .anchor name :: .tag written :: rest => (uriOf? handles written).map fun uri => (⟨some name, some uri⟩, rest)
  | .tag written :: .anchor name :: rest => (uriOf? handles written).map fun uri => (⟨some name, some uri⟩, rest)
  | .tag written :: rest => (uriOf? handles written).map fun uri => (⟨none, some uri⟩, rest)
  | .anchor name :: rest => some (⟨some name, none⟩, rest)
  | rest => some (⟨none, none⟩, rest)

namespace Properties

def tag (p : Properties) : Tag := (p.tag?.map Tag.ofUri).getD .none

/-- The tag of a scalar that is written out. -/
def scalarTag (p : Properties) : Tag := if p.tag? = some plainTag then .none else p.tag

def emptyNode (p : Properties) : Option NamedNode :=
  if p.anchor?.isSome || p.tag?.isSome then some (.scalar p.tag p.anchor? "" true) else none

end Properties

/-! ### Missing nodes -/

/-- Whether no item of a block sequence begins here. -/
def noItem : List Token → Bool
  | .blockEntry :: _ | .blockEnd :: _ => true
  | _ => false

/-- Whether no item of a sequence at the indentation of its mapping begins here. -/
def noIndentlessItem : List Token → Bool
  | .blockEntry :: _ | .key :: _ | .value :: _ | .blockEnd :: _ => true
  | _ => false

/-- Whether no key and no value of a block mapping begins here. -/
def noBlockPart : List Token → Bool
  | .key :: _ | .value :: _ | .blockEnd :: _ => true
  | _ => false

/-- Whether no value begins here inside brackets. -/
def noItemValue : List Token → Bool
  | .flowEntry :: _ | .flowSequenceEnd :: _ => true
  | _ => false

/-- Whether no key of a single pair begins here inside brackets. -/
def noPairKey : List Token → Bool
  | .value :: _ => true
  | rest => noItemValue rest

/-- Whether no value begins here inside braces. -/
def noFlowValue : List Token → Bool
  | .flowEntry :: _ | .flowMappingEnd :: _ => true
  | _ => false

/-- Whether no key begins here inside braces. -/
def noFlowKey : List Token → Bool
  | .value :: _ => true
  | rest => noFlowValue rest

/-- The tokens after the comma that every entry but the first needs. -/
def afterComma (first : Bool) : List Token → Option (List Token)
  | .flowEntry :: rest => if first then some (.flowEntry :: rest) else some rest
  | tokens => if first then some tokens else none

/-! ### Nodes -/

mutual
/-- Reads a node. Block collections are allowed if `block`, and a sequence at the indentation of its
    mapping if `indentless`. -/
def node (handles : Handles) (block indentless : Bool) : Nat → List Token → Option (NamedNode × List Token)
  | 0, _ => none
  | _ + 1, .reference name :: rest => some (.reference name, rest)
  | fuel + 1, tokens => do
    let (p, tokens) ← properties handles tokens
    match tokens with
    | .blockEntry :: rest =>
      if indentless then
        let (items, rest) ← indentlessItems handles fuel (.blockEntry :: rest)
        return (.sequence p.tag p.anchor? items, rest)
      else return (← p.emptyNode, .blockEntry :: rest)
    | .scalar text plain :: rest => return (.scalar p.scalarTag p.anchor? text plain, rest)
    | .flowSequenceStart :: rest =>
      let (items, rest) ← flowItems handles true fuel rest
      return (.sequence p.tag p.anchor? items, rest)
    | .flowMappingStart :: rest =>
      let (pairs, rest) ← flowPairs handles true fuel rest
      return (.mapping p.tag p.anchor? pairs, rest)
    | .blockSequenceStart :: rest =>
      if block then
        let (items, rest) ← blockItems handles fuel rest
        return (.sequence p.tag p.anchor? items, rest)
      else return (← p.emptyNode, .blockSequenceStart :: rest)
    | .blockMappingStart :: rest =>
      if block then
        let (pairs, rest) ← blockPairs handles fuel rest
        return (.mapping p.tag p.anchor? pairs, rest)
      else return (← p.emptyNode, .blockMappingStart :: rest)
    | rest => return (← p.emptyNode, rest)

/-- Reads a node, or the empty node if `missing`. -/
def nodeUnless (handles : Handles) (missing block indentless : Bool) :
    Nat → List Token → Option (NamedNode × List Token)
  | 0, _ => none
  | fuel + 1, tokens => if missing then some (empty, tokens) else node handles block indentless fuel tokens

def blockItems (handles : Handles) : Nat → List Token → Option (List NamedNode × List Token)
  | fuel + 1, .blockEntry :: rest => do
    let (item, rest) ← nodeUnless handles (noItem rest) true false fuel rest
    let (items, rest) ← blockItems handles fuel rest
    return (item :: items, rest)
  | _ + 1, .blockEnd :: rest => some ([], rest)
  | _, _ => none

/-- Reads the items of a sequence that stands at the indentation of its mapping. -/
def indentlessItems (handles : Handles) : Nat → List Token → Option (List NamedNode × List Token)
  | 0, _ => none
  | fuel + 1, .blockEntry :: rest => do
    let (item, rest) ← nodeUnless handles (noIndentlessItem rest) true false fuel rest
    let (items, rest) ← indentlessItems handles fuel rest
    return (item :: items, rest)
  | _ + 1, rest => some ([], rest)

def blockPairs (handles : Handles) : Nat → List Token → Option (List (NamedNode × NamedNode) × List Token)
  | fuel + 1, .key :: rest => do
    let (key, rest) ← nodeUnless handles (noBlockPart rest) true true fuel rest
    let (value, rest) ← blockValue handles fuel rest
    let (pairs, rest) ← blockPairs handles fuel rest
    return ((key, value) :: pairs, rest)
  | _ + 1, .blockEnd :: rest => some ([], rest)
  | _, _ => none

def blockValue (handles : Handles) : Nat → List Token → Option (NamedNode × List Token)
  | 0, _ => none
  | fuel + 1, .value :: rest => nodeUnless handles (noBlockPart rest) true true fuel rest
  | _ + 1, rest => some (empty, rest)

def flowItems (handles : Handles) (first : Bool) : Nat → List Token → Option (List NamedNode × List Token)
  | 0, _ => none
  | _ + 1, .flowSequenceEnd :: rest => some ([], rest)
  | fuel + 1, tokens => do
    match ← afterComma first tokens with
    | .flowSequenceEnd :: rest => return ([], rest)
    | .key :: rest =>
      let (pair, rest) ← singlePair handles fuel rest
      let (items, rest) ← flowItems handles false fuel rest
      return (.mapping .none none [pair] :: items, rest)
    | tokens =>
      let (item, rest) ← node handles false false fuel tokens
      let (items, rest) ← flowItems handles false fuel rest
      return (item :: items, rest)

/-- Reads a pair that stands between brackets without braces. Where its key is missing, the token that
    shows this is passed over. -/
def singlePair (handles : Handles) : Nat → List Token → Option ((NamedNode × NamedNode) × List Token)
  | 0, _ => none
  | fuel + 1, tokens => do
    let missing := noPairKey tokens
    let (key, rest) ← nodeUnless handles missing false false fuel tokens
    let rest := if missing then rest.drop 1 else rest
    let (value, rest) ← itemValue handles fuel rest
    return ((key, value), rest)

def itemValue (handles : Handles) : Nat → List Token → Option (NamedNode × List Token)
  | 0, _ => none
  | fuel + 1, .value :: rest => nodeUnless handles (noItemValue rest) false false fuel rest
  | _ + 1, rest => some (empty, rest)

def flowPairs (handles : Handles) (first : Bool) :
    Nat → List Token → Option (List (NamedNode × NamedNode) × List Token)
  | 0, _ => none
  | _ + 1, .flowMappingEnd :: rest => some ([], rest)
  | fuel + 1, tokens => do
    match ← afterComma first tokens with
    | .flowMappingEnd :: rest => return ([], rest)
    | .key :: rest =>
      let (key, rest) ← nodeUnless handles (noFlowKey rest) false false fuel rest
      let (value, rest) ← flowValue handles fuel rest
      let (pairs, rest) ← flowPairs handles false fuel rest
      return ((key, value) :: pairs, rest)
    | tokens =>
      let (key, rest) ← node handles false false fuel tokens
      let (pairs, rest) ← flowPairs handles false fuel rest
      return ((key, empty) :: pairs, rest)

def flowValue (handles : Handles) : Nat → List Token → Option (NamedNode × List Token)
  | 0, _ => none
  | fuel + 1, .value :: rest => nodeUnless handles (noFlowValue rest) false false fuel rest
  | _ + 1, rest => some (empty, rest)
end

/-! ### Documents -/

/-- The handles that need no directive. -/
def defaultHandles : Handles :=
  [(['!'], plainTag), (['!', '!'], asciiBytes "tag:yaml.org,2002:".toList)]

def isKnownVersion (major minor : Nat) : Bool := major == 1 && (minor == 1 || minor == 2)

/-- Reads directives; the version and each handle may be given once. -/
def directives (versionSeen : Bool) (handles : Handles) : List Token → Option (Handles × List Token)
  | .directive (.version major minor) :: rest =>
    if versionSeen || !isKnownVersion major minor then none else directives true handles rest
  | .directive (.handle handle uri) :: rest =>
    if handles.any (·.1 == handle) then none else directives versionSeen (handles ++ [(handle, uri)]) rest
  | rest => some (handles ++ defaultHandles, rest)

def noContent : List Token → Bool
  | [] | .directive _ :: _ | .documentStart :: _ | .documentEnd :: _ => true
  | _ => false

/-- Reads a document that begins with directives or a mark. -/
def explicitDocument (fuel : Nat) (tokens : List Token) : Option (NamedNode × List Token) := do
  let (handles, rest) ← directives false [] tokens
  match rest with
  | .documentStart :: rest => nodeUnless handles (noContent rest) true false fuel rest
  | _ => none

/-- Reads the documents after the first one, at most `fuel` tokens of them. -/
def laterDocuments : Nat → List Token → Option (List NamedNode)
  | _, [] => some []
  | 0, _ => none
  | fuel + 1, .documentEnd :: rest => laterDocuments fuel rest
  | fuel + 1, tokens => do
    let (document, rest) ← explicitDocument (fuel + 1) tokens
    return document :: (← laterDocuments fuel rest)

/-- The documents of a text. Only the first one may do without a mark. -/
def documents? (text : String) : Option (List NamedNode) := do
  let tokens ← tokens? text
  let fuel := 4 * tokens.length + 4
  match tokens with
  | [] => return []
  | .directive _ :: _ | .documentStart :: _ => laterDocuments fuel tokens
  | tokens =>
    let (document, rest) ← node defaultHandles true false fuel tokens
    return document :: (← laterDocuments fuel rest)

end Node
end StageLineage.Yaml
