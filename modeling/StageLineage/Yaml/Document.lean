import StageLineage.Yaml.Node
import StageLineage.Yaml.Scalar

/-! The JSON value of a YAML document. References are replaced by what they refer to, keys are taken as
    text, and of equal keys the last one counts. How deep a document nests and how often it refers are
    both limited. -/

namespace StageLineage.Yaml

namespace Node

/-! ### Anchors

An anchor is numbered by how many names are known before it, and a reference means the last node with
its number. A name that is used again takes a new number, which may be that of a later name too. -/

/-- The numbers of the names that are known at some place of a document. -/
abbrev Names := List (String × Nat)

/-- The number of an anchor. -/
def numberAnchor : Option String → StateT Names Option (Option Nat)
  | none => return none
  | some name => fun names =>
    let number := names.length
    some (some number, (name, number) :: names.filter (·.1 != name))

mutual
/-- Replaces the names of anchors by their numbers; a name has to be known before it is referred to. -/
def numbered : NamedNode → StateT Names Option (Node Nat)
  | scalar tag name text plain => return scalar tag (← numberAnchor name) text plain
  | sequence tag name items => do
    let number ← numberAnchor name
    return sequence tag number (← numberedItems items)
  | mapping tag name pairs => do
    let number ← numberAnchor name
    return mapping tag number (← numberedPairs pairs)
  | reference name => fun names => (names.find? (·.1 == name)).map fun n => (reference n.2, names)

def numberedItems : List NamedNode → StateT Names Option (List (Node Nat))
  | [] => return []
  | item :: items => do
    let item ← numbered item
    return item :: (← numberedItems items)

def numberedPairs : List (NamedNode × NamedNode) → StateT Names Option (List (Node Nat × Node Nat))
  | [] => return []
  | (key, value) :: pairs => do
    let key ← numbered key
    let value ← numbered value
    return (key, value) :: (← numberedPairs pairs)
end

mutual
/-- The anchored nodes with their numbers, in the order of the text. -/
def anchored : Node Nat → List (Nat × Node Nat)
  | scalar tag (some n) text plain => [(n, scalar tag (some n) text plain)]
  | sequence tag number items =>
    (number.map fun n => (n, sequence tag number items)).toList ++ anchoredItems items
  | mapping tag number pairs =>
    (number.map fun n => (n, mapping tag number pairs)).toList ++ anchoredPairs pairs
  | _ => []

def anchoredItems : List (Node Nat) → List (Nat × Node Nat)
  | [] => []
  | item :: items => anchored item ++ anchoredItems items

def anchoredPairs : List (Node Nat × Node Nat) → List (Nat × Node Nat)
  | [] => []
  | (key, value) :: pairs => anchored key ++ anchored value ++ anchoredPairs pairs
end

mutual
/-- The size of a node, where a collection counts once for its beginning and once for its end. -/
def size {α : Type} : Node α → Nat
  | scalar .. | reference _ => 1
  | sequence _ _ items => 2 + sizeItems items
  | mapping _ _ pairs => 2 + sizePairs pairs

def sizeItems {α : Type} : List (Node α) → Nat
  | [] => 0
  | item :: items => size item + sizeItems items

def sizePairs {α : Type} : List (Node α × Node α) → Nat
  | [] => 0
  | (key, value) :: pairs => size key + size value + sizePairs pairs
end

/-! ### Values -/

/-- How many collections a document may nest. -/
def maxDepth : Nat := 128

/-- How often a document may refer to anchors for each unit of its size. -/
def referencesPerSize : Nat := 100

/-- A computation that counts down the references that are still allowed. -/
abbrev Limited := StateT Nat Option

/-- The node that is meant by a node: itself, or what it refers to. -/
def target (anchors : List (Nat × Node Nat)) : Node Nat → Limited (Node Nat)
  | reference number => fun left =>
    match left, anchors.find? (·.1 == number) with
    | left + 1, some found => some (found.2, left)
    | _, _ => none
  | n => return n

def keyText (anchors : List (Nat × Node Nat)) (key : Node Nat) : Limited String := do
  match ← target anchors key with
  | scalar _ _ text _ => return text
  | _ => fun _ => none

/-- The value of a node that nests at most `depth` collections. -/
def value (anchors : List (Nat × Node Nat)) (depth : Nat) (n : Node Nat) : Limited Json := do
  match ← target anchors n, depth with
  | scalar tag _ text plain, _ => fun left => (scalarValue? tag text plain).map fun v => (v, left)
  | sequence tag _ items, depth + 1 =>
    if tag = .custom then fun _ => none else return .array (← items.mapM (value anchors depth))
  | mapping tag _ pairs, depth + 1 =>
    if tag = .custom then fun _ => none
    else
      let fields ← pairs.mapM fun pair => do
        let key ← keyText anchors pair.1
        return (key, ← value anchors depth pair.2)
      return .object (Json.sortFields fields)
  | _, _ => fun _ => none

def documentValue? (document : NamedNode) : Option Json := do
  let (document, _) ← numbered document []
  let (json, _) ← value (anchored document).reverse maxDepth document (referencesPerSize * document.size)
  return json

end Node

/-! ### The whole text -/

/-- Why a text is not one YAML document. -/
inductive TextError where
  | malformed
  | documentCount (count : Nat)

/-- The value of a text with at most one document; without a document it is null. -/
def parse (text : String) : Except TextError Json :=
  match (Node.documents? text).bind (·.mapM Node.documentValue?) with
  | none => .error .malformed
  | some [] => .ok .null
  | some [value] => .ok value
  | some values => .error (.documentCount values.length)

end StageLineage.Yaml
