import StageLineage.Number.Binary64
import StageLineage.SortedMap

/-! JSON values. The fields of an object stand in a list; the reader orders them by key and keeps the
    last of equal keys, while a report may list its fields in an order of its own. -/

namespace StageLineage

/-- A JSON number: an integer of 64 bits, signed or not, or a floating-point number. -/
inductive Json.Number where
  | integer (value : Int)
  | float (value : Binary64)
  deriving DecidableEq

inductive Json where
  | null
  | bool (value : Bool)
  | number (value : Json.Number)
  | string (text : String)
  | array (items : List Json)
  | object (fields : List (String × Json))
  deriving Inhabited

namespace Json

/-- The least integer that is kept exactly. -/
def minInteger : Int := -9223372036854775808

/-- The greatest integer that is kept exactly. -/
def maxInteger : Int := 18446744073709551615

def ofNat (n : Nat) : Json := number (.integer n)

def ofStrings (texts : List String) : Json := array (texts.map string)

def ofString? : Option String → Json
  | some text => string text
  | none => null

/-- Puts a field into ordered fields, replacing the value of an equal key. -/
def insertField (fields : List (String × Json)) (field : String × Json) : List (String × Json) :=
  SortedMap.insertEntry field.1 field.2 fields

/-- The fields in order of their keys, with the last value of each key. -/
def sortFields (fields : List (String × Json)) : List (String × Json) :=
  fields.foldl insertField []

def field? (fields : List (String × Json)) (key : String) : Option Json :=
  (fields.find? (·.1 == key)).map (·.2)

/-! ### Canonical form -/

mutual
/-- The value with the fields of every object in key order. -/
def canonical : Json → Json
  | array items => array (canonicalItems items)
  | object fields => object (sortFields (canonicalFields fields))
  | other => other

def canonicalItems : List Json → List Json
  | [] => []
  | item :: items => canonical item :: canonicalItems items

def canonicalFields : List (String × Json) → List (String × Json)
  | [] => []
  | (key, value) :: fields => (key, canonical value) :: canonicalFields fields
end

end Json
end StageLineage
