import StageLineage.Json.Value
import StageLineage.Number.Shortest

/-! The text of a JSON value, on one line or indented. Both layouts write the same tokens; they differ
    in the blanks before an item and after a colon. -/

namespace StageLineage.Json

/-! ### Scalars -/

/-- How a character is written inside a string. -/
def escapedChar (c : Char) : List Char :=
  if c = '\x22' then ['\\', '\x22']
  else if c = '\\' then ['\\', '\\']
  else if c = '\x08' then ['\\', 'b']
  else if c = '\x0c' then ['\\', 'f']
  else if c = '\n' then ['\\', 'n']
  else if c = '\r' then ['\\', 'r']
  else if c = '\t' then ['\\', 't']
  else if c.toNat < 0x20 then
    ['\\', 'u', '0', '0', Nat.digitChar (c.toNat / 16), Nat.digitChar (c.toNat % 16)]
  else [c]

def stringChars (text : String) : List Char :=
  '\x22' :: (text.toList.flatMap escapedChar ++ ['\x22'])

def integerChars (n : Int) : List Char :=
  if n < 0 then '-' :: Nat.toDigits 10 n.natAbs else Nat.toDigits 10 n.natAbs

def Number.chars : Number → List Char
  | .integer n => integerChars n
  | .float x => x.chars

/-! ### Layouts -/

/-- Where blanks stand in the text of a value. -/
structure Layout where
  /-- What precedes an item, or the end of a container, at a depth. -/
  newline : Nat → List Char
  /-- What stands between a key and its value. -/
  colon : List Char

def Layout.compact : Layout := ⟨fun _ => [], [':']⟩

/-- Every item on a line of its own, two spaces deeper than its container. -/
def Layout.indented : Layout := ⟨fun depth => '\n' :: List.replicate (2 * depth) ' ', [':', ' ']⟩

mutual
/-- The text of a value whose container stands at `depth`. -/
def chars (l : Layout) (depth : Nat) : Json → List Char
  | null => ['n', 'u', 'l', 'l']
  | bool true => ['t', 'r', 'u', 'e']
  | bool false => ['f', 'a', 'l', 's', 'e']
  | number n => n.chars
  | string text => stringChars text
  | array [] => ['[', ']']
  | array (item :: items) =>
    '[' :: (l.newline (depth + 1) ++ chars l (depth + 1) item ++ itemsChars l (depth + 1) items ++
      l.newline depth ++ [']'])
  | object [] => ['\x7b', '\x7d']
  | object ((key, value) :: fields) =>
    '\x7b' :: (l.newline (depth + 1) ++ stringChars key ++ l.colon ++ chars l (depth + 1) value ++
      fieldsChars l (depth + 1) fields ++ l.newline depth ++ ['\x7d'])

/-- The items after the first, each with the comma before it. -/
def itemsChars (l : Layout) (depth : Nat) : List Json → List Char
  | [] => []
  | item :: items => ',' :: (l.newline depth ++ chars l depth item ++ itemsChars l depth items)

/-- The fields after the first, each with the comma before it. -/
def fieldsChars (l : Layout) (depth : Nat) : List (String × Json) → List Char
  | [] => []
  | (key, value) :: fields =>
    ',' :: (l.newline depth ++ stringChars key ++ l.colon ++ chars l depth value ++ fieldsChars l depth fields)
end

/-- The text of a value without blanks. -/
def compact (j : Json) : String := String.ofList (j.chars .compact 0)

/-- The text of a value with one item a line. -/
def indented (j : Json) : String := String.ofList (j.chars .indented 0)

/-- The text of the canonical form, without blanks. -/
def canonicalText (j : Json) : String := j.canonical.compact

end StageLineage.Json
