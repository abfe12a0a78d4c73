import StageLineage.Number.Digits
import StageLineage.Yaml.Cursor

/-! Tags say of what kind a node is. In the text a tag has a handle, which a directive may replace by
    the beginning of a URI, and a suffix. -/

namespace StageLineage.Yaml

/-- What a tag asks for. -/
inductive Tag where
  | none
  | boolean
  | integer
  | float
  | null
  /-- A tag of the author's own. -/
  | custom
  /-- Any other URI; the node is taken as it is, and a scalar as text. -/
  | other
  deriving DecidableEq

/-- The tag that a URI, given by its bytes, stands for. -/
def Tag.ofUri (uri : List UInt8) : Tag :=
  match String.fromUTF8? ⟨uri.toArray⟩ with
  | Option.none => if uri.head? = some 33 then none else other
  | some text =>
    if text = "tag:yaml.org,2002:bool" then boolean
    else if text = "tag:yaml.org,2002:int" then integer
    else if text = "tag:yaml.org,2002:float" then float
    else if text = "tag:yaml.org,2002:null" then null
    else if text.startsWith "!" then custom
    else other

def asciiBytes (cs : List Char) : List UInt8 := cs.map fun c => c.toNat.toUInt8

/-- The bytes of the tag `!`, which asks for nothing on a scalar. -/
def plainTag : List UInt8 := asciiBytes ['!']

/-! ### Tags in the text -/

/-- Whether a character may stand in a URI; commas and brackets only between angle brackets and in a
    directive. -/
def isUriChar (verbatim : Bool) (c : Char) : Bool :=
  isWord c || [';', '/', '?', ':', '@', '&', '=', '+', '$', '.', '!', '~', '*', '\x27', '(', ')'].contains c ||
    (verbatim && (c == ',' || c == '[' || c == ']'))

/-- How many bytes follow the first byte of an encoded character. -/
def trailingBytes? (first : Nat) : Option Nat :=
  if first < 0x80 then some 0
  else if first < 0xc0 then none
  else if first < 0xe0 then some 1
  else if first < 0xf0 then some 2
  else if first < 0xf8 then some 3
  else none

/-- Reads the bytes of a URI, where `%` and two digits stand for one byte of an encoded character;
    `pending` bytes of the current one are still to come. -/
def uriBytes (verbatim : Bool) : Nat → List Char → Option (List UInt8 × List Char)
  | pending, '%' :: a :: b :: rest => do
    let byte ← Digits.value? 16 [a, b]
    if pending = 0 then
      let pending ← trailingBytes? byte
      (uriBytes verbatim pending rest).map fun r => (byte.toUInt8 :: r.1, r.2)
    else if 0x80 ≤ byte && byte < 0xc0 then
      (uriBytes verbatim (pending - 1) rest).map fun r => (byte.toUInt8 :: r.1, r.2)
    else none
  | pending, c :: rest =>
    if pending != 0 || c = '%' then none
    else if isUriChar verbatim c then (uriBytes verbatim 0 rest).map fun r => (c.toNat.toUInt8 :: r.1, r.2)
    else some ([], c :: rest)
  | pending, [] => if pending = 0 then some ([], []) else none

def uri? (verbatim : Bool) (cs : List Char) : Option (List UInt8 × List Char) := do
  let (bytes, rest) ← uriBytes verbatim 0 cs
  if bytes = [] then none else return (bytes, rest)

/-- A handle and a suffix; an empty handle means that the suffix is the whole URI. -/
structure WrittenTag where
  handle : List Char
  suffix : List UInt8

/-- Reads `!`, a word and, if it is there, another `!`. -/
def handle? : List Char → Option (List Char × List Char)
  | '!' :: rest =>
    let word := rest.takeWhile isWord
    match rest.dropWhile isWord with
    | '!' :: rest => some ('!' :: word ++ ['!'], rest)
    | rest => some ('!' :: word, rest)
  | _ => none

/-- Whether a handle stands between two marks. -/
def isClosed (handle : List Char) : Bool := handle.length != 1 && handle.getLast? == some '!'

/-- Reads a tag without checking what follows it. -/
def openTag? (cs : List Char) : Option (WrittenTag × List Char) :=
  match cs with
  | '!' :: '<' :: rest => do
    let (suffix, rest) ← uri? true rest
    match rest with
    | '>' :: rest => return (⟨[], suffix⟩, rest)
    | _ => none
  | cs => do
    let (handle, rest) ← handle? cs
    if isClosed handle then
      let (suffix, rest) ← uri? false rest
      return (⟨handle, suffix⟩, rest)
    else
      let (more, rest) ← uriBytes false 0 rest
      let suffix := asciiBytes (handle.drop 1) ++ more
      if suffix = [] then return (⟨[], plainTag⟩, rest) else return (⟨['!'], suffix⟩, rest)

/-- Reads a tag, which a gap has to follow, or a comma inside brackets or braces. -/
def tag? (inFlow : Bool) (cs : List Char) : Option (WrittenTag × List Char) := do
  let (tag, rest) ← openTag? cs
  if startsGap rest || (inFlow && rest.head? == some ',') then return (tag, rest) else none

/-! ### Directives -/

/-- A line that begins with `%`. -/
inductive Directive where
  | version (major minor : Nat)
  | handle (handle : List Char) (uri : List UInt8)

/-- Reads a version number of at most nine digits. -/
def versionNumber? (cs : List Char) : Option (Nat × List Char) :=
  let digits := cs.takeWhile Char.isDigit
  if digits = [] || 9 < digits.length then none
  else some (digits.foldl (fun n c => 10 * n + (c.toNat - 48)) 0, cs.dropWhile Char.isDigit)

def versionDirective? (cs : List Char) : Option (Directive × List Char) := do
  let (major, rest) ← versionNumber? (cs.dropWhile isBlank)
  match rest with
  | '.' :: rest =>
    let (minor, rest) ← versionNumber? rest
    return (.version major minor, rest)
  | _ => none

def handleDirective? (cs : List Char) : Option (Directive × List Char) := do
  let (handle, rest) ← handle? (cs.dropWhile isBlank)
  if !isClosed handle && handle != ['!'] then none
  if !(rest.head?.any isBlank) then none
  let (uri, rest) ← uri? true (rest.dropWhile isBlank)
  if startsGap rest then return (.handle handle uri, rest) else none

def directive? (cs : List Char) : Option (Directive × List Char) :=
  let name := cs.takeWhile isWord
  let rest := cs.dropWhile isWord
  if !startsGap rest then none
  else if name = ['Y', 'A', 'M', 'L'] then versionDirective? rest
  else if name = ['T', 'A', 'G'] then handleDirective? rest
  else none

end StageLineage.Yaml
