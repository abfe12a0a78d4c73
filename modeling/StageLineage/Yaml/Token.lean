import StageLineage.Yaml.BlockScalar
import StageLineage.Yaml.FlowScalar
import StageLineage.Yaml.Tag

/-! The tokens of a YAML text. Indentation becomes tokens of its own: where a line is indented further
    than the collection around it a new block collection starts, and where it is indented less the
    open ones end. A key that is not announced by a question mark is known to be one only when its
    colon is met, on the same line; its token is then put in front of it. -/

namespace StageLineage.Yaml

inductive Token where
  | directive (value : Directive)
  | documentStart
  | documentEnd
  | blockSequenceStart
  | blockMappingStart
  | blockEnd
  | flowSequenceStart
  | flowSequenceEnd
  | flowMappingStart
  | flowMappingEnd
  | blockEntry
  | flowEntry
  | key
  | value
  /-- An anchored node again. -/
  | reference (name : String)
  | anchor (name : String)
  | tag (written : WrittenTag)
  | scalar (text : String) (plain : Bool)

/-- A place where a key may have begun. -/
structure KeyPlace where
  /-- Whether a key has to stand there. -/
  required : Bool
  /-- The number of tokens before it. -/
  position : Nat
  line : Nat
  column : Nat

/-- How many characters a key without question mark may have. -/
def maxKeyLength : Nat := 1024

/-- The state between two tokens. -/
structure Scanner where
  /-- The tokens so far, the last one first. -/
  tokens : List Token
  /-- The indentation of the innermost block collection, -1 outside of all. -/
  indent : Int
  /-- The indentations around it, innermost first. -/
  outer : List Int
  /-- For each open bracket or brace, innermost first, and for the block around them, where a key may
      have begun. -/
  keys : List (Option KeyPlace)
  /-- Whether a key may begin here. -/
  keyAllowed : Bool

namespace Scanner

def initial : Scanner := ⟨[], -1, [], [none], true⟩

def inFlow (s : Scanner) : Bool := 1 < s.keys.length

def push (s : Scanner) (t : Token) : Scanner := { s with tokens := t :: s.tokens }

def allowKey (s : Scanner) (allowed : Bool) : Scanner := { s with keyAllowed := allowed }

/-! ### Keys -/

/-- The place where a key of the innermost level may have begun. -/
def key? (s : Scanner) : Option KeyPlace := s.keys.head?.join

/-- Sets the place where a key of the innermost level may have begun. -/
def setKey (s : Scanner) (place : Option KeyPlace) : Scanner := { s with keys := place :: s.keys.drop 1 }

/-- Forgets the place of a key that did not come, unless it had to. -/
def dropKey (s : Scanner) : Option Scanner :=
  if s.key?.any (·.required) then none else some (s.setKey none)

/-- Notes that a key may begin at `c`. -/
def noteKey (s : Scanner) (c : Cursor) : Option Scanner :=
  if s.keyAllowed then do
    let s ← s.dropKey
    return s.setKey (some ⟨!s.inFlow && s.indent == (c.column : Int), s.tokens.length, c.line, c.column⟩)
  else some s

/-- Whether the colon of a key would come too late at `c`. -/
def isStale (c : Cursor) (place : KeyPlace) : Bool :=
  place.line < c.line || place.column + maxKeyLength < c.column

/-- Forgets the places of keys whose colon would come too late. -/
def expireKeys (s : Scanner) (c : Cursor) : Option Scanner :=
  if s.keys.any (·.any fun place => isStale c place && place.required) then none
  else some { s with keys := s.keys.map (·.filter (!isStale c ·)) }

/-! ### Indentation -/

/-- Opens a block collection at `column` if that is further right than the ones around it. The token
    stands before the last `back` tokens. -/
def roll (s : Scanner) (column back : Nat) (start : Token) : Scanner :=
  if !s.inFlow && s.indent < (column : Int) then
    { s with
      tokens := s.tokens.take back ++ start :: s.tokens.drop back, indent := column, outer := s.indent :: s.outer }
  else s

/-- Closes the block collections to the right of `column`, whose surroundings are given innermost first. -/
def unrollFrom (s : Scanner) (column : Int) : List Int → Scanner
  | [] => s
  | before :: outer =>
    if column < s.indent then
      unrollFrom { s with tokens := .blockEnd :: s.tokens, indent := before, outer := outer } column outer
    else s

/-- Closes the block collections to the right of `column`. -/
def unroll (s : Scanner) (column : Int) : Scanner := if s.inFlow then s else s.unrollFrom column s.outer

/-! ### Single tokens -/

/-- Closes everything before a mark at the level of documents. -/
def closeBlocks (s : Scanner) : Option Scanner := do
  let s ← (s.unroll (-1)).dropKey
  return s.allowKey false

/-- A directive, after its `%`. -/
def directive (s : Scanner) (rest : List Char) : Option (Scanner × List Char) := do
  let s ← s.closeBlocks
  let (d, rest) ← directive? rest
  let rest ← endOfLine? rest
  return (s.push (.directive d), rest)

def openFlow (s : Scanner) (c : Cursor) (t : Token) : Option Scanner := do
  let s ← s.noteKey c
  return ({ s with keys := none :: s.keys, keyAllowed := true }).push t

def closeFlow (s : Scanner) (t : Token) : Option Scanner := do
  let s ← s.dropKey
  let keys := if s.inFlow then s.keys.drop 1 else s.keys
  return ({ s with keys, keyAllowed := false }).push t

def flowEntry (s : Scanner) : Option Scanner := do
  let s ← s.dropKey
  return (s.allowKey true).push .flowEntry

def blockEntry (s : Scanner) (c : Cursor) : Option Scanner :=
  if !s.inFlow && !s.keyAllowed then none
  else do
    let s ← (s.roll c.column 0 .blockSequenceStart).dropKey
    return (s.allowKey true).push .blockEntry

/-- A question mark before a key. -/
def explicitKey (s : Scanner) (c : Cursor) : Option Scanner :=
  if !s.inFlow && !s.keyAllowed then none
  else do
    let s ← (s.roll c.column 0 .blockMappingStart).dropKey
    return (s.allowKey (!s.inFlow)).push .key

def value (s : Scanner) (c : Cursor) : Option Scanner :=
  match s.key? with
  | some place =>
    let back := s.tokens.length - place.position
    let s := { s with tokens := s.tokens.take back ++ Token.key :: s.tokens.drop back }
    some ((((s.roll place.column (back + 1) .blockMappingStart).setKey none).allowKey false).push .value)
  | none =>
    if !s.inFlow && !s.keyAllowed then none
    else some (((s.roll c.column 0 .blockMappingStart).allowKey (!s.inFlow)).push .value)

/-- What may follow the name of an anchor. -/
def endsName : List Char → Bool
  | [] => true
  | c :: _ => isGap c || ['?', ':', ',', ']', '\x7d', '%', '@', '\x60'].contains c

/-- An anchor or a reference to one, after its mark. -/
def anchor (s : Scanner) (c : Cursor) (token : String → Token) (rest : List Char) : Option (Scanner × List Char) := do
  let s ← s.noteKey c
  let name := rest.takeWhile isWord
  let rest := rest.dropWhile isWord
  if name = [] || !endsName rest then none
  else return ((s.allowKey false).push (token (String.ofList name)), rest)

def tag (s : Scanner) (c : Cursor) : Option (Scanner × List Char) := do
  let s ← s.noteKey c
  let (written, rest) ← tag? s.inFlow c.rest
  return ((s.allowKey false).push (.tag written), rest)

def blockScalar (s : Scanner) (literal : Bool) (rest : List Char) : Option (Scanner × List Char) := do
  let s ← s.dropKey
  let (text, rest) ← blockScalar? literal s.indent rest
  return ((s.allowKey true).push (.scalar (String.ofList text) false), rest)

def quotedScalar (s : Scanner) (c : Cursor) (quote : Char) (rest : List Char) : Option (Scanner × List Char) := do
  let s ← s.noteKey c
  let (text, rest) ← quotedBody quote false rest
  return ((s.allowKey false).push (.scalar (String.ofList text) false), rest)

/-- A plain scalar. A line break after it allows a key again. -/
def plainScalar (s : Scanner) (c : Cursor) : Option (Scanner × List Char) := do
  let s ← s.noteKey c
  let plain ← plain? s.inFlow (s.indent + 1) c.column c.rest
  return ((s.allowKey plain.broken).push (.scalar (String.ofList plain.text) true), plain.rest)

/-- The characters that no plain scalar begins with, three of them unless more text follows. -/
def isIndicator (c : Char) : Bool :=
  ['-', '?', ':', ',', '[', ']', '\x7b', '\x7d', '#', '&', '*', '!', '|', '>', '\x27', '\x22', '%', '@',
    '\x60'].contains c

/-- Whether a plain scalar begins with `x`, which `rest` follows. -/
def startsPlain (inFlow : Bool) (x : Char) (rest : List Char) : Bool :=
  !(isGap x || isIndicator x) || (x == '-' && !(rest.head?.any isBlank)) ||
    (!inFlow && (x == '?' || x == ':') && !startsGap rest)

/-- Takes one token at `c`, which begins with `x`. -/
def token (s : Scanner) (c : Cursor) (x : Char) (rest : List Char) : Option (Scanner × List Char) :=
  let follows := fun (s' : Option Scanner) => s'.map fun s' => (s', rest)
  if c.column = 0 && x = '%' then s.directive rest
  else if c.column = 0 && startsWithMark '-' c.rest then
    s.closeBlocks.map fun s => (s.push .documentStart, c.rest.drop 3)
  else if c.column = 0 && startsWithMark '.' c.rest then
    s.closeBlocks.map fun s => (s.push .documentEnd, c.rest.drop 3)
  else if x = '[' then follows (s.openFlow c .flowSequenceStart)
  else if x = '\x7b' then follows (s.openFlow c .flowMappingStart)
  else if x = ']' then follows (s.closeFlow .flowSequenceEnd)
  else if x = '\x7d' then follows (s.closeFlow .flowMappingEnd)
  else if x = ',' then follows s.flowEntry
  else if x = '-' && startsGap rest then follows (s.blockEntry c)
  else if x = '?' && (s.inFlow || startsGap rest) then follows (s.explicitKey c)
  else if x = ':' && (s.inFlow || startsGap rest) then follows (s.value c)
  else if x = '*' then s.anchor c .reference rest
  else if x = '&' then s.anchor c .anchor rest
  else if x = '!' then s.tag c
  else if x = '|' && !s.inFlow then s.blockScalar true rest
  else if x = '>' && !s.inFlow then s.blockScalar false rest
  else if x = '\x27' || x = '\x22' then s.quotedScalar c x rest
  else if startsPlain s.inFlow x rest then s.plainScalar c
  else none

/-! ### The whole text -/

/-- Passes over blanks, comments and line breaks. A tab is a blank only where no key may begin. A line
    break allows a key outside of brackets and braces. -/
def skipToToken (inFlow : Bool) : Bool → Bool → List Char → List Char × Bool
  | allowed, _, [] => ([], allowed)
  | allowed, inComment, c :: rest =>
    if isBreak c then skipToToken inFlow (allowed || !inFlow) false rest
    else if inComment || c = '#' then skipToToken inFlow allowed true rest
    else if c = ' ' || (c = '\t' && (inFlow || !allowed)) then skipToToken inFlow allowed false rest
    else (c :: rest, allowed)

/-- Takes at most `fuel` tokens. -/
def scanUpTo : Nat → Scanner → Cursor → Option (List Token)
  | 0, _, _ => none
  | fuel + 1, s, c => do
    let (rest, allowed) := skipToToken s.inFlow s.keyAllowed false c.rest
    let c := c.moveTo rest
    let s ← (s.allowKey allowed).expireKeys c
    let s := s.unroll c.column
    match rest with
    | [] =>
      let s ← s.closeBlocks
      return s.tokens.reverse
    | x :: more =>
      let (s, rest) ← s.token c x more
      scanUpTo fuel s (c.moveTo rest)

end Scanner

def tokens? (text : String) : Option (List Token) :=
  let cs := text.toList
  if cs.all isAdmissible then
    let cs := unifyBreaks cs
    Scanner.initial.scanUpTo (cs.length + 1) ⟨cs, 0, 0⟩
  else none

end StageLineage.Yaml
