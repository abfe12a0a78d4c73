/-! The characters of YAML and places in a text. Carriage returns and next-line characters are turned
    into newlines beforehand, so that every line break is one character. -/

namespace StageLineage.Yaml

/-! ### Characters -/

/-- Whether a character may stand in a text at all. -/
def isAdmissible (c : Char) : Bool :=
  let n := c.toNat
  n == 0x09 || n == 0x0a || n == 0x0d || (0x20 ≤ n && n ≤ 0x7e) || n == 0x85 || (0xa0 ≤ n && n ≤ 0xd7ff) ||
    (0xe000 ≤ n && n ≤ 0xfffd && n != 0xfeff) || 0x10000 ≤ n

/-- Writes the line breaks that are read as a newline as one. -/
def unifyBreaks : List Char → List Char
  | [] => []
  | '\r' :: '\n' :: rest => '\n' :: unifyBreaks rest
  | c :: rest => (if c = '\r' || c = '\u0085' then '\n' else c) :: unifyBreaks rest

def isBreak (c : Char) : Bool := c == '\n' || c == '\u2028' || c == '\u2029'

/-- A blank within a line. -/
def isBlank (c : Char) : Bool := c == ' ' || c == '\t'

def isGap (c : Char) : Bool := isBlank c || isBreak c

def isWord (c : Char) : Bool := c.isAlphanum || c == '_' || c == '-'

/-- A character that ends plain text inside brackets or braces. -/
def isFlowMark (c : Char) : Bool := c == ',' || c == '[' || c == ']' || c == '\x7b' || c == '\x7d'

/-- Whether a text is at its end or goes on with a gap. -/
def startsGap : List Char → Bool
  | [] => true
  | c :: _ => isGap c

/-- Whether a line begins with three times `mark` and a gap. -/
def startsWithMark (mark : Char) : List Char → Bool
  | a :: b :: c :: rest => a == mark && b == mark && c == mark && startsGap rest
  | _ => false

/-- Whether a line begins with a mark between documents. -/
def startsWithDocumentMark (cs : List Char) : Bool := startsWithMark '-' cs || startsWithMark '.' cs

/-! ### Places -/

/-- A place in a text: what follows it, its line and its column. -/
structure Cursor where
  rest : List Char
  line : Nat
  column : Nat

namespace Cursor

/-- The place after one more character. -/
def step (c : Cursor) (x : Char) : Cursor :=
  if isBreak x then ⟨c.rest.tail, c.line + 1, 0⟩ else ⟨c.rest.tail, c.line, c.column + 1⟩

/-- The place that is followed by `rest`, an end of what follows `c`. -/
def moveTo (c : Cursor) (rest : List Char) : Cursor :=
  (c.rest.take (c.rest.length - rest.length)).foldl step c

end Cursor

/-! ### Gaps between words -/

/-- What a run of blanks and line breaks inside a scalar stands for: blanks stand for themselves, a
    newline alone for a space, and of more line breaks the first, if it is a newline, is dropped. -/
def foldedGap (run : List Char) : List Char :=
  match run.filter isBreak with
  | [] => run
  | ['\n'] => [' ']
  | '\n' :: more => more
  | breaks => breaks

/-- The column after a run that starts in `column`. -/
def columnAfter (column : Nat) (run : List Char) : Nat :=
  run.foldl (fun n c => if isBreak c then 0 else n + 1) column

end StageLineage.Yaml
