import StageLineage.Number.Digits
import StageLineage.Yaml.Cursor

/-! Scalars that are written in running text: between single or double quotes, or plain. A line break
    inside is folded into a space. -/

namespace StageLineage.Yaml

/-! ### Quoted scalars -/

/-- The character that a one-letter escape stands for. -/
def escaped? (c : Char) : Option Char :=
  match c with
  | '0' => some '\x00'
  | 'a' => some '\x07'
  | 'b' => some '\x08'
  | 't' | '\t' => some '\t'
  | 'n' => some '\n'
  | 'v' => some '\x0b'
  | 'f' => some '\x0c'
  | 'r' => some '\r'
  | 'e' => some '\x1b'
  | ' ' | '\x22' | '/' | '\\' => some c
  | 'N' => some '\u0085'
  | '_' => some '\u00a0'
  | 'L' => some '\u2028'
  | 'P' => some '\u2029'
  | _ => none

/-- How many digits follow the letter of a numeric escape. -/
def escapeWidth? : Char → Option Nat
  | 'x' => some 2
  | 'u' => some 4
  | 'U' => some 8
  | _ => none

def charOf? (n : Nat) : Option Char := if h : n.isValidChar then some (Char.ofNatAux n h) else none

/-- The character of a numeric escape with `width` digits. -/
def numericEscape? (width : Nat) (cs : List Char) : Option Char :=
  let digits := cs.take width
  if digits.length = width then (Digits.value? 16 digits).bind charOf? else none

/-- Reads a quoted scalar after its opening quote. -/
def quotedBody (quote : Char) (lineStart : Bool) (cs : List Char) : Option (List Char × List Char) :=
  match cs with
  | [] => none
  | c :: rest =>
    if lineStart && startsWithDocumentMark (c :: rest) then none
    else if c = quote then
      match rest with
      | '\x27' :: after => if quote = '\x27' then add '\x27' (quotedBody quote false after) else some ([], rest)
      | _ => some ([], rest)
    else if c = '\\' && quote = '\x22' then
      match rest with
      | [] => none
      | e :: after =>
        if isBreak e then
          let run := after.takeWhile isGap
          (quotedBody quote (columnAfter 0 run == 0) (after.dropWhile isGap)).map fun r =>
            (run.filter isBreak ++ r.1, r.2)
        else
          match escaped? e, escapeWidth? e with
          | some x, _ => add x (quotedBody quote false after)
          | none, some width =>
            match numericEscape? width after with
            | some x => add x (quotedBody quote false (after.drop width))
            | none => none
          | none, none => none
    else if isGap c then
      let run := c :: rest.takeWhile isGap
      (quotedBody quote (columnAfter 1 run == 0) (rest.dropWhile isGap)).map fun r => (foldedGap run ++ r.1, r.2)
    else add c (quotedBody quote false rest)
termination_by cs.length
decreasing_by
  · simp only [List.length_cons]; omega
  · have := (List.dropWhile_sublist isGap (l := after)).length_le
    simp only [List.length_cons]; omega
  · simp only [List.length_cons]; omega
  · simp only [List.length_drop, List.length_cons]; omega
  · have := (List.dropWhile_sublist isGap (l := rest)).length_le
    simp only [List.length_cons]; omega
  · simp
where
  /-- Puts a character before what was read. -/
  add (c : Char) (read : Option (List Char × List Char)) : Option (List Char × List Char) :=
    read.map fun r => (c :: r.1, r.2)

/-! ### Plain scalars -/

/-- Reads plain text up to a gap or to a mark that ends it. Inside brackets or braces a colon may not
    stand right before another mark. -/
def plainWord (inFlow : Bool) : List Char → Option (List Char × List Char)
  | [] => some ([], [])
  | c :: rest =>
    if isGap c then some ([], c :: rest)
    else if inFlow && c = ':' && (rest.head?.any fun n => isFlowMark n || n == '?') then none
    else if (c = ':' && startsGap rest) || (inFlow && isFlowMark c) then some ([], c :: rest)
    else (plainWord inFlow rest).map fun r => (c :: r.1, r.2)

/-- Whether a tab stands before the column `indent` of a line that begins inside the run. -/
def tabBefore (indent : Int) : Bool → Nat → List Char → Bool
  | _, _, [] => false
  | broken, column, c :: rest =>
    if isBreak c then tabBefore indent true 0 rest
    else (broken && c = '\t' && (column : Int) < indent) || tabBefore indent broken (column + 1) rest

/-- A plain scalar, whether a line break follows its last word, and what comes after it. -/
structure PlainText where
  text : List Char
  broken : Bool
  rest : List Char

/-- Reads a plain scalar whose lines begin at `indent` or further right, at most `fuel` words. The text
    `gap` stands before the next word, if there is one. -/
def plainUpTo (inFlow : Bool) (indent : Int) : Nat → Nat → List Char → Bool → List Char → Option PlainText
  | 0, _, _, _, _ => none
  | fuel + 1, column, gap, broken, cs =>
    if (column = 0 && startsWithDocumentMark cs) || cs.head? = some '#' then some ⟨[], broken, cs⟩
    else do
      let (word, rest) ← plainWord inFlow cs
      if word = [] then return ⟨[], broken, cs⟩
      let run := rest.takeWhile isGap
      let column := column + word.length
      if tabBefore indent false column run then none
      let next := columnAfter column run
      let after := rest.dropWhile isGap
      let broken := run.any isBreak
      if run = [] || (!inFlow && (next : Int) < indent) then return ⟨gap ++ word, broken, after⟩
      let more ← plainUpTo inFlow indent fuel next (foldedGap run) broken after
      return { more with text := gap ++ word ++ more.text }

/-- Reads a plain scalar that starts in `column`. -/
def plain? (inFlow : Bool) (indent : Int) (column : Nat) (cs : List Char) : Option PlainText :=
  plainUpTo inFlow indent (cs.length + 1) column [] false cs

end StageLineage.Yaml
