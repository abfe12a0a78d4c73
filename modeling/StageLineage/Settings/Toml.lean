import StageLineage.Number.Digits

/-! Flat TOML documents: lines of a key and a text, an integer or a truth value. Tables, arrays, dates
    and floating-point numbers are refused, since no setting takes one. -/

namespace StageLineage.Toml

inductive Value where
  | string (text : String)
  | integer (value : Int)
  | boolean (value : Bool)

/-! ### Characters -/

/-- Whether a character may stand in a document. -/
def isAdmissible (c : Char) : Bool := c == '\t' || c == '\n' || (0x20 ≤ c.toNat && c.toNat != 0x7f)

/-- Writes each line end as a newline. -/
def unifyLineEnds : List Char → List Char
  | [] => []
  | '\r' :: '\n' :: rest => '\n' :: unifyLineEnds rest
  | c :: rest => c :: unifyLineEnds rest

def isBlank (c : Char) : Bool := c == ' ' || c == '\t'

def isKeyChar (c : Char) : Bool := c.isAlphanum || c == '_' || c == '-'

/-! ### Strings -/

/-- The character that a one-letter escape stands for. -/
def escaped? : Char → Option Char
  | 'b' => some '\x08'
  | 't' => some '\t'
  | 'n' => some '\n'
  | 'f' => some '\x0c'
  | 'r' => some '\r'
  | '\x22' => some '\x22'
  | '\\' => some '\\'
  | _ => none

/-- How many digits follow the letter of a numeric escape. -/
def escapeWidth? : Char → Option Nat
  | 'u' => some 4
  | 'U' => some 8
  | _ => none

/-- The character with a code point given by exactly `width` digits. -/
def numericEscape? (width : Nat) (cs : List Char) : Option Char := do
  let digits := cs.take width
  if digits.length ≠ width then none
  let n ← Digits.value? 16 digits
  if h : n.isValidChar then some (Char.ofNatAux n h) else none

/-- Reads an escape after its backslash: the character and how many characters it takes. -/
def escape? : List Char → Option (Char × Nat)
  | [] => none
  | e :: rest =>
    match escaped? e, escapeWidth? e with
    | some c, _ => some (c, 1)
    | none, some width => (numericEscape? width rest).map fun c => (c, width + 1)
    | none, none => none

/-- Reads a string of one line after its opening quote. -/
def lineString (escapes : Bool) (quote : Char) (cs : List Char) : Option (List Char × List Char) :=
  match cs with
  | [] => none
  | c :: rest =>
    if c = quote then some ([], rest)
    else if c = '\n' then none
    else if escapes && c = '\\' then
      match escape? rest with
      | none => none
      | some (x, taken) => (lineString escapes quote (rest.drop taken)).map fun r => (x :: r.1, r.2)
    else (lineString escapes quote rest).map fun r => (c :: r.1, r.2)
termination_by cs.length
decreasing_by
  · simp only [List.length_drop, List.length_cons]; omega
  · simp

/-- Reads a string of many lines after its opening quotes. Of three to five quotes in a row the last
    three end it; `seen` quotes stand right before. A backslash at the end of a line takes the line end
    and the blanks after it away. -/
def textString (escapes : Bool) (quote : Char) (seen : Nat) (cs : List Char) : Option (List Char × List Char) :=
  match cs with
  | [] => if 3 ≤ seen && seen ≤ 5 then some (List.replicate (seen - 3) quote, []) else none
  | c :: rest =>
    if c = quote then textString escapes quote (seen + 1) rest
    else if 3 ≤ seen then
      if seen ≤ 5 then some (List.replicate (seen - 3) quote, c :: rest) else none
    else
      let before := List.replicate seen quote
      if escapes && c = '\\' then
        if (rest.dropWhile isBlank).head? = some '\n' then
          (textString escapes quote 0 (rest.dropWhile fun x => isBlank x || x == '\n')).map fun r =>
            (before ++ r.1, r.2)
        else
          match escape? rest with
          | none => none
          | some (x, taken) => (textString escapes quote 0 (rest.drop taken)).map fun r => (before ++ x :: r.1, r.2)
      else (textString escapes quote 0 rest).map fun r => (before ++ c :: r.1, r.2)
termination_by cs.length
decreasing_by
  · simp
  · have := (List.dropWhile_sublist (fun x => isBlank x || x == '\n') (l := rest)).length_le
    simp only [List.length_cons]; omega
  · simp only [List.length_drop, List.length_cons]; omega
  · simp

/-- The text after a newline that stands right at its beginning. -/
def dropNewline : List Char → List Char
  | '\n' :: rest => rest
  | cs => cs

def string? : List Char → Option (String × List Char)
  | '\x22' :: '\x22' :: '\x22' :: rest => shown (textString true '\x22' 0 (dropNewline rest))
  | '\x27' :: '\x27' :: '\x27' :: rest => shown (textString false '\x27' 0 (dropNewline rest))
  | '\x22' :: rest => shown (lineString true '\x22' rest)
  | '\x27' :: rest => shown (lineString false '\x27' rest)
  | _ => none
where
  /-- The characters as a text. -/
  shown (read : Option (List Char × List Char)) : Option (String × List Char) :=
    read.map fun r => (String.ofList r.1, r.2)

/-! ### Integers -/

/-- Digits without the underscores between them; each underscore needs a digit on both sides. -/
def plainDigits? (cs : List Char) : Option (List Char) :=
  let separated := (cs.zip (cs.drop 1)).any fun p => p.1 == '_' && p.2 == '_'
  if separated || cs.head? == some '_' || cs.getLast? == some '_' then none else some (cs.filter (· != '_'))

def maxInteger : Nat := 9223372036854775807

/-- A number without sign that is at most `limit`. -/
def naturalUpTo? (limit base : Nat) (cs : List Char) : Option Nat :=
  ((plainDigits? cs).bind (Digits.value? base)).filter (· ≤ limit)

/-- A decimal number; a zero stands only alone at its beginning. -/
def decimal? (limit : Nat) (cs : List Char) : Option Nat :=
  if cs.head? == some '0' && cs.length != 1 then none else naturalUpTo? limit 10 cs

/-- The integer that a word is written like. -/
def integer? : List Char → Option Int
  | '0' :: 'x' :: digits => (naturalUpTo? maxInteger 16 digits).map Int.ofNat
  | '0' :: 'o' :: digits => (naturalUpTo? maxInteger 8 digits).map Int.ofNat
  | '0' :: 'b' :: digits => (naturalUpTo? maxInteger 2 digits).map Int.ofNat
  | '+' :: digits => (decimal? maxInteger digits).map Int.ofNat
  | '-' :: digits => (decimal? (maxInteger + 1) digits).map fun n => -(n : Int)
  | digits => (decimal? maxInteger digits).map Int.ofNat

/-! ### Documents -/

def value? (cs : List Char) : Option (Value × List Char) :=
  match string? cs with
  | some (text, rest) => some (.string text, rest)
  | none =>
    let isWord := fun c => !isBlank c && c != '\n' && c != '#'
    let word := cs.takeWhile isWord
    let rest := cs.dropWhile isWord
    if word = ['t', 'r', 'u', 'e'] then some (.boolean true, rest)
    else if word = ['f', 'a', 'l', 's', 'e'] then some (.boolean false, rest)
    else (integer? word).map fun n => (.integer n, rest)

def key? (cs : List Char) : Option (String × List Char) :=
  match cs with
  | '\x22' :: rest => (lineString true '\x22' rest).map fun r => (String.ofList r.1, r.2)
  | '\x27' :: rest => (lineString false '\x27' rest).map fun r => (String.ofList r.1, r.2)
  | cs =>
    let word := cs.takeWhile isKeyChar
    if word = [] then none else some (String.ofList word, cs.dropWhile isKeyChar)

/-- Passes over blanks and a comment to the next line. -/
def nextLine? (cs : List Char) : Option (List Char) :=
  let cs := cs.dropWhile isBlank
  let cs := if cs.head? = some '#' then cs.dropWhile (· != '\n') else cs
  match cs with
  | [] => some []
  | '\n' :: rest => some rest
  | _ => none

def field? (cs : List Char) : Option ((String × Value) × List Char) := do
  let (key, rest) ← key? cs
  match rest.dropWhile isBlank with
  | '=' :: rest =>
    let (value, rest) ← value? (rest.dropWhile isBlank)
    return ((key, value), ← nextLine? rest)
  | _ => none

/-- Reads at most `fuel` lines. -/
def fieldsUpTo : Nat → List Char → Option (List (String × Value))
  | _, [] => some []
  | 0, _ => none
  | fuel + 1, cs =>
    match nextLine? cs with
    | some rest => fieldsUpTo fuel rest
    | none => do
      let (field, rest) ← field? (cs.dropWhile isBlank)
      return field :: (← fieldsUpTo fuel rest)

/-- The fields of a document, whose keys are all different. -/
def parse? (text : String) : Option (List (String × Value)) := do
  let cs := unifyLineEnds text.toList
  let cs := if cs.head? = some '\ufeff' then cs.drop 1 else cs
  if !cs.all isAdmissible then none
  let fields ← fieldsUpTo (cs.length + 1) cs
  if (fields.map (·.1)).Nodup then return fields else none

end StageLineage.Toml
