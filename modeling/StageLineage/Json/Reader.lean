import StageLineage.Json.Value
import StageLineage.Number.Digits

/-! Reading JSON text. The grammar is strict: no comments, no trailing commas, no leading zeros, no
    control characters in strings. A value nests at most `maxDepth` containers, a surrogate escape
    needs its partner, and a number beyond the greatest floating-point number is refused. -/

namespace StageLineage.Json

/-- A reader takes a value from the front of a text and returns what follows it. -/
abbrev Reader (α : Type) := List Char → Option (α × List Char)

/-- How many containers a value may nest. -/
def maxDepth : Nat := 127

/-- The four blanks of JSON. -/
def isBlank (c : Char) : Bool := c == ' ' || c == '\t' || c == '\n' || c == '\r'

def skipBlanks (cs : List Char) : List Char := cs.dropWhile isBlank

/-! ### Strings -/

def ofSurrogates (high low : Nat) : Char :=
  Char.ofNat (0x10000 + (high - 0xd800) * 0x400 + (low - 0xdc00))

/-- Reads the low surrogate that has to follow `high`. -/
def lowSurrogate? (high : Nat) : Reader Char
  | '\\' :: 'u' :: a :: b :: c :: d :: rest =>
    match Digits.value? 16 [a, b, c, d] with
    | some low => if 0xdc00 ≤ low && low < 0xe000 then some (ofSurrogates high low, rest) else none
    | none => none
  | _ => none

/-- Reads an escape after its backslash. If `checked` is false, surrogates need no partner and stand
    for the replacement character. -/
def escape? (checked : Bool) : Reader Char
  | '\x22' :: rest => some ('\x22', rest)
  | '\\' :: rest => some ('\\', rest)
  | '/' :: rest => some ('/', rest)
  | 'b' :: rest => some ('\x08', rest)
  | 'f' :: rest => some ('\x0c', rest)
  | 'n' :: rest => some ('\n', rest)
  | 'r' :: rest => some ('\r', rest)
  | 't' :: rest => some ('\t', rest)
  | 'u' :: a :: b :: c :: d :: rest =>
    match Digits.value? 16 [a, b, c, d] with
    | none => none
    | some u =>
      if u < 0xd800 || 0xe000 ≤ u then some (Char.ofNat u, rest)
      else if !checked then some ('\ufffd', rest)
      else if u < 0xdc00 then lowSurrogate? u rest
      else none
  | _ => none

theorem lowSurrogate?_length {high : Nat} {cs rest : List Char} {c : Char}
    (h : lowSurrogate? high cs = some (c, rest)) : rest.length < cs.length := by
  unfold lowSurrogate? at h
  split at h
  · split at h
    · split at h
      · obtain ⟨-, rfl⟩ := Prod.mk.inj (Option.some.inj h)
        simp only [List.length_cons]; omega
      · simp at h
    · simp at h
  · simp at h

theorem escape?_length {checked : Bool} {cs rest : List Char} {c : Char}
    (h : escape? checked cs = some (c, rest)) : rest.length < cs.length := by
  unfold escape? at h
  split at h
  case h_9 =>
    split at h
    · simp at h
    · split at h
      · obtain ⟨-, rfl⟩ := Prod.mk.inj (Option.some.inj h)
        simp only [List.length_cons]; omega
      · split at h
        · obtain ⟨-, rfl⟩ := Prod.mk.inj (Option.some.inj h)
          simp only [List.length_cons]; omega
        · split at h
          · have := lowSurrogate?_length h
            simp only [List.length_cons]; omega
          · simp at h
  case h_10 => simp at h
  all_goals
    obtain ⟨-, rfl⟩ := Prod.mk.inj (Option.some.inj h)
    simp

/-- Reads a string after its opening quote. -/
def stringBody (checked : Bool) (cs : List Char) : Option (List Char × List Char) :=
  match cs with
  | [] => none
  | c :: rest =>
    if c = '\x22' then some ([], rest)
    else if c = '\\' then
      match _taken : escape? checked rest with
      | none => none
      | some (e, after) => (stringBody checked after).map fun r => (e :: r.1, r.2)
    else if c.toNat < 0x20 then none
    else (stringBody checked rest).map fun r => (c :: r.1, r.2)
termination_by cs.length
decreasing_by
  · have := escape?_length _taken
    simp only [List.length_cons]; omega
  · simp

def string? (checked : Bool) : Reader String := fun cs =>
  match skipBlanks cs with
  | '\x22' :: rest => (stringBody checked rest).map fun r => (String.ofList r.1, r.2)
  | _ => none

/-! ### Numbers -/

def digitsValue (digits : List Char) : Nat := digits.foldl (fun n c => 10 * n + (c.toNat - 48)) 0

def fraction? : Reader (Option (List Char))
  | '.' :: rest =>
    let (digits, rest) := rest.span Char.isDigit
    if digits = [] then none else some (some digits, rest)
  | cs => some (none, cs)

def exponentDigits? (negative : Bool) : Reader (Option Int) := fun cs =>
  let (digits, rest) := cs.span Char.isDigit
  if digits = [] then none
  else some (some (if negative then -(digitsValue digits : Int) else digitsValue digits), rest)

def exponent? : Reader (Option Int)
  | c :: rest =>
    if c = 'e' || c = 'E' then
      match rest with
      | '+' :: rest => exponentDigits? false rest
      | '-' :: rest => exponentDigits? true rest
      | rest => exponentDigits? false rest
    else some (none, c :: rest)
  | [] => some (none, [])

/-- Adds digits to `n` as long as 64 bits hold the sum, and returns the digits from there on. -/
def significand (n : Nat) : List Char → Nat × List Char
  | [] => (n, [])
  | c :: cs =>
    let next := 10 * n + (c.toNat - 48)
    if (next : Int) ≤ maxInteger then significand next cs else (n, c :: cs)

/-- The floating-point number with the given digits before and after the point. Of digits that 64 bits cannot hold,
    those before the point count as powers of ten and those after it not at all. -/
def floatOf (negative : Bool) (whole part : List Char) (exponent : Int) : Option Binary64 :=
  let (n, dropped) := significand 0 whole
  let (n, ignored) := significand n part
  Binary64.ofScaled negative n (exponent + dropped.length - (part.length - ignored.length : Nat))

/-- The number with the given parts. An integer out of range and minus zero are floating-point. -/
def numberOf (negative : Bool) (whole : List Char) (fraction : Option (List Char)) (exponent : Option Int) :
    Option Number :=
  match fraction, exponent with
  | none, none =>
    let n : Int := if negative then -(digitsValue whole : Int) else digitsValue whole
    if negative && n = 0 then some (.float (.zero true))
    else if minInteger ≤ n && n ≤ maxInteger then some (.integer n)
    else (floatOf negative whole [] 0).map .float
  | _, _ => (floatOf negative whole (fraction.getD []) (exponent.getD 0)).map .float

/-- Reads a number after its sign. If `checked` is false its size does not matter. -/
def unsigned? (checked negative : Bool) : Reader Number := fun cs =>
  let (whole, rest) := cs.span Char.isDigit
  if whole = [] || (whole.head? == some '0' && whole.length != 1) then none
  else do
    let (fraction, rest) ← fraction? rest
    let (exponent, rest) ← exponent? rest
    if checked then
      let n ← numberOf negative whole fraction exponent
      return (n, rest)
    else return (.integer 0, rest)

/-! ### Containers -/

/-- Reads at most `fuel` items up to the closing bracket; the first item is not missing. -/
def itemsUpTo {α : Type} (item : Reader α) : Nat → Reader (List α)
  | 0, _ => none
  | fuel + 1, cs =>
    match item cs with
    | none => none
    | some (x, rest) =>
      match skipBlanks rest with
      | ',' :: rest => (itemsUpTo item fuel rest).map fun r => (x :: r.1, r.2)
      | ']' :: rest => some ([x], rest)
      | _ => none

/-- Reads the items of an array after its opening bracket. -/
def items {α : Type} (item : Reader α) : Reader (List α) := fun cs =>
  match skipBlanks cs with
  | ']' :: rest => some ([], rest)
  | cs => itemsUpTo item cs.length cs

/-- Reads at most `fuel` fields up to the closing brace; the first field is not missing. -/
def fieldsUpTo {α : Type} (checked : Bool) (item : String → Reader α) : Nat → Reader (List (String × α))
  | 0, _ => none
  | fuel + 1, cs =>
    match string? checked cs with
    | none => none
    | some (key, rest) =>
      match skipBlanks rest with
      | ':' :: rest =>
        match item key rest with
        | none => none
        | some (x, rest) =>
          match skipBlanks rest with
          | ',' :: rest => (fieldsUpTo checked item fuel rest).map fun r => ((key, x) :: r.1, r.2)
          | '\x7d' :: rest => some ([(key, x)], rest)
          | _ => none
      | _ => none

/-- Reads the fields of an object after its opening brace; the value reader may depend on the key. -/
def fields {α : Type} (checked : Bool) (item : String → Reader α) : Reader (List (String × α)) := fun cs =>
  match skipBlanks cs with
  | '\x7d' :: rest => some ([], rest)
  | cs => fieldsUpTo checked item cs.length cs

/-- Reads a value that nests at most `depth` containers. If `checked` is false only the form of its
    strings and numbers matters. -/
def value? (checked : Bool) (depth : Nat) : Reader Json := fun cs =>
  match depth, skipBlanks cs with
  | _, 'n' :: 'u' :: 'l' :: 'l' :: rest => some (null, rest)
  | _, 't' :: 'r' :: 'u' :: 'e' :: rest => some (bool true, rest)
  | _, 'f' :: 'a' :: 'l' :: 's' :: 'e' :: rest => some (bool false, rest)
  | _, '\x22' :: rest => (stringBody checked rest).map fun r => (string (String.ofList r.1), r.2)
  | _, '-' :: rest => (unsigned? checked true rest).map fun r => (number r.1, r.2)
  | depth + 1, '[' :: rest => (items (value? checked depth) rest).map fun r => (array r.1, r.2)
  | depth + 1, '\x7b' :: rest =>
    (fields checked (fun _ => value? checked depth) rest).map fun r => (object (sortFields r.1), r.2)
  | _, cs => (unsigned? checked false cs).map fun r => (number r.1, r.2)

/-- Passes over a value of any depth whose contents do not matter. -/
def skipValue : Reader Unit := fun cs => (value? false cs.length cs).map fun r => ((), r.2)

/-- What a reader takes from a text that holds nothing else but blanks. -/
def complete {α : Type} (reader : Reader α) (cs : List Char) : Option α :=
  match reader cs with
  | some (x, rest) => if skipBlanks rest = [] then some x else none
  | none => none

def parse? (text : String) : Option Json := complete (value? true maxDepth) text.toList

end StageLineage.Json
