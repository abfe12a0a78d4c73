import StageLineage.Json.Reader
import StageLineage.Yaml.Tag

/-! What a scalar stands for. A plain scalar is null, a truth value, an integer or a floating-point
    number if it is written like one, and else a text. -/

namespace StageLineage.Yaml

/-! ### Integers -/

/-- A number after a mark for its base. -/
def basedNumber? : List Char → Option Nat
  | '0' :: 'x' :: digits => Digits.value? 16 digits
  | '0' :: 'o' :: digits => Digits.value? 8 digits
  | '0' :: 'b' :: digits => Digits.value? 2 digits
  | _ => none

def hasLeadingZero (digits : List Char) : Bool :=
  1 < digits.length && digits.head? == some '0' && digits.all Char.isDigit

/-- A number, to base ten if no base is given; ten allows no leading zero. -/
def magnitude? (cs : List Char) : Option Nat :=
  match basedNumber? cs with
  | some n => some n
  | none => if hasLeadingZero cs then none else Digits.value? 10 cs

/-- The integer that a text is written like. -/
def integerOf? : List Char → Option Int
  | '-' :: cs => (magnitude? cs).map fun n => -(n : Int)
  | '+' :: cs => (magnitude? cs).map fun n => (n : Int)
  | cs => (magnitude? cs).map fun n => (n : Int)

/-- Whether an integer fits into 128 bits. -/
def isWide (n : Int) : Bool := -(Nat.pow 2 127 : Nat) ≤ n && n < (Nat.pow 2 128 : Nat)

/-! ### Floating-point numbers -/

/-- A decimal with an optional point and an optional exponent. -/
def decimalOf? (negative : Bool) (cs : List Char) : Option Binary64 := do
  let whole := cs.takeWhile Char.isDigit
  let rest := cs.dropWhile Char.isDigit
  let (fraction, rest) := match rest with
    | '.' :: rest => (rest.takeWhile Char.isDigit, rest.dropWhile Char.isDigit)
    | rest => ([], rest)
  if whole = [] && fraction = [] then none
  let (exponent, rest) ← Json.exponent? rest
  if rest ≠ [] then none
  Binary64.ofDecimal negative (Json.digitsValue (whole ++ fraction)) (exponent.getD 0 - (fraction.length : Int))

/-- A floating-point number; null stands for one that is not finite. -/
def floatOf? (cs : List Char) : Option Json :=
  let spelled := fun (names : List String) (cs : List Char) => names.contains (String.ofList cs)
  let infinite := spelled [".inf", ".Inf", ".INF"]
  let finite := fun negative cs => (decimalOf? negative cs).map fun x => Json.number (.float x)
  if spelled [".nan", ".NaN", ".NAN"] cs then some .null
  else
    match cs with
    | '-' :: cs => if infinite cs then some .null else finite true cs
    | '+' :: cs => if infinite cs then some .null else finite false cs
    | cs => if infinite cs then some .null else finite false cs

/-! ### Scalars -/

def isNull (text : String) : Bool := ["null", "Null", "NULL", "~"].contains text

def boolOf? (text : String) : Option Bool :=
  if ["true", "True", "TRUE"].contains text then some true
  else if ["false", "False", "FALSE"].contains text then some false
  else none

/-- The value of an integer: one of more than 64 bits is refused. -/
def integerValue? (n : Int) : Option Json :=
  if Json.minInteger ≤ n && n ≤ Json.maxInteger then some (.number (.integer n)) else none

def plainValue? (text : String) : Option Json :=
  let cs := text.toList
  let digits := match cs with | '-' :: digits | '+' :: digits => digits | digits => digits
  if text.isEmpty || isNull text then some .null
  else
    match boolOf? text, (integerOf? cs).filter isWide with
    | some b, _ => some (.bool b)
    | none, some n => integerValue? n
    | none, none =>
      if hasLeadingZero digits then some (.string text)
      else some ((floatOf? cs).getD (.string text))

def scalarValue? (tag : Tag) (text : String) (plain : Bool) : Option Json :=
  match tag with
  | .custom => none
  | .boolean => (boolOf? text).map .bool
  | .integer => ((integerOf? text.toList).filter isWide).bind integerValue?
  | .float => floatOf? text.toList
  | .null => if isNull text then some .null else none
  | .other => some (.string text)
  | .none => if plain then plainValue? text else some (.string text)

end StageLineage.Yaml
