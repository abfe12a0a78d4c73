import StageLineage.Text.Unprintable

/-! Text shown between quotes in messages. A backslash, the quote itself and the usual control
    characters are written with a backslash, every other unprintable character by its code point. -/

namespace StageLineage.Text

/-- How `c` is written between two `quote` characters. -/
def shownChar (quote c : Char) : List Char :=
  if c = '\x00' then ['\\', '0']
  else if c = '\t' then ['\\', 't']
  else if c = '\r' then ['\\', 'r']
  else if c = '\n' then ['\\', 'n']
  else if c = '\\' || c = quote then ['\\', c]
  else if isUnprintable c then "\\u\x7b".toList ++ Nat.toDigits 16 c.toNat ++ ['\x7d']
  else [c]

def quoted (text : String) : String :=
  String.ofList (['\x22'] ++ text.toList.flatMap (shownChar '\x22') ++ ['\x22'])

def quotedChar (c : Char) : String :=
  String.ofList (['\x27'] ++ shownChar '\x27' c ++ ['\x27'])

/-- A list of texts, each quoted, between square brackets. -/
def quotedList (texts : List String) : String :=
  "[" ++ ", ".intercalate (texts.map quoted) ++ "]"

def padRight (width : Nat) (text : String) : String :=
  text ++ String.ofList (List.replicate (width - text.length) ' ')

def padLeft (width : Nat) (text : String) : String :=
  String.ofList (List.replicate (width - text.length) ' ') ++ text

end StageLineage.Text
