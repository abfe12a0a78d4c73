import StageLineage.Yaml.Cursor

/-! Block scalars: the lines below `|` or `>` that are indented further than what surrounds them. -/

namespace StageLineage.Yaml

/-- What becomes of the line breaks at the end of a block scalar. -/
inductive Chomping where
  | strip
  /-- The first one is kept. -/
  | clip
  | keep
  deriving DecidableEq

/-- What stands behind `|` or `>`. -/
structure BlockHeader where
  chomping : Chomping
  /-- The indentation relative to the surroundings, if it is given. -/
  increment? : Option Nat

def chomping? : List Char → Option (Chomping × List Char)
  | '+' :: rest => some (.keep, rest)
  | '-' :: rest => some (.strip, rest)
  | _ => none

/-- Reads an indentation from 1 to 9; zero is refused. -/
def increment? : List Char → Option (Option Nat × List Char)
  | c :: rest =>
    if c = '0' then none
    else if c.isDigit then some (some (c.toNat - 48), rest)
    else some (none, c :: rest)
  | [] => some (none, [])

/-- Reads the two marks in either order. -/
def blockMarks (cs : List Char) : Option (BlockHeader × List Char) :=
  match chomping? cs with
  | some (chomping, rest) => (increment? rest).map fun r => (⟨chomping, r.1⟩, r.2)
  | none =>
    match increment? cs with
    | none => none
    | some (none, rest) => some (⟨.clip, none⟩, rest)
    | some (some n, rest) =>
      match chomping? rest with
      | some (chomping, rest) => some (⟨chomping, some n⟩, rest)
      | none => some (⟨.clip, some n⟩, rest)

/-- Passes over blanks, a comment and the end of the line; nothing else may stand there. -/
def endOfLine? (cs : List Char) : Option (List Char) :=
  let cs := cs.dropWhile isBlank
  let cs := if cs.head? = some '#' then cs.dropWhile (!isBreak ·) else cs
  match cs with
  | [] => some []
  | c :: rest => if isBreak c then some rest else none

/-- Empty lines, and the indentation of the line after them. -/
structure EmptyLines where
  breaks : List Char
  /-- The greatest indentation. -/
  width : Nat
  /-- The indentation of the last line. -/
  column : Nat
  rest : List Char

/-- Passes over empty lines and the indentation that follows, up to `indent` if it is known. A tab may
    not stand in place of indentation. -/
def emptyLines (indent? : Option Nat) (cs : List Char) : Option EmptyLines :=
  let room := match indent? with | some indent => cs.take indent | none => cs
  let column := (room.takeWhile (· == ' ')).length
  match _after : cs.drop column with
  | [] => some ⟨[], column, column, []⟩
  | c :: rest =>
    if c = '\t' && (indent?.all (column < ·)) then none
    else if isBreak c then
      (emptyLines indent? rest).map fun r => { r with breaks := c :: r.breaks, width := max column r.width }
    else some ⟨[], column, column, c :: rest⟩
termination_by cs.length
decreasing_by
  have := congrArg List.length _after
  simp only [List.length_drop, List.length_cons] at this
  omega

/-- The state between two lines of a block scalar. -/
structure BlockState where
  /-- The line break after the last line. -/
  lineBreak : List Char
  /-- The empty lines after it. -/
  breaks : List Char
  /-- Whether the last line begins with a blank. -/
  blank : Bool
  column : Nat
  rest : List Char

/-- Reads at most `fuel` lines and the line breaks before them. -/
def blockLines (literal : Bool) (indent : Nat) : Nat → BlockState → Option (List Char × BlockState)
  | 0, s => some ([], s)
  | fuel + 1, s =>
    if s.column != indent || s.rest = [] then some ([], s)
    else do
      let blank := s.rest.head?.any isBlank
      let folds := !literal && s.lineBreak == ['\n'] && !s.blank && !blank
      let joint := if folds then (if s.breaks = [] then [' '] else []) else s.lineBreak
      let line := s.rest.takeWhile (!isBreak ·)
      let after := s.rest.dropWhile (!isBreak ·)
      let empty ← emptyLines (some indent) (after.drop 1)
      let (more, s') ← blockLines literal indent fuel ⟨after.take 1, empty.breaks, blank, empty.column, empty.rest⟩
      return (joint ++ s.breaks ++ line ++ more, s')

/-- Reads a block scalar after its `|` or `>`, where `indent` is the indentation of the surroundings. -/
def blockScalar? (literal : Bool) (indent : Int) (cs : List Char) : Option (List Char × List Char) := do
  let (header, rest) ← blockMarks cs
  let rest ← endOfLine? rest
  let given := header.increment?.map fun n => (if 0 ≤ indent then indent.toNat else 0) + n
  let empty ← emptyLines given rest
  let width := given.getD (max empty.width (max (indent + 1).toNat 1))
  let (text, last) ← blockLines literal width (rest.length + 1) ⟨[], empty.breaks, false, empty.column, empty.rest⟩
  match header.chomping with
  | .strip => return (text, last.rest)
  | .clip => return (text ++ last.lineBreak, last.rest)
  | .keep => return (text ++ last.lineBreak ++ last.breaks, last.rest)

end StageLineage.Yaml
