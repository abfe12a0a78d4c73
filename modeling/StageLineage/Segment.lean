import StageLineage.Text.Quoted

/-! Segments are the directory names of a session tree. A stage segment is named by the id of its
    stage, a join segment by the sorted ids of the parents that meet there. -/

namespace StageLineage

/-- Why a text or a list of ids is not a segment. -/
inductive SegmentError where
  | empty
  /-- The text is not a single directory name. -/
  | invalid (text : String)
  /-- A join of fewer than two distinct ids. -/
  | joinArity (count : Nat)
  deriving DecidableEq

def SegmentError.message : SegmentError → String
  | empty => "path contains empty segment"
  | invalid text => "invalid segment: " ++ Text.quoted text ++ " (must be a single directory name)"
  | joinArity count => s!"join segment needs at least two parents, got {count}"

/-- One directory level of a lineage path. -/
inductive Segment where
  | stage (id : String)
  | join (parents : List String)
  deriving DecidableEq

namespace Segment

/-- Whether a character is a control character (general category Cc). -/
def isControl (c : Char) : Bool := c.toNat < 0x20 || (0x7f ≤ c.toNat && c.toNat < 0xa0)

/-- Whether a character may not stand in a directory name: the separators, the colon, which delimits a
    parent entry of a fingerprint, and the control characters. -/
def isReserved (c : Char) : Bool := c == '/' || c == '\\' || c == ':' || isControl c

/-- Checks that a text is usable as a single directory name. -/
def validate (text : String) : Except SegmentError Unit :=
  if text = "" then .error .empty
  else if text = "." || text = ".." || text.toList.any isReserved then .error (.invalid text)
  else .ok ()

def ofStage (id : String) : Except SegmentError Segment := do
  validate id
  return stage id

/-- Drops each element that equals the one before it. -/
def dropRepeats : List String → List String
  | [] => []
  | [x] => [x]
  | x :: y :: rest => if x = y then dropRepeats (y :: rest) else x :: dropRepeats (y :: rest)

def sortedIds (ids : List String) : List String := dropRepeats (ids.mergeSort (fun a b => decide (a ≤ b)))

/-- The join segment of some parents, whose order does not matter. -/
def ofParents (ids : List String) : Except SegmentError Segment := do
  let sorted := sortedIds ids
  if sorted.length < 2 then throw (.joinArity sorted.length)
  sorted.forM validate
  return join sorted

/-- What the name of a join directory begins with. -/
def joinMark : String := "_join_"

def dirName : Segment → String
  | stage id => id
  | join parents => joinMark ++ "_".intercalate parents

def isJoin : Segment → Bool
  | join _ => true
  | stage _ => false

/-- The rank of the kind of a segment: stages come before joins. -/
def rank : Segment → Nat
  | stage _ => 0
  | join _ => 1

def ids : Segment → List String
  | stage id => [id]
  | join parents => parents

instance : Ord Segment := ⟨compareLex (compareOn rank) (compareOn ids)⟩

end Segment
end StageLineage
