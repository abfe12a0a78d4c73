/-! Numbers written with digits to a base of at most sixteen, with letters of either case. -/

namespace StageLineage.Digits

def ofChar? (c : Char) : Option Nat :=
  if '0' ≤ c && c ≤ '9' then some (c.toNat - 48)
  else if 'a' ≤ c && c ≤ 'f' then some (c.toNat - 87)
  else if 'A' ≤ c && c ≤ 'F' then some (c.toNat - 55)
  else none

/-- The number that some digits stand for, of which there is at least one. -/
def value? (base : Nat) (digits : List Char) : Option Nat :=
  if digits = [] then none
  else digits.foldlM (fun n c => ((ofChar? c).filter (· < base)).map (base * n + ·)) 0

end StageLineage.Digits
