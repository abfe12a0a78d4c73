import StageLineage.Number.Binary64

/-! The shortest decimal that reads back as a given number, the nearest of those of equal length. A
    number lies in the interval of the reals that round to it, ends included if its mantissa is even;
    on the grid of `n` significant digits only the two neighbours of the number can be the nearest
    point of that interval, so `n` grows until one of them is inside.

    The text is positional for a decimal exponent from -5 to 15 and has a digit after the point; else
    it is scientific with a signed exponent. -/

namespace StageLineage.Binary64

/-- Significant digits, the first of which stands at the power `exponent` of ten. -/
structure Decimal where
  digits : List Char
  exponent : Int

/-- The number of digits that the integer part of a positive ratio has, or minus the number of zeros
    after the point, less one: the power of ten of its first digit. -/
def leadingPower (num den : Nat) : Int :=
  if den ≤ num then ((Nat.toDigits 10 (num / den)).length : Int) - 1
  else 0 - ((Nat.toDigits 10 ((den + num - 1) / num - 1)).length : Int)

/-- A ratio of naturals times a power of ten. -/
def timesTen (num den : Nat) (power : Int) : Nat × Nat :=
  if 0 ≤ power then (num * Nat.pow 10 power.toNat, den) else (num, den * Nat.pow 10 (-power).toNat)

/-- The interval of a positive number in quarters of its last place, with the number in the middle. -/
def quarters (x : Binary64) : Nat × Nat × Nat :=
  let m := 4 * x.mantissa
  (if x.mantissa = hiddenBit && minExponent < x.exponent then m - 1 else m - 2, m, m + 2)

/-- The neighbour of the number on the grid of `n` digits that reads back, if there is one. -/
def onGrid? (x : Binary64) (power : Int) (n : Nat) : Option Nat :=
  let (low, mid, high) := x.quarters
  let shift := x.exponent - 2
  let unit := if 0 ≤ shift then (Nat.pow 2 shift.toNat, 1) else (1, Nat.pow 2 (-shift).toNat)
  -- all quantities below are in units of the grid, over the common denominator `den`
  let (num, den) := timesTen unit.1 unit.2 ((n : Int) - 1 - power)
  let inside := fun d : Nat =>
    if x.mantissa % 2 = 0 then low * num ≤ d * den && d * den ≤ high * num
    else low * num < d * den && d * den < high * num
  let below := mid * num / den
  let gapBelow := mid * num - below * den
  let gapAbove := (below + 1) * den - mid * num
  match inside below, inside (below + 1) with
  | true, true => some (if gapBelow < gapAbove || (gapBelow = gapAbove && below % 2 = 0) then below else below + 1)
  | true, false => some below
  | false, true => some (below + 1)
  | false, false => none

/-- Tries grids from `n` digits on. -/
def searchGrid (x : Binary64) (power : Int) (n : Nat) : Nat → Nat × Nat
  | 0 => (x.mantissa, n)
  | more + 1 =>
    match x.onGrid? power n with
    | some d => (d, n)
    | none => searchGrid x power (n + 1) more

/-- The shortest decimal of a number that is not zero. Seventeen digits always suffice. -/
def shortest (x : Binary64) : Decimal :=
  let power := leadingPower x.ratio.1 x.ratio.2
  let (d, n) := searchGrid x power 1 17
  let all := Nat.toDigits 10 d
  -- the upper neighbour can be the next power of ten
  let exponent := power + (all.length : Int) - (n : Int)
  let kept := (all.reverse.dropWhile (· == '0')).reverse
  ⟨if kept.isEmpty then ['0'] else kept, exponent⟩

def Decimal.chars (d : Decimal) : List Char :=
  if 0 ≤ d.exponent && d.exponent < 16 then
    let whole := d.exponent.toNat + 1
    let front := d.digits.take whole ++ List.replicate (whole - d.digits.length) '0'
    let back := d.digits.drop whole
    front ++ ['.'] ++ (if back.isEmpty then ['0'] else back)
  else if -5 ≤ d.exponent && d.exponent < 0 then
    ['0', '.'] ++ List.replicate ((-d.exponent).toNat - 1) '0' ++ d.digits
  else
    let sign := if d.exponent < 0 then '-' else '+'
    let mantissa := match d.digits with
      | first :: second :: more => first :: '.' :: second :: more
      | short => short
    mantissa ++ ['e', sign] ++ Nat.toDigits 10 d.exponent.natAbs

def chars (x : Binary64) : List Char :=
  (if x.negative then ['-'] else []) ++ (if x.mantissa = 0 then ['0', '.', '0'] else x.shortest.chars)

end StageLineage.Binary64
