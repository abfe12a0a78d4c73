/-! Finite binary floating-point numbers with 53 bits of precision, as a sign, a mantissa and a power of
    two. A ratio is rounded to the nearest number, and a tie goes to the even mantissa. A decimal is read in one of
    two ways: as the number nearest to it, or as a significand that is multiplied or divided by powers of ten, where
    each step rounds and so the last place may differ. -/

namespace StageLineage

/-- The number `mantissa * 2 ^ exponent`, negated if `negative`. A mantissa below `2 ^ 52` stands at
    the least exponent, -1074. -/
structure Binary64 where
  negative : Bool
  mantissa : Nat
  exponent : Int
  deriving DecidableEq, Inhabited

namespace Binary64

def minExponent : Int := -1074

/-- The greatest exponent of a finite number. -/
def maxExponent : Int := 971

/-- The least mantissa above the least exponent: two to the power of 52. -/
def hiddenBit : Nat := 4503599627370496

/-- Zero with a sign. -/
def zero (negative : Bool) : Binary64 := ⟨negative, 0, minExponent⟩

/-- The integer nearest to `num / den`; a half goes to the even neighbour. -/
def roundHalfEven (num den : Nat) : Nat :=
  let q := num / den
  let twice := 2 * (num % den)
  if twice < den then q
  else if twice = den then q + q % 2
  else q + 1

/-- `num / den` scaled by `2 ^ (-e)` and rounded. -/
def scaled (num den : Nat) (e : Int) : Nat :=
  if 0 ≤ e then roundHalfEven num (den * Nat.pow 2 e.toNat) else roundHalfEven (num * Nat.pow 2 (-e).toNat) den

/-- The exponent at which `num / den` has a mantissa of 53 bits, or the least one. -/
def exponentOf (num den : Nat) : Int :=
  let guess : Int := (num.log2 : Int) - (den.log2 : Int) - 52
  let low :=
    if 0 ≤ guess then num < hiddenBit * (den * Nat.pow 2 guess.toNat)
    else num * Nat.pow 2 (-guess).toNat < hiddenBit * den
  max minExponent (if low then guess - 1 else guess)

/-- The number nearest to `num / den`, or nothing if it is beyond the greatest number. -/
def ofRatio (negative : Bool) (num den : Nat) : Option Binary64 :=
  if num = 0 then some (zero negative)
  else
    let e := exponentOf num den
    let m := scaled num den e
    let (m, e) := if m = 2 * hiddenBit then (hiddenBit, e + 1) else (m, e)
    if maxExponent < e then none
    else if m = 0 then some (zero negative)
    else some ⟨negative, m, e⟩

/-- The number nearest to `digits * 10 ^ exponent`. The two bounds on the count of digits spare
    powers of ten that are out of range anyway. -/
def ofDecimal (negative : Bool) (digits : Nat) (exponent : Int) : Option Binary64 :=
  let top : Int := (Nat.toDigits 10 digits).length + exponent
  if digits = 0 then some (zero negative)
  else if 400 < top then none
  else if top < -400 then some (zero negative)
  else if 0 ≤ exponent then ofRatio negative (digits * Nat.pow 10 exponent.toNat) 1
  else ofRatio negative digits (Nat.pow 10 (-exponent).toNat)

/-! ### Products and quotients -/

/-- A number without its sign, as a ratio. -/
def ratio (x : Binary64) : Nat × Nat :=
  if 0 ≤ x.exponent then (x.mantissa * Nat.pow 2 x.exponent.toNat, 1) else (x.mantissa, Nat.pow 2 (-x.exponent).toNat)

/-- The number nearest to the product, or nothing if it is beyond the greatest number. -/
def times? (x y : Binary64) : Option Binary64 :=
  ofRatio (x.negative != y.negative) (x.ratio.1 * y.ratio.1) (x.ratio.2 * y.ratio.2)

/-- The number nearest to the quotient, or nothing if it is beyond the greatest number; `y` is not zero. -/
def over? (x y : Binary64) : Option Binary64 :=
  ofRatio (x.negative != y.negative) (x.ratio.1 * y.ratio.2) (x.ratio.2 * y.ratio.1)

/-! ### Scaled significands -/

/-- The exponent of the greatest power of ten that is a finite number. -/
def maxPower : Nat := 308

/-- The number nearest to a power of ten. -/
def powerOfTen? (n : Nat) : Option Binary64 := ofDecimal false 1 n

/-- Divides by `10 ^ n`, by the greatest power of ten again and again until the rest is small or nothing is left. -/
def scaledDown? (x : Binary64) (n : Nat) : Option Binary64 :=
  if n ≤ maxPower then powerOfTen? n >>= x.over?
  else if x.mantissa = 0 then some x
  else powerOfTen? maxPower >>= x.over? >>= fun y => y.scaledDown? (n - maxPower)
termination_by n
decreasing_by simp only [maxPower] at *; omega

/-- `significand * 10 ^ exponent`, rounded at every step. Only zero may have an exponent that is out of range. -/
def ofScaled (negative : Bool) (significand : Nat) (exponent : Int) : Option Binary64 :=
  ofRatio negative significand 1 >>= fun x =>
    if exponent < 0 then x.scaledDown? (-exponent).toNat
    else if exponent ≤ maxPower then powerOfTen? exponent.toNat >>= x.times?
    else if significand = 0 then some x
    else none

end Binary64
end StageLineage
