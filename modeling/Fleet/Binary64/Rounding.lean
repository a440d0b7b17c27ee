import Fleet.Binary64.Basic

/-!
# Rounding to binary64

Every arithmetic step on doubles is exact arithmetic followed by one rounding, so one function does
them all: `ofRatio` gives the double nearest to a quotient of natural numbers, a tie going to the
even significand, and infinity from `2 ^ 1024 - 2 ^ 970` on. A product or a quotient of two finite
numbers is `ofRatio` of the exact product or quotient.

The double is found through the binary exponent of its last significand bit (`lastPlace`). The
significand, rounded to a whole number of last places, is added to the exponent bits as a number, so
that a carry out of the significand lands in the exponent, where it belongs.
-/

set_option autoImplicit false

namespace Fleet.Binary64

/-- The exponent of the last significand bit of a double near `num / den`, not below the subnormal
range. -/
def lastPlace (num den : Nat) : Int :=
  let guess : Int := (num.log2 : Int) - den.log2 - 53
  let fits :=
    if guess + 53 ≥ 0 then num < den * 2 ^ (guess + 53).toNat
    else num * 2 ^ (-(guess + 53)).toNat < den
  max (-1074) (if fits then guess else guess + 1)

/-- The whole number nearest to `num / den`, a tie going to the even one. -/
def roundHalfEven (num den : Nat) : Nat :=
  let floor := num / den
  let rest := num % den
  if 2 * rest < den then floor
  else if den < 2 * rest then floor + 1
  else floor + floor % 2

/-- The double nearest to `± num / den` for a positive `den`. -/
def ofRatio (negative : Bool) (num den : Nat) : Binary64 :=
  if num = 0 then zero.withSign negative
  else
    let place := lastPlace num den
    let places :=
      if place ≥ 0 then roundHalfEven num (den * 2 ^ place.toNat)
      else roundHalfEven (num * 2 ^ (-place).toNat) den
    -- rounding up to the next power of two carries into the exponent field
    let magnitude := (place + 1074).toNat * 2 ^ 52 + places
    (if magnitude < infinity.bits.toNat then ⟨UInt64.ofNat magnitude⟩ else infinity : Binary64)
      |>.withSign negative

def ofNat (n : Nat) : Binary64 := ofRatio false n 1

/-- A significand times a power of two, as a quotient of natural numbers. -/
def asRatio (m : Nat) (e : Int) : Nat × Nat :=
  if e ≥ 0 then (m * 2 ^ e.toNat, 1) else (m, 2 ^ (-e).toNat)

/-- The rounded product of two finite numbers. -/
def mul (x y : Binary64) : Binary64 :=
  let r := asRatio (x.significand * y.significand) (x.exponent + y.exponent)
  ofRatio (x.isNegative != y.isNegative) r.1 r.2

/-- The rounded quotient of two finite numbers, the divisor not zero. -/
def div (x y : Binary64) : Binary64 :=
  let r := asRatio 1 (x.exponent - y.exponent)
  ofRatio (x.isNegative != y.isNegative) (x.significand * r.1) (y.significand * r.2)

/-- The double nearest to `10 ^ n`. -/
def tenTo (n : Nat) : Binary64 := ofNat (10 ^ n)

end Fleet.Binary64
