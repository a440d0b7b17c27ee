import Fleet.Binary64.Rounding

/-!
# Shortest decimal digits

The decimal text of a double has as few digits as a reader needs to get the same double back. All
reals in the rounding interval of a double read back as it: half a last place to either side (a
quarter below a power of two, where the doubles lie twice as dense), the ends included exactly when
the significand is even.

`shortest` looks on one decimal grid after the other, from one significant digit up. On a grid only
the two neighbours of the value need a look, since an interval that holds a grid point holds one of
them. The first grid with a hit wins; of two hits the nearer one, and of two equally near ones the
even one. Seventeen digits always suffice.
-/

set_option autoImplicit false

namespace Fleet.Binary64

/-- A decimal number `digits · 10 ^ exponent`. -/
structure Decimal where
  digits : Nat
  exponent : Int
deriving DecidableEq, Repr

/-- A positive number `value / unit` with the ends of the interval of reals that round to it, all
three over the common denominator `unit`. -/
structure Interval where
  low : Nat
  value : Nat
  high : Nat
  unit : Nat
  closed : Bool

/-- The rounding interval of a positive finite number, in quarters of its last place. -/
def interval (x : Binary64) : Interval :=
  let m := x.significand
  -- at a power of two the doubles below lie twice as close
  let below := if m = 2 ^ 52 && 1 < x.exponentField then 1 else 2
  let quarter := asRatio 1 (x.exponent - 2)
  { low := (4 * m - below) * quarter.1
    value := 4 * m * quarter.1
    high := (4 * m + 2) * quarter.1
    unit := quarter.2
    closed := m % 2 == 0 }

/-- The interval measured in units of `10 ^ k`. -/
def Interval.scaled (i : Interval) (k : Int) : Interval :=
  if k ≥ 0 then { i with unit := i.unit * 10 ^ k.toNat }
  else
    let t := 10 ^ (-k).toNat
    { i with low := i.low * t, value := i.value * t, high := i.high * t }

/-- Whether the whole number `n` lies in the interval. -/
def Interval.holds (i : Interval) (n : Nat) : Bool :=
  if i.closed then i.low ≤ n * i.unit && n * i.unit ≤ i.high
  else i.low < n * i.unit && n * i.unit < i.high

/-- The neighbour of the value on the whole-number grid that lies in the interval, if one does; of
two the nearer, and the even one of two equally near. -/
def Interval.hit? (i : Interval) : Option Nat :=
  let floor := i.value / i.unit
  match i.holds floor, i.holds (floor + 1) with
  | true, true =>
    let rest := i.value % i.unit
    some (if 2 * rest < i.unit then floor
      else if i.unit < 2 * rest then floor + 1
      else floor + floor % 2)
  | true, false => some floor
  | false, true => some (floor + 1)
  | false, false => none

/-- The exponent of the first decimal digit of a positive number `num / den`. -/
def leadingPlace (num den : Nat) : Int :=
  -- the common logarithm of two, a little rounded up; the guess is at most two too low
  let guess := ((num.log2 : Int) - den.log2 - 1) * 30103 / 100000
  let reaches (k : Int) : Bool :=
    if k ≥ 0 then den * 10 ^ k.toNat ≤ num else den ≤ num * 10 ^ (-k).toNat
  if reaches (guess + 1) then
    if reaches (guess + 2) then guess + 2 else guess + 1
  else guess

/-- Drops the trailing zeros of the digits; `fuel` bounds their number. -/
def Decimal.stripped : (fuel : Nat) → Decimal → Decimal
  | 0, d => d
  | fuel + 1, d =>
    if d.digits % 10 = 0 then stripped fuel ⟨d.digits / 10, d.exponent + 1⟩ else d

/-- The fewest digits that read back as the positive finite number `x`, as near to it as their
count allows. -/
def shortest (x : Binary64) : Decimal :=
  let i := x.interval
  let place := leadingPlace i.value i.unit
  let onGrid (count : Nat) : Option Decimal :=
    let k := place - (count - 1 : Nat)
    (i.scaled k).hit?.map fun n => ⟨n, k⟩
  -- seventeen digits tell any two doubles apart
  let found := ((List.range' 1 17).findSome? onGrid).getD ⟨0, 0⟩
  found.stripped 17

end Fleet.Binary64
