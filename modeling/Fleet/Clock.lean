import Fleet.Power

/-!
# Times

Times are whole milliseconds since the epoch in sixty-four bits, the unit of every stored time.
Differences stop at zero and sums at the greatest time, so a clock that goes backwards shortens
durations and never wraps them.
-/

set_option autoImplicit false

namespace Fleet

/-- Milliseconds since the epoch, or a number of milliseconds. -/
abbrev Millis := UInt64

namespace Millis

/-- The time from `b` to `a`, zero if `b` is later. -/
def minus (a b : Millis) : Millis := if b ≤ a then a - b else 0

/-- The sum, or the greatest time where the sum is beyond it. -/
def plus (a b : Millis) : Millis :=
  if a.toNat + b.toNat < 2 ^ 64 then a + b else UInt64.ofNat (2 ^ 64 - 1)

theorem toNat_minus (a b : Millis) : (minus a b).toNat = a.toNat - b.toNat := by
  unfold minus
  split
  case isTrue h => exact UInt64.toNat_sub_of_le a b h
  case isFalse h =>
    have : ¬ b.toNat ≤ a.toNat := fun hn => h (UInt64.le_iff_toNat_le.2 hn)
    rw [Nat.sub_eq_zero_of_le (by omega)]
    rfl

theorem toNat_plus (a b : Millis) : (plus a b).toNat = min (a.toNat + b.toNat) (2 ^ 64 - 1) := by
  unfold plus
  split
  case isTrue h => rw [UInt64.toNat_add, Nat.mod_eq_of_lt h]; omega
  case isFalse h => rw [Nat.min_eq_right (by omega)]; rfl

end Millis

/-- A span of time with bounds that may still be open. -/
structure TimeInterval where
  start : Option Millis := none
  stop : Option Millis := none
deriving DecidableEq, Repr

/-- The length of a closed interval, zero while a bound is missing. -/
def TimeInterval.closedLength : TimeInterval → Millis
  | ⟨some start, some stop⟩ => stop.minus start
  | _ => 0

end Fleet
