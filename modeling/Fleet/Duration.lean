import Fleet.Text.Blank
import Fleet.Text.Numeral

/-!
# Durations

A length of time in nanoseconds, from nothing up to the longest one, which falls one nanosecond
short of `2 ^ 64` seconds. Doubling stops there; a product beyond it is refused.

A person writes a duration as a whole number with the unit `ms`, `s` or `m` (`parse?`). The number
may carry a plus sign and the text may stand between blanks; the two units that end in `s` are told
apart by trying the longer one first.
-/

set_option autoImplicit false

namespace Fleet

structure Duration where
  nanos : Nat
  inRange : nanos < 2 ^ 64 * 10 ^ 9 := by decide
deriving DecidableEq, Repr

namespace Duration

theorem ext {a b : Duration} (h : a.nanos = b.nanos) : a = b := by
  cases a; cases b; cases h; rfl

/-- The longest duration. -/
def greatest : Duration := ⟨2 ^ 64 * 10 ^ 9 - 1, by decide⟩

/-- So many nanoseconds, or the longest duration where they are more. -/
def saturating (nanos : Nat) : Duration :=
  if h : nanos < 2 ^ 64 * 10 ^ 9 then ⟨nanos, h⟩ else greatest

def ofSeconds (n : UInt64) : Duration :=
  ⟨n.toNat * 10 ^ 9, by have := n.toNat_lt; omega⟩

def ofMillis (n : UInt64) : Duration :=
  ⟨n.toNat * 10 ^ 6, by have := n.toNat_lt; omega⟩

/-- The whole seconds. -/
def seconds (d : Duration) : Nat := d.nanos / 10 ^ 9

/-- The nanoseconds beyond the whole seconds. -/
def subsecond (d : Duration) : Nat := d.nanos % 10 ^ 9

/-- The whole milliseconds. -/
def wholeMillis (d : Duration) : Nat := d.nanos / 10 ^ 6

/-- The longest time for which a timer can be set: thirty years of 365 days, in milliseconds. -/
def longestTimer : Nat := 30 * 365 * 86400 * 1000

/-- The number of milliseconds after which a timer for the duration goes off. A begun one counts, and
a longer time than a timer can be set for is cut short. -/
def timerMillis (d : Duration) : Nat := min ((d.nanos + (10 ^ 6 - 1)) / 10 ^ 6) longestTimer

/-- Twice the duration, as far as there is one. -/
def doubled (d : Duration) : Duration := saturating (2 * d.nanos)

/-- The multiple of a duration, unless it is beyond the longest one. -/
def times? (n : Nat) (d : Duration) : Option Duration :=
  if h : n * d.nanos < 2 ^ 64 * 10 ^ 9 then some ⟨n * d.nanos, h⟩ else none

theorem nanos_saturating (n : Nat) : (saturating n).nanos = min n greatest.nanos := by
  unfold saturating greatest
  split <;> simp only <;> omega

theorem nanos_doubled (d : Duration) : d.doubled.nanos = min (2 * d.nanos) greatest.nanos :=
  nanos_saturating _

/-! ## As text -/

open Text

/-- A part below `10 ^ width` of a unit, as the digits behind a point without the zeros at their
end; nothing for none. -/
def fraction (width part : Nat) : List Char :=
  if part = 0 then []
  else '.' :: ((padded width part).reverse.dropWhile (· == '0')).reverse

/-- The duration in the greatest unit of which it has a whole one. -/
def text (d : Duration) : String :=
  let (width, unit) : Nat × String :=
    if 10 ^ 9 ≤ d.nanos then (9, "s")
    else if 10 ^ 6 ≤ d.nanos then (6, "ms")
    else if 10 ^ 3 ≤ d.nanos then (3, "µs")
    else (0, "ns")
  String.ofList (decimal (d.nanos / 10 ^ width) ++ fraction width (d.nanos % 10 ^ width)) ++ unit

/-- The number in front of a unit, of sixty-four bits. -/
def count? (cs : List Char) : Option UInt64 := (natural? (2 ^ 64 - 1) cs).map UInt64.ofNat

/-- So many minutes, unless their seconds take more than sixty-four bits. -/
def ofMinutes? (n : UInt64) : Option Duration :=
  if n.toNat * 60 < 2 ^ 64 then some (ofSeconds (UInt64.ofNat (n.toNat * 60))) else none

/-- The duration that a text writes. -/
def parse? (s : String) : Option Duration :=
  let cs := trim s.toList
  -- a text in milliseconds ends like one in seconds, so this unit is tried first
  match stripSuffix? ['m', 's'] cs with
  | some front => (count? front).map ofMillis
  | none =>
    match stripSuffix? ['s'] cs with
    | some front => (count? front).map ofSeconds
    | none =>
      match stripSuffix? ['m'] cs with
      | some front => (count? front).bind ofMinutes?
      | none => none

end Duration

end Fleet
