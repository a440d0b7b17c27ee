import Fleet.Power

/-!
# Numerals

The two ways a whole number is written: a plain decimal numeral, read back with an optional plus
sign and a bound, and a numeral padded with zeros to a fixed width. Padding keeps the order of the
numbers as the order of their texts for as long as they fit the width.
-/

set_option autoImplicit false

namespace Fleet.Text

/-- The value of an ASCII decimal digit. -/
def digit? (c : Char) : Option Nat :=
  if '0' ≤ c && c ≤ '9' then some (c.toNat - '0'.toNat) else none

def isDigit (c : Char) : Bool := '0' ≤ c && c ≤ '9'

/-- The number that a run of decimal digits denotes, `none` at the first other character. -/
def valueOf? (cs : List Char) : Option Nat :=
  cs.foldlM (fun n c => (digit? c).map (n * 10 + ·)) 0

/-- Reads an optional `+` and then one or more decimal digits, for a number up to `bound`. -/
def natural? (bound : Nat) (cs : List Char) : Option Nat :=
  let digits := match cs with
    | '+' :: rest => rest
    | _ => cs
  if digits.isEmpty then none
  else (valueOf? digits).bind fun n => if n ≤ bound then some n else none

/-- The decimal numeral of `n`, without leading zeros. -/
def decimal (n : Nat) : List Char := Nat.toDigits 10 n

/-- The decimal numeral of `n` with zeros in front up to `width` digits. -/
def padded (width n : Nat) : List Char :=
  List.replicate (width - (decimal n).length) '0' ++ decimal n

end Fleet.Text
