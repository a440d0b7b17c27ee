import Fleet.Toml.Text
import Fleet.Toml.Value
import Fleet.Text.Numeral
import Fleet.Binary64.Rounding

/-!
# Numbers in TOML

Integers of sixty-four bits with a sign, in decimal or, without a sign, to the base sixteen, eight or
two; doubles with a fraction, an exponent or both, and the names `inf` and `nan`. Digits may be
grouped by single underscores between them. A decimal whole part has no leading zeros. A double
beyond the greatest one is refused unless it is negative.
-/

set_option autoImplicit false

namespace Fleet.Toml

open Text

/-- More digits of a group of digits. -/
def moreDigits (isDigit : Char → Bool) : List Char → Reading (List Char)
  | [] => some ([], [])
  | '_' :: c :: rest =>
    if isDigit c then Reading.cons c (moreDigits isDigit rest) else none
  | c :: rest =>
    if isDigit c then Reading.cons c (moreDigits isDigit rest) else some ([], c :: rest)

/-- One or more digits. -/
def digits (isDigit : Char → Bool) : List Char → Reading (List Char)
  | [] => none
  | c :: rest => if isDigit c then Reading.cons c (moreDigits isDigit rest) else none

/-- Decimal digits without leading zeros. -/
def wholeDigits : List Char → Reading (List Char)
  | '0' :: rest => some (['0'], rest)
  | cs => digits isDigit cs

/-- Whether a minus stands in front, and what follows the sign. -/
def sign : List Char → Bool × List Char
  | '-' :: rest => (true, rest)
  | '+' :: rest => (false, rest)
  | cs => (false, cs)

/-! ## Integers -/

/-- An integer of sixty-four bits. -/
def integer? (n : Int) : Option Value :=
  if -2 ^ 63 ≤ n && n < 2 ^ 63 then some (.integer n) else none

/-- The digits of a number to a base of at most sixteen, behind its mark. -/
def basedInteger (base : Nat) (cs : List Char) : Option (Value × List Char) := do
  let isDigit (c : Char) : Bool := match Hex.value? c with
    | some v => v < base
    | none => false
  let (ds, rest) ← digits isDigit cs
  let n := ds.foldl (fun n c => n * base + (Hex.value? c).getD 0) 0
  return (← integer? n, rest)

/-! ## Doubles -/

/-- The double nearest to `± n · 10 ^ scale`. Beyond the range of doubles by far, the power is never
computed. -/
def scaled (negative : Bool) (n : Nat) (scale : Int) : Binary64 :=
  let magnitude := (decimal n).length + scale
  if n = 0 || magnitude < -330 then Binary64.zero.withSign negative
  else if 310 < magnitude then Binary64.infinity.withSign negative
  else if 0 ≤ scale then Binary64.ofRatio negative (n * 10 ^ scale.toNat) 1
  else Binary64.ofRatio negative n (10 ^ (-scale).toNat)

/-- A point and digits; nothing where there is no point. -/
def fractionPart : List Char → Reading (Option (List Char))
  | '.' :: rest => (digits isDigit rest).map fun (ds, rest) => (some ds, rest)
  | cs => some (none, cs)

/-- The power of ten behind an `e`; nothing where there is none. -/
def exponentPart (cs : List Char) : Reading (Option Int) :=
  let read (cs : List Char) : Option (Option Int × List Char) := do
    let (negative, cs) := sign cs
    let (ds, rest) ← digits isDigit cs
    let n : Int := (valueOf? ds).getD 0
    return (some (if negative then -n else n), rest)
  match cs with
  | 'e' :: rest => read rest
  | 'E' :: rest => read rest
  | cs => some (none, cs)

def notANumber : Binary64 := ⟨0x7ff8000000000000⟩

/-- The number in decimal digits behind its sign. -/
def decimalNumber (negative : Bool) (cs : List Char) : Option (Value × List Char) := do
  let (whole, rest) ← wholeDigits cs
  let (fraction, rest) ← fractionPart rest
  let (exponent, rest) ← exponentPart rest
  if fraction.isNone && exponent.isNone then
    let n : Int := (valueOf? whole).getD 0
    return (← integer? (if negative then -n else n), rest)
  else
    let fraction := fraction.getD []
    let x := scaled negative ((valueOf? (whole ++ fraction)).getD 0)
      (exponent.getD 0 - fraction.length)
    if x = Binary64.infinity then none else some (.float x, rest)

/-! ## Any number -/

/-- The number at the start of a text. -/
def number? (cs : List Char) : Reading Value :=
  match cs with
  | '0' :: 'x' :: rest => basedInteger 16 rest
  | '0' :: 'o' :: rest => basedInteger 8 rest
  | '0' :: 'b' :: rest => basedInteger 2 rest
  | cs =>
    let (negative, rest) := sign cs
    match rest with
    | 'i' :: 'n' :: 'f' :: rest => some (.float (Binary64.infinity.withSign negative), rest)
    | 'n' :: 'a' :: 'n' :: rest => some (.float (notANumber.withSign negative), rest)
    | rest => decimalNumber negative rest

end Fleet.Toml
