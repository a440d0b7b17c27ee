import Fleet.Power
import Fleet.Text.Hex

/-!
# Binary64 numbers as bit patterns

A task quality is a double-precision number, and three of its aspects are visible outside: its bits
(a cursor carries them), its place in a listing, and its decimal text. A `Binary64` therefore is its
bit pattern, so two values are equal as Lean terms exactly when no reader can tell them apart,
`NaN` payloads and the sign of zero included.

Two comparisons live beside that equality. `order` is the total order of the IEEE standard, under
which `-NaN` precedes everything, `-0.0` precedes `0.0` and `NaN` follows everything; `ieeeEqual` is
the partial equality of arithmetic, under which both zeros agree and no `NaN` equals itself.
-/

set_option autoImplicit false

namespace Fleet

/-- A double-precision number, given by its sixty-four bits. -/
structure Binary64 where
  bits : UInt64
deriving DecidableEq, Repr, Inhabited

namespace Binary64

/-! ## The three fields of the bit pattern -/

def isNegative (x : Binary64) : Bool := 2 ^ 63 ≤ x.bits.toNat

/-- The eleven exponent bits. -/
def exponentField (x : Binary64) : Nat := x.bits.toNat / 2 ^ 52 % 2 ^ 11

/-- The fifty-two fraction bits. -/
def fractionField (x : Binary64) : Nat := x.bits.toNat % 2 ^ 52

def isFinite (x : Binary64) : Bool := x.exponentField != 2047

def isNaN (x : Binary64) : Bool := x.exponentField == 2047 && x.fractionField != 0

def isInfinite (x : Binary64) : Bool := x.exponentField == 2047 && x.fractionField == 0

def isZero (x : Binary64) : Bool := x.bits.toNat % 2 ^ 63 == 0

/-- A finite number is `significand · 2 ^ exponent`, up to its sign. -/
def significand (x : Binary64) : Nat :=
  if x.exponentField = 0 then x.fractionField else x.fractionField + 2 ^ 52

def exponent (x : Binary64) : Int := (max x.exponentField 1 : Nat) - 1075

/-! ## Constants and sign -/

def zero : Binary64 := ⟨0⟩

def infinity : Binary64 := ⟨0x7ff0000000000000⟩

/-- The number with its sign bit set as told. -/
def withSign (negative : Bool) (x : Binary64) : Binary64 :=
  ⟨UInt64.ofNat (x.bits.toNat % 2 ^ 63 + if negative then 2 ^ 63 else 0)⟩

/-! ## Comparisons -/

/-- Equality of arithmetic: the zeros agree and `NaN` equals nothing. -/
def ieeeEqual (x y : Binary64) : Bool :=
  !x.isNaN && !y.isNaN && (x == y || (x.isZero && y.isZero))

/-- The rank of a bit pattern in the total order: the magnitude bits, counted downwards from `-1`
for a negative number. -/
def rank (x : Binary64) : Int :=
  if x.isNegative then -(x.bits.toNat % 2 ^ 63 : Nat) - 1 else (x.bits.toNat % 2 ^ 63 : Nat)

def order (x y : Binary64) : Ordering := compare x.rank y.rank

/-! ## Bits as text -/

/-- The sixteen hexadecimal digits of the bit pattern. -/
def toHex (x : Binary64) : String := String.ofList (Text.Hex.word 16 x.bits.toNat)

/-- Reads sixteen hexadecimal digits of either case. -/
def ofHex? (s : String) : Option Binary64 :=
  match Text.Hex.decode? s.toList with
  | some bytes =>
    if bytes.length = 8 then some ⟨UInt64.ofNat (bytes.foldl (fun n b => n * 256 + b.toNat) 0)⟩
    else none
  | none => none

end Binary64

end Fleet
