import Fleet.Error
import Fleet.Binary64.Basic

/-!
# Sort values

A listing is ordered by one field of its documents, whose values are texts, whole numbers or
doubles. Values of one kind are totally ordered: texts by code points, doubles by the total order of
their bit patterns. The bytes of a value stand for it in a cursor, big-endian for the numbers, and
determine it together with the kind of the field.
-/

set_option autoImplicit false

namespace Fleet

/-- What the values of a sort field are. -/
inductive ValueKind where
  | text | int | float
deriving DecidableEq, Repr

inductive SortValue where
  | text (s : String)
  | int (n : Int64)
  | float (x : Binary64)
deriving DecidableEq, Repr

/-- A number of `width` bytes, the most significant one first. -/
def bigEndian : (width : Nat) → Nat → List UInt8
  | 0, _ => []
  | width + 1, n => bigEndian width (n / 256) ++ [UInt8.ofNat (n % 256)]

/-- The number that bytes denote, the most significant one first. -/
def ofBigEndian (bytes : List UInt8) : Nat := bytes.foldl (fun n b => n * 256 + b.toNat) 0

/-- The text of bytes in UTF-8. -/
def ofUtf8? (bytes : List UInt8) : Option String := String.fromUTF8? ⟨bytes.toArray⟩

def toUtf8 (s : String) : List UInt8 := s.toUTF8.data.toList

namespace SortValue

def kind : SortValue → ValueKind
  | .text _ => .text
  | .int _ => .int
  | .float _ => .float

/-- Texts come before whole numbers and those before doubles. -/
def rank : SortValue → Nat
  | .text _ => 0
  | .int _ => 1
  | .float _ => 2

def order : SortValue → SortValue → Ordering
  | .text a, .text b => compare a b
  | .int a, .int b => compare a.toInt b.toInt
  | .float a, .float b => a.order b
  -- a field has values of one kind, so this is met by foreign cursors only
  | a, b => compare a.rank b.rank

/-- Equality of values as numbers and texts: doubles compare as arithmetic does. -/
def same : SortValue → SortValue → Bool
  | .text a, .text b => a == b
  | .int a, .int b => a == b
  | .float a, .float b => a.ieeeEqual b
  | _, _ => false

def toBytes : SortValue → List UInt8
  | .text s => toUtf8 s
  | .int n => bigEndian 8 n.toUInt64.toNat
  | .float x => bigEndian 8 x.bits.toNat

/-- The value of a kind that bytes stand for. -/
def ofBytes? (kind : ValueKind) (bytes : List UInt8) : Option SortValue :=
  match kind with
  | .text => (ofUtf8? bytes).map .text
  | .int =>
    if bytes.length = 8 then some (.int (UInt64.ofNat (ofBigEndian bytes)).toInt64) else none
  | .float =>
    if bytes.length = 8 then some (.float ⟨UInt64.ofNat (ofBigEndian bytes)⟩) else none

/-- The value of a kind that the bytes of a cursor stand for. -/
def read (kind : ValueKind) (bytes : List UInt8) : Except StateError SortValue :=
  match ofBytes? kind bytes with
  | some v => .ok v
  | none => .error (.badInput "invalid cursor")

end SortValue

end Fleet
