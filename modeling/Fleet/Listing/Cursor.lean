import Fleet.Listing.Order
import Fleet.Text.Hex

/-!
# Cursors

A cursor is the text of a position in a listing. Sorted by a field it is the hexadecimal bytes of
the sort value, a dash, and the hexadecimal bytes of the key in UTF-8; sorted by key alone it is the
key itself. The next page starts behind the position, whether or not a document still stands there.
-/

set_option autoImplicit false

namespace Fleet

/-- The place of a document in a listing: its sort value, if the listing has a sort field, and its
key. -/
structure Position where
  value : Option SortValue
  id : String
deriving DecidableEq, Repr

namespace Position

def hexOf (bytes : List UInt8) : String := String.ofList (Text.Hex.encode bytes)

def encode : Position → String
  | ⟨some value, id⟩ => hexOf value.toBytes ++ "-" ++ hexOf (toUtf8 id)
  | ⟨none, id⟩ => id

/-- The parts of a text before and behind its first dash. -/
def splitDash? (cs : List Char) : Option (List Char × List Char) :=
  match cs.span (· != '-') with
  | (front, _ :: back) => some (front, back)
  | (_, []) => none

/-- The position that a cursor stands for, given the kind of the sort field. -/
def decode? (cursor : String) : Option ValueKind → Option Position
  -- without a sort field the cursor is the id itself
  | none => if cursor = "" then none else some ⟨none, cursor⟩
  | some kind => do
    let (front, back) ← splitDash? cursor.toList
    let valueBytes ← Text.Hex.decode? front
    let idBytes ← Text.Hex.decode? back
    let id ← ofUtf8? idBytes
    if id = "" then none
    else
      let value ← SortValue.ofBytes? kind valueBytes
      some ⟨some value, id⟩

variable {S D : Type} [Document D] [SortField S D]

/-- The place of a document. -/
def of (sort : Option S) (d : D) : Position :=
  ⟨sort.map fun field => SortField.value field d, Document.key d⟩

/-- Compares a position with the place of a document in ascending order. -/
def compareTo (p : Position) (sort : Option S) (d : D) : Ordering :=
  let byValue := match p.value, sort with
    | some value, some field => value.order (SortField.value field d)
    | _, _ => .eq
  byValue.then (compare p.id (Document.key d))

/-- Whether a document stands behind the position in a direction. -/
def precedes (p : Position) (sort : Option S) (direction : Direction) (d : D) : Bool :=
  direction.apply (p.compareTo sort d) == .lt

end Position

end Fleet
