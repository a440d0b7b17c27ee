import Fleet.Document
import Fleet.Listing.SortValue
import Fleet.Text.Quoted

/-!
# The order of a listing

Documents are listed by `(sort value, key)`, so the order is total however often a value repeats;
without a sort field they are listed by key alone. Descending is the exact reverse of ascending.
Leases hand documents out in the same order.
-/

set_option autoImplicit false

namespace Fleet

inductive Direction where
  | ascending | descending
deriving DecidableEq, Repr

/-- The direction that a query names; ascending if it names none. -/
def Direction.read (s : String) : Except StateError Direction :=
  match s with
  | "" | "asc" => .ok .ascending
  | "desc" => .ok .descending
  | s => .error (.badInput ("invalid sort order " ++ Text.quoted s))

/-- The ordering of two things in a direction, given their ascending one. -/
def Direction.apply : Direction → Ordering → Ordering
  | .ascending, o => o
  | .descending, o => o.swap

/-- A field by which documents of a type can be listed. All values of a field are of its kind, so
that a cursor, which does not name the kind, can be read back. -/
class SortField (S : Type) (D : outParam Type) where
  kind : S → ValueKind
  value : S → D → SortValue
  kind_value : ∀ field d, (value field d).kind = kind field := by
    intro field d
    cases field <;> rfl

variable {S D : Type} [Document D] [SortField S D]

/-- Compares documents by a sort field, if there is one, and then by key. -/
def compareDocs (sort : Option S) (direction : Direction) (a b : D) : Ordering :=
  let byValue := match sort with
    | some field => (SortField.value field a).order (SortField.value field b)
    | none => .eq
  direction.apply (byValue.then (compare (Document.key a) (Document.key b)))

/-- The first of the least elements of a list. -/
def least? {α : Type} (order : α → α → Ordering) : List α → Option α
  | [] => none
  | a :: rest =>
    match least? order rest with
    | none => some a
    | some b => some (if order b a = .lt then b else a)

end Fleet
