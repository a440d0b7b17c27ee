import Fleet.Listing.Cursor

/-!
# Pages

A listing is served in pages. A page holds the documents behind its cursor, up to its limit, in the
order of the listing, and ends with a cursor exactly when more documents follow. A limit of zero is
no limit.
-/

set_option autoImplicit false

namespace Fleet

/-- What to list, apart from filters. -/
structure ListQuery (S : Type) where
  /-- The size of a page, zero for everything. -/
  limit : Nat := 0
  cursor : Option String := none
  /-- The field to sort by, none for the key. -/
  sort : Option S := none
  direction : Direction := .ascending

structure Page (D : Type) where
  items : List D
  /-- The number of documents on all pages. -/
  total : Nat
  /-- Where the next page starts, if there is one. -/
  next : Option String

variable {S D : Type} [Document D] [SortField S D]

/-- The position at which a query starts, if it has a cursor. -/
def ListQuery.position (q : ListQuery S) : Except StateError (Option Position) :=
  match q.cursor with
  | none => .ok none
  | some cursor =>
    match Position.decode? cursor (q.sort.map SortField.kind) with
    | some p => .ok (some p)
    | none => .error (.badInput ("invalid cursor " ++ Text.quoted cursor))

/-- Documents in the order of a listing; equal ones keep their order. -/
def sortDocs (sort : Option S) (direction : Direction) (docs : List D) : List D :=
  docs.mergeSort fun a b => compareDocs sort direction a b != .gt

/-- The page of a query over the documents that pass its filters. -/
def paginate (docs : List D) (q : ListQuery S) : Except StateError (Page D) := do
  let start ← q.position
  let sorted := sortDocs q.sort q.direction docs
  let rest := match start with
    | some p => sorted.filter (p.precedes q.sort q.direction)
    | none => sorted
  -- a limit of zero is none
  let items := if q.limit = 0 then rest else rest.take q.limit
  let next :=
    if items.length < rest.length then
      items.getLast?.map fun d => (Position.of q.sort d).encode
    else none
  -- the total is that of the listing, wherever the page starts
  return { items, total := docs.length, next }

/-- The pages from a cursor on, each asked for with the cursor of the one before it, up to the last
page or for at most `fuel` pages. -/
def walk (page : Option String → Except StateError (Page D)) :
    (fuel : Nat) → Option String → Except StateError (List (Page D))
  | 0, _ => .ok []
  | fuel + 1, cursor => do
    let p ← page cursor
    match p.next with
    | none => return [p]
    | some next => return p :: (← walk page fuel (some next))

end Fleet
