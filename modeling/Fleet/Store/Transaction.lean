import Fleet.Store.Basic
import Fleet.Listing.Order

/-!
# Transactions

A transaction reads and changes the store and then either comes to an end, when all its changes take
effect at once, or fails, when none does (`Transaction.commit`). Transactions never overlap, so what
one of them reads still holds when it writes. That is all the atomicity there is; whatever takes
more than one transaction may be interrupted between them.

The functions below are what every transaction is made of. Documents are read in the order of their
keys; one that cannot be decoded fails the transaction as soon as it is met, also where only the
others are asked for.
-/

set_option autoImplicit false

namespace Fleet

abbrev Transaction (α : Type) := StateT Store (Except StateError) α

namespace Transaction

/-- Runs a transaction on a store. -/
def commit {α : Type} (t : Transaction α) (s : Store) : Except StateError α × Store :=
  match t s with
  | .ok (a, s') => (.ok a, s')
  | .error e => (.error e, s)

/-- A transaction that only reads. -/
def reading {α : Type} (read : Store → Except StateError α) : Transaction α :=
  fun s => (read s).map fun a => (a, s)

variable {D : Type} [Document D]

/-! ## Reading -/

/-- The documents for which a test holds. -/
def matching (test : D → Bool) : Transaction (List D) :=
  reading fun s => (s.documents D).map (·.filter test)

/-- The document under a key. -/
def find? (key : String) : Transaction (Option D) := reading (·.document? key)

/-- The complaint that there is no document under a key. -/
def missing (kind key : String) : StateError := .notFound (kind ++ " " ++ key)

/-- The document under a key, which has to exist. -/
def require (key : String) : Transaction D := do
  match ← find? key with
  | some d => return d
  | none => throw (missing (Document.kind D) key)

/-! ## Writing -/

/-- Puts a document under its key, whatever is there. -/
def put (d : D) : Transaction Unit := modify (·.put d)

/-- Puts a document under its key, where nothing may be yet. -/
def insertNew (d : D) : Transaction Unit := do
  match ← find? (D := D) (Document.key d) with
  | some _ => throw (.identifierTaken (Document.kind D ++ " " ++ Document.key d))
  | none => put d

/-- The next number for an ordinal claim. Behind the greatest number comes zero. -/
def nextClaim : Transaction UInt64 := do
  let claim := (← get).ordinalClaims.getD 0 + 1
  modify fun s => { s with ordinalClaims := some claim }
  return claim

/-! ## Documents as a caller sees them -/

/-- The document under a key as of a time. -/
def fetch? (now : Millis) (key : String) : Transaction (Option D) := do
  return (← find? key).map (Document.refresh now)

/-- The document under a key as of a time, which has to exist. -/
def fetch (now : Millis) (key : String) : Transaction D := do
  return Document.refresh now (← require key)

/-- The documents for which a test holds, as of a time. The test sees them as they are stored. -/
def scan (now : Millis) (test : D → Bool) : Transaction (List D) := do
  return (← matching test).map (Document.refresh now)

/-- The number of documents for which a test holds. -/
def count (test : D → Bool) : Transaction Nat := do return (← matching test).length

/-! ## Reading and writing -/

/-- Changes the document under a key. -/
def update (now : Millis) (key : String) (change : D → Transaction D) : Transaction D := do
  let d ← change (← require key)
  -- derived fields are stored as they are, and renewed in the answer only
  put d
  return Document.refresh now d

/-- Changes the first document in an order for which a test holds, if there is one. -/
def updateFirst (now : Millis) (test : D → Bool) (order : D → D → Ordering) (change : D → D) :
    Transaction (Option D) := do
  match least? order (← matching test) with
  | none => return none
  | some d =>
    put (change d)
    return some (Document.refresh now (change d))

/-- Changes every document for which a test holds and tells their number. -/
def updateAll (test : D → Bool) (change : D → D) : Transaction Nat := do
  -- all are read before the first is written
  let found ← matching test
  modify (·.putAll (found.map change))
  return found.length

end Transaction

end Fleet
