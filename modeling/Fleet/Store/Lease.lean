import Fleet.Store.Transaction

/-!
# Leases

A lease gives a document to one process. Taking one picks the first document without a holder in
the order of a listing and names the holder in the same transaction, so no two takers get the same
document. Only its holder gives a document back.
-/

set_option autoImplicit false

namespace Fleet.Transaction

variable {D : Type} [Leasable D]

/-- Leases the first free document for which a test holds; that there is none is no error. -/
def lease {S : Type} [SortField S D] (now : Millis) (test : D → Bool) (sort : Option S)
    (direction : Direction) (process : String) : Transaction (Option D) :=
  updateFirst now (fun d => (Leasable.holder d).isNone && test d) (compareDocs sort direction)
    (Leasable.withHolder (some process))

variable (D) in
/-- Gives the document under a key back, which the process has to hold. -/
def release (key process : String) : Transaction Unit := do
  -- whether there is no such document or another holder is not told
  let refusal : StateError :=
    .notFound (Document.kind D ++ " " ++ key ++ " leased by " ++ process)
  match ← find? (D := D) key with
  | none => throw refusal
  | some d =>
    if Leasable.holder d = some process then put (Leasable.withHolder none d)
    else throw refusal

variable (D) in
/-- Gives back all documents that a process holds and that may be given back in its place, and
tells their number. -/
def releaseHeld (process : String) : Transaction Nat :=
  updateAll (fun d : D => Leasable.holder d = some process && Leasable.releasable d)
    (Leasable.withHolder none)

end Fleet.Transaction
