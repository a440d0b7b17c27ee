import Fleet.Store.Session
import Fleet.Task.Table

/-!
# Settling tasks

A task that pauses or terminates is settled like a job, with no cascade before it: a maintainer
leases it, moves it to the status in which it settles, and gives the lease back.
-/

set_option autoImplicit false

namespace Fleet

/-- The statuses that a maintainer settles, in the order in which it looks for them. -/
def TaskStatus.transitional : List TaskStatus := [.pausing, .terminating]

/-- Where a task in a transitional status settles. -/
def TaskStatus.settled? : TaskStatus → Option TaskStatus
  | .pausing => some .paused
  | .terminating => some .terminated
  | _ => none

/-- What a maintainer knows of the task that it settles. -/
structure TaskSettlement where
  /-- The process that holds the lease. -/
  process : String
  task : String
  status : TaskStatus
deriving DecidableEq, Repr

namespace TaskSettlement

inductive Phase where
  /-- Moves the task next. -/
  | changing (target : TaskStatus)
  /-- Gives the lease back next. -/
  | releasing
  | finished
deriving DecidableEq, Repr

/-- A task in no transitional status is given back as it is. -/
def start (t : TaskSettlement) : Phase :=
  match t.status.settled? with
  | some target => .changing target
  | none => .releasing

/-- The next transaction of a settlement. -/
def step (now : Millis) (t : TaskSettlement) (s : Store) : Phase → Phase × Store
  | .changing target =>
    (.releasing, ((Task.change now .root t.task { status := some target }).commit s).2)
  | .releasing => (.finished, ((Transaction.release Task t.task t.process).commit s).2)
  | .finished => (.finished, s)

/-- Runs a settlement for some transactions. -/
def advance (now : Millis) (t : TaskSettlement) : (count : Nat) → Phase × Store → Phase × Store
  | 0, place => place
  | count + 1, (phase, s) => advance now t count (t.step now s phase)

/-- Runs a settlement to its end, which takes two transactions at most. -/
def settle (now : Millis) (t : TaskSettlement) (s : Store) : Store :=
  (t.advance now 2 (t.start, s)).2

end TaskSettlement

/-! ## The maintainer -/

/-- Leases the task that is longest in existence among the free ones in a status. A failure counts
as finding none. -/
def leaseTaskForSettlement (now : Millis) (process : String) (status : TaskStatus) (s : Store) :
    Option TaskSettlement × Store :=
  match (Task.leaseFirst now [.status status] (some .creationTime) .ascending process).commit s with
  | (.ok (some t), s) => (some ⟨process, t.id, t.status⟩, s)
  | (_, s) => (none, s)

/-- Leases one task for each of some statuses. -/
def leaseTransitionalTasks (now : Millis) (process : String) :
    List TaskStatus → Store → List TaskSettlement × Store
  | [], s => ([], s)
  | status :: rest, s =>
    let (found, s) := leaseTaskForSettlement now process status s
    let (others, s) := leaseTransitionalTasks now process rest s
    (found.toList ++ others, s)

/-- One look of the maintainer: leases at most one task for each transitional status, settles them
one after the other, and tells their number. -/
def pollTasks (now : Millis) (process : String) (s : Store) : Nat × Store :=
  let (leased, s) := leaseTransitionalTasks now process TaskStatus.transitional s
  (leased.length, leased.foldl (fun s t => t.settle now s) s)

end Fleet
