import Fleet.Job.Table
import Fleet.Store.Session
import Fleet.Task.Table

/-!
# Settling jobs

A job that pauses, resumes or terminates does so until its tasks have followed. A maintainer leases
such a job, moves its tasks by the cascade of its status, moves the job to the status in which it
settles, and gives the lease back; the lease is given back also when one of the steps before fails.
Whatever interrupts a settlement, the job keeps its status until the tasks have moved, and the next
maintainer repeats the cascade.

The maintainer acts on the job as it leased it. `JobSettlement` says where a settlement stands
between two transactions, and `step` does the next one.
-/

set_option autoImplicit false

namespace Fleet

/-- The statuses that a maintainer settles, in the order in which it looks for them. -/
def JobStatus.transitional : List JobStatus := [.pausing, .resuming, .terminating]

/-- Where a job in a transitional status settles. -/
def JobStatus.settled? : JobStatus → Option JobStatus
  | .pausing => some .paused
  | .resuming => some .running
  | .terminating => some .terminated
  | _ => none

/-- What the tasks of a job in a status do, and how many it concerns. -/
def JobStatus.cascade (status : JobStatus) (job : String) : Transaction Nat :=
  match status with
  | .pausing => Task.pauseAll job
  | .resuming => Task.resumeAll job
  | .terminating => Task.terminateAll job
  | _ => pure 0

/-- What a maintainer knows of the job that it settles. -/
structure JobSettlement where
  /-- The process that holds the lease. -/
  process : String
  job : String
  status : JobStatus
deriving DecidableEq, Repr

namespace JobSettlement

inductive Phase where
  /-- Moves the tasks next. -/
  | cascading (target : JobStatus)
  /-- Moves the job next. -/
  | changing (target : JobStatus)
  /-- Gives the lease back next. -/
  | releasing
  | finished
deriving DecidableEq, Repr

/-- A job in no transitional status is given back as it is. -/
def start (j : JobSettlement) : Phase :=
  match j.status.settled? with
  | some target => .cascading target
  | none => .releasing

/-- The next transaction of a settlement. -/
def step (now : Millis) (j : JobSettlement) (s : Store) : Phase → Phase × Store
  | .cascading target =>
    match (j.status.cascade j.job).commit s with
    | (.ok _, s) => (.changing target, s)
    | (.error _, s) => (.releasing, s)
  -- refused or not, the job is given back next
  | .changing target =>
    (.releasing, ((Job.change now .root j.job { status := some target }).commit s).2)
  | .releasing => (.finished, ((Transaction.release Job j.job j.process).commit s).2)
  | .finished => (.finished, s)

/-- Runs a settlement for some transactions. -/
def advance (now : Millis) (j : JobSettlement) : (count : Nat) → Phase × Store → Phase × Store
  | 0, place => place
  | count + 1, (phase, s) => advance now j count (j.step now s phase)

/-- Runs a settlement to its end, which takes three transactions at most. -/
def settle (now : Millis) (j : JobSettlement) (s : Store) : Store :=
  (j.advance now 3 (j.start, s)).2

end JobSettlement

/-! ## The maintainer -/

/-- Leases the job that is longest in existence among the free ones in a status. A failure counts as
finding none. -/
def leaseJobForSettlement (now : Millis) (process : String) (status : JobStatus) (s : Store) :
    Option JobSettlement × Store :=
  match (Job.leaseFirst now [.status status] (some .creationTime) .ascending process).commit s with
  | (.ok (some j), s) => (some ⟨process, j.id, j.status⟩, s)
  | (_, s) => (none, s)

/-- Leases one job for each of some statuses. -/
def leaseTransitionalJobs (now : Millis) (process : String) :
    List JobStatus → Store → List JobSettlement × Store
  | [], s => ([], s)
  | status :: rest, s =>
    let (found, s) := leaseJobForSettlement now process status s
    let (others, s) := leaseTransitionalJobs now process rest s
    (found.toList ++ others, s)

/-- One look of the maintainer: leases at most one job for each transitional status, settles them
one after the other, and tells their number. -/
def pollJobs (now : Millis) (process : String) (s : Store) : Nat × Store :=
  let (leased, s) := leaseTransitionalJobs now process JobStatus.transitional s
  (leased.length, leased.foldl (fun s j => j.settle now s) s)

end Fleet
