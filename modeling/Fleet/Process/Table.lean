import Fleet.Process.Filter
import Fleet.Process.Sort
import Fleet.Store.Transaction
import Fleet.Listing.Page

/-!
# The table of processes

What is done with the documents of processes, each in one transaction. Processes are seen by every
caller. Taking an ordinal, at the start or later, draws a new number for the claim in the same
transaction.
-/

set_option autoImplicit false

namespace Fleet

/-- What a process says of itself when it starts. -/
structure NewProcess where
  processId : UInt32
  hostId : String
  hostAddress : String
  kind : ProcessKind
  resource : String
  runningOrdinal : UInt32
deriving DecidableEq, Repr

namespace Process

open Transaction

/-- Adds a process that starts now, under a new id. -/
def create (now : Millis) (id : String) (new : NewProcess) : Transaction Process := do
  -- the first claim of the process is that of its creation
  let ordinalClaim ← nextClaim
  let p : Process := {
    id
    processId := new.processId
    hostId := new.hostId
    hostAddress := new.hostAddress
    startTime := now
    lastKeepalive := now
    kind := new.kind
    resource := new.resource
    status := .idle
    runningOrdinal := new.runningOrdinal
    ordinalClaim }
  insertNew p
  return p

/-! ## Listing -/

def list (now : Millis) (filters : List ProcessFilter) (q : ListQuery ProcessSort) :
    Transaction (Page Process) := do
  liftM (paginate (← scan now (passes filters)) q)

def countAll (filters : List ProcessFilter) : Transaction Nat := count (passes filters)

/-- The live processes of a kind. -/
def live (now : Millis) (kind : ProcessKind) : Transaction (List Process) :=
  scan now fun p => p.kind == kind && p.isLive

/-! ## Changes -/

/-- Moves a process to an ordinal. -/
def claimOrdinal (now : Millis) (id : String) (ordinal : UInt32) : Transaction Process :=
  update now id fun p => do
    return { p with runningOrdinal := ordinal, ordinalClaim := ← nextClaim }

/-- Records that a process is alive. -/
def keepalive (now : Millis) (id : String) : Transaction Process :=
  update now id fun p => pure { p with lastKeepalive := now }

def setStatus (now : Millis) (id : String) (status : ProcessStatus) : Transaction Process :=
  update now id fun p => pure { p with status }

/-- The last sign of life of a live process is older than a time. -/
def isStale (cutoff : Millis) (p : Process) : Bool := p.isLive && p.lastKeepalive < cutoff

/-- The order of last signs of life, the oldest first. -/
def orderByKeepalive (a b : Process) : Ordering :=
  (compare a.lastKeepalive b.lastKeepalive).then (compare a.id b.id)

/-- Terminates the stale process that was silent for longest, if there is one. -/
def terminateStale (now cutoff : Millis) : Transaction (Option Process) :=
  updateFirst now (isStale cutoff) orderByKeepalive fun p => { p with status := .terminated }

end Process

end Fleet
