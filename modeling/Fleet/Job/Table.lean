import Fleet.Caller
import Fleet.Job.ConfigSpace
import Fleet.Job.Filter
import Fleet.Job.Lifecycle
import Fleet.Job.Sort
import Fleet.Listing.Page
import Fleet.Store.Lease

/-!
# The table of jobs

What is done with the documents of jobs, each in one transaction. A caller sees the own jobs and
those of the system, and to others a hidden job does not exist. Leases are taken whoever the owner
is, since those who take them work for the system.
-/

set_option autoImplicit false

namespace Fleet

/-- What a caller says of a job to create. -/
structure NewJob where
  dataset : String := ""
  models : List String := []
  configOverrides : Overrides := .empty
  acceptNewModels : Bool := false
  objective : String := ""
  altObjectives : List String := []
  /-- Zero for the default. -/
  maxTasks : UInt64 := 0
deriving DecidableEq, Repr

/-- A change of the fields that are given. -/
structure JobUpdate where
  models : Option (List String) := none
  configOverrides : Option Overrides := none
  acceptNewModels : Option Bool := none
  maxTasks : Option UInt64 := none
  status : Option JobStatus := none
  statusMessage : Option String := none
deriving DecidableEq, Repr

namespace Job

open Transaction

/-- The number of tasks of a job that does not say. -/
def defaultMaxTasks : UInt64 := 100

/-- Adds a job of the caller under a new id, running from now on. -/
def create (now : Millis) (id : String) (caller : Caller) (new : NewJob) : Transaction Job := do
  match ← find? (D := Dataset) new.dataset with
  | none => throw (.badInput ("dataset " ++ new.dataset ++ " does not exist"))
  | some d =>
    if d.status != .validated then
      throw (.badInput ("dataset " ++ d.id ++ " is " ++ Named.name d.status ++ ", not validated"))
  let _ ← requireModule new.objective .objective
  let _ ← new.altObjectives.mapM fun alt => requireModule alt .objective
  let configSpace ← ConfigSpace.build id new.models new.configOverrides
  let j : Job := {
    id
    user := caller.user
    dataset := new.dataset
    models := new.models
    configSpace
    configOverrides := new.configOverrides
    acceptNewModels := new.acceptNewModels
    objective := new.objective
    altObjectives := new.altObjectives
    -- zero is no wish
    maxTasks := if new.maxTasks = 0 then defaultMaxTasks else new.maxTasks
    creationTime := now
    runningTime := { start := some now }
    runningDuration := 0
    pauseStartTime := none
    pauseDuration := 0
    prevPauseDuration := 0
    status := .running
    statusMessage := ""
    process := none }
  insertNew j
  return j.refresh now

/-! ## Looking -/

/-- The job under an id, if the caller sees it. -/
def fetchVisible (now : Millis) (caller : Caller) (id : String) : Transaction Job := do
  match ← fetch? now id with
  -- a job of someone else is missing in the same words
  | some j => if caller.canSee j.user then return j else throw (missing "job" id)
  | none => throw (missing "job" id)

/-- A job that the caller sees and that passes the filters. -/
def isListed (caller : Caller) (filters : List JobFilter) (j : Job) : Bool :=
  caller.canSee j.user && j.passes filters

def list (now : Millis) (caller : Caller) (filters : List JobFilter) (q : ListQuery JobSort) :
    Transaction (Page Job) := do
  liftM (paginate (← scan now (isListed caller filters)) q)

def countAll (caller : Caller) (filters : List JobFilter) : Transaction Nat :=
  count (isListed caller filters)

/-! ## Updating -/

/-- Gives a job other models or definitions, and the configuration space that they make. -/
def rebuild (u : JobUpdate) (j : Job) : Transaction Job := do
  if u.models.isNone && u.configOverrides.isNone then return j
  else
    let j := { j with
      models := u.models.getD j.models
      configOverrides := u.configOverrides.getD j.configOverrides }
    -- all definitions are read again, also those of models that the job had before
    return { j with configSpace := ← ConfigSpace.build j.id j.models j.configOverrides }

/-- Sets the given fields that nothing has to be asked for. -/
def assign (u : JobUpdate) (j : Job) : Job :=
  { j with
    acceptNewModels := u.acceptNewModels.getD j.acceptNewModels
    maxTasks := u.maxTasks.getD j.maxTasks
    statusMessage := u.statusMessage.getD j.statusMessage }

/-- Changes a job as told, the status last. -/
def apply (now : Millis) (u : JobUpdate) (j : Job) : Transaction Job := do
  let j := (← rebuild u j).assign u
  match u.status with
  | some status => liftM (j.applyStatus status now)
  | none => return j

/-- Changes the job under an id on behalf of a caller. -/
def change (now : Millis) (caller : Caller) (id : String) (u : JobUpdate) : Transaction Job :=
  update now id fun j => do
    liftM (caller.authorize "job" j.id j.user)
    apply now u j

/-! ## Leases -/

/-- Leases the first free job that passes the filters. -/
def leaseFirst (now : Millis) (filters : List JobFilter) (sort : Option JobSort)
    (direction : Direction) (process : String) : Transaction (Option Job) :=
  lease now (passes filters) sort direction process

end Job

end Fleet
