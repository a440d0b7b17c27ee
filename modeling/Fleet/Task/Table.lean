import Fleet.Caller
import Fleet.Job.Basic
import Fleet.Listing.Page
import Fleet.Store.Lease
import Fleet.Task.Filter
import Fleet.Task.Lifecycle
import Fleet.Task.Sort

/-!
# The table of tasks

What is done with the documents of tasks, each in one transaction. A task belongs to a running job
and takes over the job's owner, dataset and objectives; its number is one more than that of the tasks
the job has. Callers see tasks as they see jobs.

A change of a job's status reaches its tasks by a *cascade*: all tasks of the job in one of some
statuses go to another status at once, and nothing else about them changes.
-/

set_option autoImplicit false

namespace Fleet

/-- What a caller says of a task to create. -/
structure NewTask where
  job : String := ""
  model : String := ""
  config : String := ""
deriving DecidableEq, Repr

/-- A change of the fields that are given. -/
structure TaskUpdate where
  quality : Option Binary64 := none
  qualityTrain : Option Binary64 := none
  qualityExpected : Option Binary64 := none
  altQualities : Option (List Binary64) := none
  status : Option TaskStatus := none
  stage : Option TaskStage := none
  statusMessage : Option String := none
deriving DecidableEq, Repr

namespace Task

open Transaction

/-- The task of a job with a sequence number, as it is at first. -/
def initial (now : Millis) (j : Job) (sequence : Nat) (new : NewTask) : Task where
  id := taskId j.id sequence
  job := j.id
  process := none
  user := j.user
  dataset := j.dataset
  model := new.model
  objective := j.objective
  altObjectives := j.altObjectives
  config := new.config
  quality := .zero
  qualityTrain := .zero
  qualityExpected := .zero
  altQualities := []
  status := .scheduled
  statusMessage := ""
  stage := .begin
  stageTimes := {}
  stageDurations := {}
  creationTime := now
  runningDuration := 0

/-- Adds the next task of a running job that the caller sees. -/
def create (now : Millis) (caller : Caller) (new : NewTask) : Transaction Task := do
  match (← find? new.job).filter fun j : Job => caller.canSee j.user with
  | none => throw (missing "job" new.job)
  | some j =>
    if j.status != .running then
      throw (.badInput ("job " ++ j.id ++ " is " ++ Named.name j.status ++ ", not running"))
    else if !j.models.contains new.model then
      throw (.badInput ("job " ++ j.id ++ " does not list model " ++ new.model))
    else
      -- tasks are never deleted, so the number behind that of the last one is free
      let siblings ← matching fun t : Task => t.job == j.id
      let t := initial now j (siblings.length + 1) new
      insertNew t
      return t.refresh

/-! ## Looking -/

/-- The task under an id, if the caller sees it. -/
def fetchVisible (now : Millis) (caller : Caller) (id : String) : Transaction Task := do
  match ← fetch? now id with
  -- a task of someone else is missing in the same words
  | some t => if caller.canSee t.user then return t else throw (missing "task" id)
  | none => throw (missing "task" id)

/-- A task that the caller sees and that passes the filters. -/
def isListed (caller : Caller) (filters : List TaskFilter) (t : Task) : Bool :=
  caller.canSee t.user && t.passes filters

def list (now : Millis) (caller : Caller) (filters : List TaskFilter) (q : ListQuery TaskSort) :
    Transaction (Page Task) := do
  liftM (paginate (← scan now (isListed caller filters)) q)

def countAll (caller : Caller) (filters : List TaskFilter) : Transaction Nat :=
  count (isListed caller filters)

/-! ## Updating -/

/-- Sets the given fields that nothing has to be asked for. -/
def assign (u : TaskUpdate) (t : Task) : Task :=
  { t with
    quality := u.quality.getD t.quality
    qualityTrain := u.qualityTrain.getD t.qualityTrain
    qualityExpected := u.qualityExpected.getD t.qualityExpected
    altQualities := u.altQualities.getD t.altQualities
    statusMessage := u.statusMessage.getD t.statusMessage }

/-- Changes a task as told: its stage before its status, so that one change can both finish a stage
and fail the task. -/
def apply (now : Millis) (u : TaskUpdate) (t : Task) : Except StateError Task := do
  let t := t.assign u
  let t ← match u.stage with
    | some stage => t.applyStage stage now
    | none => .ok t
  match u.status with
  | some status => t.applyStatus status now
  | none => .ok t

/-- Changes the task under an id on behalf of a caller. -/
def change (now : Millis) (caller : Caller) (id : String) (u : TaskUpdate) : Transaction Task :=
  update now id fun t => do
    liftM (caller.authorize "task" t.id t.user)
    liftM (apply now u t)

/-! ## Leases -/

/-- Leases the first free task that passes the filters. -/
def leaseFirst (now : Millis) (filters : List TaskFilter) (sort : Option TaskSort)
    (direction : Direction) (process : String) : Transaction (Option Task) :=
  lease now (passes filters) sort direction process

/-! ## Cascades -/

/-- Moves every task of a job that is in one of some statuses to another one and tells their
number. -/
def cascade (job : String) (sources : List TaskStatus) (target : TaskStatus) : Transaction Nat :=
  updateAll (fun t : Task => t.job == job && sources.contains t.status)
    fun t => { t with status := target }

def pauseAll (job : String) : Transaction Nat := cascade job [.scheduled, .running] .pausing

def resumeAll (job : String) : Transaction Nat := cascade job [.pausing, .paused] .scheduled

def terminateAll (job : String) : Transaction Nat :=
  cascade job [.scheduled, .running, .pausing, .paused] .terminating

end Task

end Fleet
