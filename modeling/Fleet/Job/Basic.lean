import Fleet.Named
import Fleet.Json.Record
import Fleet.Dict

/-!
# Jobs

A job searches for a good model of a dataset. It lists candidate models, and from their
configuration definitions it derives one configuration space; a caller may override the definition
of a model for one job. Its times are stamps: when it was created, when it started and ended
running, since when it pauses and how long it paused before. The two durations are derived from the
stamps (`Job.refresh`) and stored for readers only.
-/

set_option autoImplicit false

namespace Fleet

inductive JobStatus where
  | scheduled | running | pausing | paused | resuming | completed | terminating | terminated | error
deriving DecidableEq, Repr

instance : Named JobStatus where
  label := "job status"
  all := [.scheduled, .running, .pausing, .paused, .resuming, .completed, .terminating, .terminated,
    .error]
  name
    | .scheduled => "scheduled"
    | .running => "running"
    | .pausing => "pausing"
    | .paused => "paused"
    | .resuming => "resuming"
    | .completed => "completed"
    | .terminating => "terminating"
    | .terminated => "terminated"
    | .error => "error"

/-- A job in this status still takes newly activated models. -/
def JobStatus.isOpen : JobStatus → Bool
  | .scheduled | .running | .pausing | .paused | .resuming => true
  | _ => false

/-- Definitions that replace those of models, by model. -/
abbrev Overrides := Dict String

structure Job where
  id : String
  user : String
  dataset : String
  models : List String
  /-- Derived from `models`, as JSON text. -/
  configSpace : String
  configOverrides : Overrides
  acceptNewModels : Bool
  objective : String
  altObjectives : List String
  maxTasks : UInt64
  creationTime : Millis
  runningTime : TimeInterval
  runningDuration : Millis
  pauseStartTime : Option Millis
  pauseDuration : Millis
  prevPauseDuration : Millis
  status : JobStatus
  statusMessage : String
  /-- The holder of the lease. -/
  process : Option String
deriving DecidableEq, Repr

namespace Job

/-- Derives the durations as of `now`. -/
def refresh (now : Millis) (j : Job) : Job :=
  let currentPause : Millis := match j.status, j.pauseStartTime with
    | .paused, some start => now.minus start
    | _, _ => 0
  let pauseDuration := j.prevPauseDuration.plus currentPause
  { j with
    pauseDuration
    runningDuration := match j.runningTime.start with
      | some start => ((j.runningTime.stop.getD now).minus start).minus pauseDuration
      | none => 0 }

/-! ## The stored document -/

open Json

def toJson (j : Job) : Value := .object [
  ("id", .text j.id),
  ("user", .text j.user),
  ("dataset", .text j.dataset),
  ("models", ofTexts j.models),
  ("config-space", .text j.configSpace),
  ("config-overrides", .object (j.configOverrides.entries.map fun e => (e.1, .text e.2))),
  ("accept-new-models", .boolean j.acceptNewModels),
  ("objective", .text j.objective),
  ("alt-objectives", ofTexts j.altObjectives),
  ("max-tasks", ofUInt64 j.maxTasks),
  ("creation-time", ofUInt64 j.creationTime),
  ("running-time", ofInterval j.runningTime),
  ("running-duration", ofUInt64 j.runningDuration),
  ("pause-start-time", ofOption ofUInt64 j.pauseStartTime),
  ("pause-duration", ofUInt64 j.pauseDuration),
  ("prev-pause-duration", ofUInt64 j.prevPauseDuration),
  ("status", Named.toJson j.status),
  ("status-message", .text j.statusMessage),
  ("process", ofText? j.process)]

def override? : String × Outline → Option (String × String)
  | (name, v) => v.text?.map fun s => (name, s)

/-- Overrides from an object of texts. -/
def overrides? (o : Outline) : Option Overrides := do
  let members ← o.members?
  let entries ← members.mapM override?
  return Dict.ofList entries

open Json.Outline in
def ofJson? (o : Outline) : Option Job :=
  match o.fields? ["id", "user", "dataset", "models", "config-space", "config-overrides",
    "accept-new-models", "objective", "alt-objectives", "max-tasks", "creation-time",
    "running-time", "running-duration", "pause-start-time", "pause-duration",
    "prev-pause-duration", "status", "status-message", "process"] with
  | some [id, user, dataset, models, configSpace, configOverrides, acceptNewModels, objective,
      altObjectives, maxTasks, creationTime, runningTime, runningDuration, pauseStartTime,
      pauseDuration, prevPauseDuration, status, statusMessage, process] => do
    return {
      id := ← required text? id
      user := ← required text? user
      dataset := ← required text? dataset
      models := ← required texts? models
      configSpace := ← required text? configSpace
      configOverrides := ← defaulting Dict.empty overrides? configOverrides
      acceptNewModels := ← required boolean? acceptNewModels
      objective := ← required text? objective
      altObjectives := ← required texts? altObjectives
      maxTasks := ← required natural? maxTasks
      creationTime := ← required natural? creationTime
      runningTime := ← required interval? runningTime
      runningDuration := ← required natural? runningDuration
      pauseStartTime := ← omissible natural? pauseStartTime
      pauseDuration := ← required natural? pauseDuration
      prevPauseDuration := ← required natural? prevPauseDuration
      status := ← required Named.ofJson? status
      statusMessage := ← required text? statusMessage
      process := ← omissible text? process }
  | _ => none

end Job

end Fleet
