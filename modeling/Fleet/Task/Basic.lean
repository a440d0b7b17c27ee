import Fleet.Named
import Fleet.Json.Record
import Fleet.Text.Numeral

/-!
# Tasks

A task trains and evaluates one model configuration for a job. Its status says whether it is at
work, its stage how far the work got; the three timed stages have an interval each. The durations
are derived from the intervals (`Task.refresh`).

The id of a task is the id of its job, a slash and a number of at least ten digits, so that the
tasks of a job lie together in the order of their numbers; `Task.sequence?` reads the number back.
-/

set_option autoImplicit false

namespace Fleet

inductive TaskStatus where
  | scheduled | running | pausing | paused | completed | terminating | terminated | canceled | error
deriving DecidableEq, Repr

instance : Named TaskStatus where
  label := "task status"
  all := [.scheduled, .running, .pausing, .paused, .completed, .terminating, .terminated, .canceled,
    .error]
  name
    | .scheduled => "scheduled"
    | .running => "running"
    | .pausing => "pausing"
    | .paused => "paused"
    | .completed => "completed"
    | .terminating => "terminating"
    | .terminated => "terminated"
    | .canceled => "canceled"
    | .error => "error"

/-- How far the work on a task got, apart from its status. -/
inductive TaskStage where
  | begin | training | predicting | evaluating | finished
deriving DecidableEq, Repr

instance : Named TaskStage where
  label := "task stage"
  all := [.begin, .training, .predicting, .evaluating, .finished]
  name
    | .begin => "begin"
    | .training => "training"
    | .predicting => "predicting"
    | .evaluating => "evaluating"
    | .finished => "end"

/-- The place of a stage in the order of work. -/
def TaskStage.rank : TaskStage → Nat
  | .begin => 0
  | .training => 1
  | .predicting => 2
  | .evaluating => 3
  | .finished => 4

structure StageTimes where
  training : TimeInterval := {}
  predicting : TimeInterval := {}
  evaluating : TimeInterval := {}
deriving DecidableEq, Repr

namespace StageTimes

/-- The interval of a timed stage. -/
def interval? (t : StageTimes) : TaskStage → Option TimeInterval
  | .training => some t.training
  | .predicting => some t.predicting
  | .evaluating => some t.evaluating
  | .begin | .finished => none

/-- Changes the interval of a timed stage; the first and the last stage have none. -/
def modify (t : StageTimes) (stage : TaskStage) (f : TimeInterval → TimeInterval) : StageTimes :=
  match stage with
  | .training => { t with training := f t.training }
  | .predicting => { t with predicting := f t.predicting }
  | .evaluating => { t with evaluating := f t.evaluating }
  | .begin | .finished => t

end StageTimes

structure StageDurations where
  training : Millis := 0
  predicting : Millis := 0
  evaluating : Millis := 0
deriving DecidableEq, Repr

structure Task where
  id : String
  job : String
  /-- The holder of the lease. -/
  process : Option String
  user : String
  dataset : String
  model : String
  objective : String
  altObjectives : List String
  config : String
  quality : Binary64
  qualityTrain : Binary64
  qualityExpected : Binary64
  altQualities : List Binary64
  status : TaskStatus
  statusMessage : String
  stage : TaskStage
  stageTimes : StageTimes
  stageDurations : StageDurations
  creationTime : Millis
  runningDuration : Millis
deriving DecidableEq, Repr

open Text in
/-- The id of the task of a job with a sequence number. -/
def taskId (job : String) (sequence : Nat) : String :=
  job ++ "/" ++ String.ofList (padded 10 sequence)

namespace Task

/-- Derives the durations. -/
def refresh (t : Task) : Task :=
  let d : StageDurations := {
    training := t.stageTimes.training.closedLength
    predicting := t.stageTimes.predicting.closedLength
    evaluating := t.stageTimes.evaluating.closedLength }
  { t with stageDurations := d, runningDuration := d.training + d.predicting + d.evaluating }

/-- The characters behind the last slash, if there is one. -/
def afterLastSlash? (cs : List Char) : Option (List Char) :=
  if cs.contains '/' then some (cs.reverse.takeWhile (· != '/')).reverse else none

/-- The sequence number in the id, of sixty-four bits. -/
def sequence? (t : Task) : Option Nat :=
  (afterLastSlash? t.id.toList).bind (Text.natural? (2 ^ 64 - 1))

/-! ## The stored document -/

open Json

def ofStageTimes (t : StageTimes) : Value := .object [
  ("training", ofInterval t.training),
  ("predicting", ofInterval t.predicting),
  ("evaluating", ofInterval t.evaluating)]

def ofStageDurations (d : StageDurations) : Value := .object [
  ("training", ofUInt64 d.training),
  ("predicting", ofUInt64 d.predicting),
  ("evaluating", ofUInt64 d.evaluating)]

/-- The document, with the qualities written by `float`. -/
def toJsonWith (float : Binary64 → Value) (t : Task) : Value := .object [
  ("id", .text t.id),
  ("job", .text t.job),
  ("process", ofText? t.process),
  ("user", .text t.user),
  ("dataset", .text t.dataset),
  ("model", .text t.model),
  ("objective", .text t.objective),
  ("alt-objectives", ofTexts t.altObjectives),
  ("config", .text t.config),
  ("quality", float t.quality),
  ("quality-train", float t.qualityTrain),
  ("quality-expected", float t.qualityExpected),
  ("alt-qualities", ofList float t.altQualities),
  ("status", Named.toJson t.status),
  ("status-message", .text t.statusMessage),
  ("stage", Named.toJson t.stage),
  ("stage-times", ofStageTimes t.stageTimes),
  ("stage-durations", ofStageDurations t.stageDurations),
  ("creation-time", ofUInt64 t.creationTime),
  ("running-duration", ofUInt64 t.runningDuration)]

/-- The document with its qualities as numbers. -/
def toJson : Task → Value := toJsonWith ofFloat

open Json.Outline in
def stageTimes? (o : Outline) : Option StageTimes :=
  match o.fields? ["training", "predicting", "evaluating"] with
  | some [training, predicting, evaluating] => do
    return {
      training := ← required interval? training
      predicting := ← required interval? predicting
      evaluating := ← required interval? evaluating }
  | _ => none

open Json.Outline in
def stageDurations? (o : Outline) : Option StageDurations :=
  match o.fields? ["training", "predicting", "evaluating"] with
  | some [training, predicting, evaluating] => do
    return {
      training := ← required natural? training
      predicting := ← required natural? predicting
      evaluating := ← required natural? evaluating }
  | _ => none

open Json.Outline in
def ofJson? (o : Outline) : Option Task :=
  match o.fields? ["id", "job", "process", "user", "dataset", "model", "objective",
    "alt-objectives", "config", "quality", "quality-train", "quality-expected", "alt-qualities",
    "status", "status-message", "stage", "stage-times", "stage-durations", "creation-time",
    "running-duration"] with
  | some [id, job, process, user, dataset, model, objective, altObjectives, config, quality,
      qualityTrain, qualityExpected, altQualities, status, statusMessage, stage, stageTimes,
      stageDurations, creationTime, runningDuration] => do
    return {
      id := ← required text? id
      job := ← required text? job
      process := ← omissible text? process
      user := ← required text? user
      dataset := ← required text? dataset
      model := ← required text? model
      objective := ← required text? objective
      altObjectives := ← required texts? altObjectives
      config := ← required text? config
      quality := ← required float? quality
      qualityTrain := ← required float? qualityTrain
      qualityExpected := ← required float? qualityExpected
      altQualities := ← required (list? float?) altQualities
      status := ← required Named.ofJson? status
      statusMessage := ← required text? statusMessage
      stage := ← required Named.ofJson? stage
      stageTimes := ← required stageTimes? stageTimes
      stageDurations := ← required stageDurations? stageDurations
      creationTime := ← required natural? creationTime
      runningDuration := ← required natural? runningDuration }
  | _ => none

end Task

end Fleet
