import Fleet.Task.Basic

/-!
# The life of a task

Status and stage of a task are independent. The status follows orders and results:

```
scheduled, pausing, paused   to  running
running                      to  pausing, completed
pausing                      to  paused
running, pausing, paused     to  terminating
terminating                  to  terminated
scheduled                    to  canceled
any                          to  error
```

The stage only moves forward, possibly past a stage. Moving on closes the interval of the stage that
ends and opens that of the stage that begins, each unless it is stamped already. An error closes the
open interval and freezes the stage.
-/

set_option autoImplicit false

namespace Fleet

/-- Whether a task may go from one status to another one, or stay. -/
def TaskStatus.canBecome (source target : TaskStatus) : Bool :=
  source == target || match source, target with
    | _, .error => true
    | .scheduled, .running | .scheduled, .canceled => true
    | .running, .pausing | .running, .completed | .running, .terminating => true
    | .pausing, .running | .pausing, .paused | .pausing, .terminating => true
    | .paused, .running | .paused, .terminating => true
    | .terminating, .terminated => true
    | _, _ => false

namespace TimeInterval

/-- Stamps the start unless there is one. -/
def opened (now : Millis) (i : TimeInterval) : TimeInterval :=
  { i with start := some (i.start.getD now) }

/-- Stamps the end unless there is one. -/
def closed (now : Millis) (i : TimeInterval) : TimeInterval :=
  { i with stop := some (i.stop.getD now) }

end TimeInterval

namespace Task

/-- The refusal of a change of status. -/
def cannotBecome (t : Task) (target : TaskStatus) : StateError :=
  .badInput ("task " ++ t.id ++ " cannot go from " ++ Named.name t.status ++ " to "
    ++ Named.name target)

/-- Closes the interval of the stage in flight. -/
def abortStage (now : Millis) (t : Task) : Task :=
  { t with stageTimes := t.stageTimes.modify t.stage fun i =>
      if i.start.isSome then i.closed now else i }

/-- Moves a task to a status. -/
def applyStatus (target : TaskStatus) (now : Millis) (t : Task) : Except StateError Task :=
  if t.status = target then .ok t
  else if t.status.canBecome target then
    -- a task that fails leaves its stage where it is, with its interval closed
    let t := if target = .error then t.abortStage now else t
    .ok { t with status := target }.refresh
  else .error (t.cannotBecome target)

/-- Moves a task on to a stage. -/
def applyStage (target : TaskStage) (now : Millis) (t : Task) : Except StateError Task :=
  if t.stage = target then .ok t
  else if t.status = .error then
    .error (.badInput ("task " ++ t.id ++ " is in error, its stage is frozen"))
  else if target.rank < t.stage.rank then
    .error (.badInput ("task " ++ t.id ++ " cannot go back from stage " ++ Named.name t.stage
      ++ " to " ++ Named.name target))
  else
    .ok { t with
      stageTimes := (t.stageTimes.modify t.stage (·.closed now)).modify target (·.opened now)
      stage := target }.refresh

end Task

end Fleet
