import Fleet.Job.Basic

/-!
# The life of a job

A job starts out running. Pausing, resuming and terminating are under way until the job's tasks
have followed, and an error may end everything:

```
scheduled, resuming          to  running
running                      to  pausing, completed
pausing                      to  paused
pausing, paused              to  resuming
running, pausing, paused     to  terminating
terminating                  to  terminated
any                          to  error
```

A change of status stamps the time it owns: entering `running` its start unless there is one,
entering `paused` the start of the pause, entering a final status the end unless there is one.
Leaving `paused` adds the pause to those before. Staying is always allowed and changes nothing.
-/

set_option autoImplicit false

namespace Fleet

/-- Whether a job may go from one status to another one, or stay. -/
def JobStatus.canBecome (source target : JobStatus) : Bool :=
  source == target || match source, target with
    | _, .error => true
    | .scheduled, .running | .resuming, .running => true
    | .running, .pausing | .running, .completed | .running, .terminating => true
    | .pausing, .paused | .pausing, .resuming | .pausing, .terminating => true
    | .paused, .resuming | .paused, .terminating => true
    | .terminating, .terminated => true
    | _, _ => false

namespace Job

/-- Closes the pause of a paused job. -/
def closePause (now : Millis) (j : Job) : Job :=
  match j.status, j.pauseStartTime with
  | .paused, some start =>
    { j with
      pauseStartTime := none
      prevPauseDuration := j.prevPauseDuration.plus (now.minus start) }
  | _, _ => j

/-- Stamps the time that a job enters a status. -/
def stamp (target : JobStatus) (now : Millis) (j : Job) : Job :=
  match target with
  | .running => { j with runningTime.start := some (j.runningTime.start.getD now) }
  | .paused => { j with pauseStartTime := some now }
  | .completed | .terminated | .error =>
    { j with runningTime.stop := some (j.runningTime.stop.getD now) }
  | _ => j

/-- The refusal of a change of status. -/
def cannotBecome (j : Job) (target : JobStatus) : StateError :=
  .badInput ("job " ++ j.id ++ " cannot go from " ++ Named.name j.status ++ " to "
    ++ Named.name target)

/-- Moves a job to a status. -/
def applyStatus (target : JobStatus) (now : Millis) (j : Job) : Except StateError Job :=
  if j.status = target then .ok j
  else if j.status.canBecome target then
    -- the pause is closed under the old status, before the new one is stamped
    .ok ({ (j.closePause now).stamp target now with status := target }.refresh now)
  else .error (j.cannotBecome target)

end Job

end Fleet
