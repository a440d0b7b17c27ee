import Fleet.Job.Table
import Fleet.Store.Session

/-!
# New models for open jobs

When a model becomes active, the open jobs that accept new models and can use it get it: those on a
validated dataset whose schemas are the model's, and which do not list the model yet. Each job is
changed in a transaction of its own, which looks again whether the job still qualifies. A job that
cannot take the model is reported and keeps nobody else from taking it.
-/

set_option autoImplicit false

namespace Fleet

/-- What became of the jobs that could use a model. -/
structure FanOut where
  model : String
  updated : List String := []
  failed : List String := []
deriving DecidableEq, Repr

/-- A model can be trained on a validated dataset with its own schemas. -/
def Dataset.fits (m : Module) (d : Dataset) : Bool :=
  d.status == .validated && d.schemaIn == m.schemaIn && d.schemaOut == m.schemaOut

namespace Job

open Transaction Session

/-- The job should get a model that can be trained on these datasets. -/
def wants (model : String) (datasets : List String) (j : Job) : Bool :=
  j.status.isOpen && j.acceptNewModels && datasets.contains j.dataset && !j.models.contains model

/-- The ids of the jobs that should get a model. -/
def applicable (now : Millis) (model : String) : Session StateError (List String) := do
  let m ← transact (fetch (D := Module) now model)
  if m.kind != .model || m.status != .active then
    throw (.badInput ("module " ++ model ++ " is not an active model"))
  let datasets ← transact (scan now (Dataset.fits m))
  let jobs ← transact (scan now (wants model (datasets.map (·.id))))
  return jobs.map (·.id)

/-- Appends a model to the job under an id if the job still qualifies, and tells whether it did. -/
def appendModel (id model : String) : Transaction Bool := do
  let j : Job ← require id
  let m ← requireModule model .model
  -- the job may have changed since it was found, so all is asked again
  let dataset : Option Dataset ← find? j.dataset
  let datasets := (dataset.filter (Dataset.fits m)).map (·.id)
  if j.wants model datasets.toList then
    let models := j.models ++ [model]
    let configSpace ← ConfigSpace.build j.id models j.configOverrides
    put { j with models, configSpace }
    return true
  else return false

/-- Appends a model to one job and reports what became of it. -/
def appendReporting (report : FanOut) (id : String) : Session StateError FanOut := do
  match ← attempt (transact (appendModel id report.model)) with
  | .ok true => return { report with updated := report.updated ++ [id] }
  | .ok false => return report
  | .error _ => return { report with failed := report.failed ++ [id] }

/-- Appends a model to every job that should get it. -/
def addModel (now : Millis) (model : String) : Session StateError FanOut := do
  (← applicable now model).foldlM appendReporting { model }

/-- Appends a model to every job that should get it, and tries each job that could not take it once
more. -/
def fanOut (now : Millis) (model : String) : Session StateError FanOut := do
  let report ← addModel now model
  report.failed.foldlM appendReporting { report with failed := [] }

end Job

end Fleet
