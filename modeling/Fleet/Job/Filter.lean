import Fleet.Job.Basic

/-!
# Filters on jobs

A filter is a key with a value, as a query writes it. All filters of a query have to hold. The keys
`model` and `alt-objective` ask whether a job lists the value.
-/

set_option autoImplicit false

namespace Fleet

inductive JobFilter where
  | id (id : String)
  | user (user : String)
  | dataset (dataset : String)
  | objective (objective : String)
  | status (status : JobStatus)
  | acceptNewModels (accept : Bool)
  | model (model : String)
  | altObjective (objective : String)
  | process (holder : String)
deriving DecidableEq, Repr

namespace JobFilter

/-- The filter that a key and a value write. -/
def read (key value : String) : Except StateError JobFilter :=
  match key with
  | "id" => .ok (.id value)
  | "user" => .ok (.user value)
  | "dataset" => .ok (.dataset value)
  | "objective" => .ok (.objective value)
  | "status" => (Named.read value).map .status
  | "accept-new-models" =>
    match value with
    | "true" => .ok (.acceptNewModels true)
    | "false" => .ok (.acceptNewModels false)
    | value => .error (.badInput ("invalid accept-new-models " ++ Text.quoted value))
  | "model" => .ok (.model value)
  | "alt-objective" => .ok (.altObjective value)
  | "process" => .ok (.process value)
  | key => .error (.badInput ("unsupported job filter " ++ Text.quoted key))

def holds (j : Job) : JobFilter → Bool
  | .id v => j.id == v
  | .user v => j.user == v
  | .dataset v => j.dataset == v
  | .objective v => j.objective == v
  | .status v => j.status == v
  | .acceptNewModels v => j.acceptNewModels == v
  | .model v => j.models.contains v
  | .altObjective v => j.altObjectives.contains v
  | .process v => j.process == some v

end JobFilter

/-- Whether a job passes every filter. -/
def Job.passes (filters : List JobFilter) (j : Job) : Bool := filters.all (·.holds j)

end Fleet
