import Fleet.Task.Basic

/-!
# Filters on tasks

A filter is a key with a value, as a query writes it. All filters of a query have to hold. The key
`alt-objective` asks whether a task lists the value.
-/

set_option autoImplicit false

namespace Fleet

inductive TaskFilter where
  | id (id : String)
  | job (job : String)
  | process (holder : String)
  | user (user : String)
  | dataset (dataset : String)
  | model (model : String)
  | objective (objective : String)
  | status (status : TaskStatus)
  | stage (stage : TaskStage)
  | altObjective (objective : String)
deriving DecidableEq, Repr

namespace TaskFilter

/-- The filter that a key and a value write. -/
def read (key value : String) : Except StateError TaskFilter :=
  match key with
  | "id" => .ok (.id value)
  | "job" => .ok (.job value)
  | "process" => .ok (.process value)
  | "user" => .ok (.user value)
  | "dataset" => .ok (.dataset value)
  | "model" => .ok (.model value)
  | "objective" => .ok (.objective value)
  | "status" => (Named.read value).map .status
  | "stage" => (Named.read value).map .stage
  | "alt-objective" => .ok (.altObjective value)
  | key => .error (.badInput ("unsupported task filter " ++ Text.quoted key))

def holds (t : Task) : TaskFilter → Bool
  | .id v => t.id == v
  | .job v => t.job == v
  | .process v => t.process == some v
  | .user v => t.user == v
  | .dataset v => t.dataset == v
  | .model v => t.model == v
  | .objective v => t.objective == v
  | .status v => t.status == v
  | .stage v => t.stage == v
  | .altObjective v => t.altObjectives.contains v

end TaskFilter

/-- Whether a task passes every filter. -/
def Task.passes (filters : List TaskFilter) (t : Task) : Bool := filters.all (·.holds t)

end Fleet
