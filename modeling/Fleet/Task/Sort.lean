import Fleet.Task.Basic
import Fleet.Listing.Order

/-!
# Sort fields of tasks

The fields by which tasks can be listed. Stages are compared by their place in the order of work and
not by name, creation times as signed numbers of sixty-four bits, and a missing holder as the empty
text.
-/

set_option autoImplicit false

namespace Fleet

inductive TaskSort where
  | id | job | process | user | dataset | model | objective
  | quality | qualityTrain | qualityExpected
  | creationTime | status | stage
deriving DecidableEq, Repr

namespace TaskSort

def all : List TaskSort :=
  [.id, .job, .process, .user, .dataset, .model, .objective, .quality, .qualityTrain,
    .qualityExpected, .creationTime, .status, .stage]

def name : TaskSort → String
  | .id => "id"
  | .job => "job"
  | .process => "process"
  | .user => "user"
  | .dataset => "dataset"
  | .model => "model"
  | .objective => "objective"
  | .quality => "quality"
  | .qualityTrain => "quality-train"
  | .qualityExpected => "quality-expected"
  | .creationTime => "creation-time"
  | .status => "status"
  | .stage => "stage"

/-- The sort field of a name. -/
def read (s : String) : Except StateError TaskSort :=
  match all.find? (·.name == s) with
  | some field => .ok field
  | none => .error (.badInput ("invalid task sort field " ++ Text.quoted s))

instance : SortField TaskSort Task where
  kind
    | .quality | .qualityTrain | .qualityExpected => .float
    | .creationTime | .stage => .int
    | _ => .text
  value
    | .id, t => .text t.id
    | .job, t => .text t.job
    | .process, t => .text (t.process.getD "")
    | .user, t => .text t.user
    | .dataset, t => .text t.dataset
    | .model, t => .text t.model
    | .objective, t => .text t.objective
    | .quality, t => .float t.quality
    | .qualityTrain, t => .float t.qualityTrain
    | .qualityExpected, t => .float t.qualityExpected
    | .creationTime, t => .int t.creationTime.toInt64
    | .status, t => .text (Named.name t.status)
    | .stage, t => .int (Int64.ofNat t.stage.rank)

end TaskSort

end Fleet
