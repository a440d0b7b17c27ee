import Fleet.Job.Basic
import Fleet.Listing.Order

/-!
# Sort fields of jobs

The fields by which jobs can be listed. Times are compared as signed numbers of sixty-four bits, a
missing one as zero.
-/

set_option autoImplicit false

namespace Fleet

inductive JobSort where
  | user | dataset | objective | creationTime | runningTimeStart | runningTimeEnd | status
deriving DecidableEq, Repr

namespace JobSort

def all : List JobSort :=
  [.user, .dataset, .objective, .creationTime, .runningTimeStart, .runningTimeEnd, .status]

def name : JobSort → String
  | .user => "user"
  | .dataset => "dataset"
  | .objective => "objective"
  | .creationTime => "creation-time"
  | .runningTimeStart => "running-time-start"
  | .runningTimeEnd => "running-time-end"
  | .status => "status"

/-- The sort field of a name. -/
def read (s : String) : Except StateError JobSort :=
  match all.find? (·.name == s) with
  | some field => .ok field
  | none => .error (.badInput ("invalid job sort field " ++ Text.quoted s))

instance : SortField JobSort Job where
  kind
    | .creationTime | .runningTimeStart | .runningTimeEnd => .int
    | _ => .text
  value
    | .user, j => .text j.user
    | .dataset, j => .text j.dataset
    | .objective, j => .text j.objective
    | .creationTime, j => .int j.creationTime.toInt64
    | .runningTimeStart, j => .int (j.runningTime.start.getD 0).toInt64
    | .runningTimeEnd, j => .int (j.runningTime.stop.getD 0).toInt64
    | .status, j => .text (Named.name j.status)

end JobSort

end Fleet
