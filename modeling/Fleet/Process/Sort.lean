import Fleet.Process.Basic
import Fleet.Listing.Order

/-!
# Sort fields of processes

The fields by which processes can be listed. Times are compared as signed numbers of sixty-four
bits.
-/

set_option autoImplicit false

namespace Fleet

inductive ProcessSort where
  | processId | hostId | hostAddress | startTime | kind | resource | status | runningOrdinal
deriving DecidableEq, Repr

namespace ProcessSort

def all : List ProcessSort :=
  [.processId, .hostId, .hostAddress, .startTime, .kind, .resource, .status, .runningOrdinal]

def name : ProcessSort → String
  | .processId => "process-id"
  | .hostId => "host-id"
  | .hostAddress => "host-address"
  | .startTime => "start-time"
  | .kind => "type"
  | .resource => "resource"
  | .status => "status"
  | .runningOrdinal => "running-ordinal"

/-- The sort field of a name. -/
def read (s : String) : Except StateError ProcessSort :=
  match all.find? (·.name == s) with
  | some field => .ok field
  | none => .error (.badInput ("invalid process sort field " ++ Text.quoted s))

instance : SortField ProcessSort Process where
  kind
    | .processId | .startTime | .runningOrdinal => .int
    | _ => .text
  value
    | .processId, p => .int p.processId.toUInt64.toInt64
    | .hostId, p => .text p.hostId
    | .hostAddress, p => .text p.hostAddress
    | .startTime, p => .int p.startTime.toInt64
    | .kind, p => .text (Named.name p.kind)
    | .resource, p => .text p.resource
    | .status, p => .text (Named.name p.status)
    | .runningOrdinal, p => .int p.runningOrdinal.toUInt64.toInt64

end ProcessSort

end Fleet
