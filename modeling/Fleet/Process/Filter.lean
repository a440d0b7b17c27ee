import Fleet.Process.Basic
import Fleet.Text.Numeral

/-!
# Filters on processes

A filter is a key with a value, as a query writes it. All filters of a query have to hold.
-/

set_option autoImplicit false

namespace Fleet

inductive ProcessFilter where
  | id (id : String)
  | processId (n : UInt32)
  | hostId (host : String)
  | hostAddress (address : String)
  | kind (kind : ProcessKind)
  | resource (resource : String)
  | status (status : ProcessStatus)
deriving DecidableEq, Repr

namespace ProcessFilter

/-- The filter that a key and a value write. -/
def read (key value : String) : Except StateError ProcessFilter :=
  match key with
  | "id" => .ok (.id value)
  | "process-id" =>
    match Text.natural? (2 ^ 32 - 1) value.toList with
    | some n => .ok (.processId (UInt32.ofNat n))
    | none => .error (.badInput ("invalid process-id " ++ Text.quoted value))
  | "host-id" => .ok (.hostId value)
  | "host-address" => .ok (.hostAddress value)
  | "type" => (Named.read value).map .kind
  | "resource" => .ok (.resource value)
  | "status" => (Named.read value).map .status
  | key => .error (.badInput ("unsupported process filter " ++ Text.quoted key))

def holds (p : Process) : ProcessFilter → Bool
  | .id v => p.id == v
  | .processId v => p.processId == v
  | .hostId v => p.hostId == v
  | .hostAddress v => p.hostAddress == v
  | .kind v => p.kind == v
  | .resource v => p.resource == v
  | .status v => p.status == v

end ProcessFilter

/-- Whether a process passes every filter. -/
def Process.passes (filters : List ProcessFilter) (p : Process) : Bool :=
  filters.all (·.holds p)

end Fleet
