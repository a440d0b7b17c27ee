import Fleet.Named
import Fleet.Json.Record

/-!
# Processes

A process announces itself by a document that it keeps alive. It is never deleted: a terminated
process stays as history. Among the live processes of its kind it is known by a small ordinal, and
`ordinalClaim` says when it took that ordinal: it is a number drawn from one counter for the whole
store, so of two processes with one ordinal the one with the smaller claim took it first.
-/

set_option autoImplicit false

namespace Fleet

inductive ProcessKind where
  | controller | worker | scheduler
deriving DecidableEq, Repr

instance : Named ProcessKind where
  label := "process type"
  all := [.controller, .worker, .scheduler]
  name
    | .controller => "controller"
    | .worker => "worker"
    | .scheduler => "scheduler"

inductive ProcessStatus where
  | idle | working | terminated
deriving DecidableEq, Repr

instance : Named ProcessStatus where
  label := "process status"
  all := [.idle, .working, .terminated]
  name
    | .idle => "idle"
    | .working => "working"
    | .terminated => "terminated"

structure Process where
  id : String
  /-- The number that the operating system knows the process by. -/
  processId : UInt32
  hostId : String
  hostAddress : String
  startTime : Millis
  lastKeepalive : Millis
  kind : ProcessKind
  resource : String
  status : ProcessStatus
  runningOrdinal : UInt32
  ordinalClaim : UInt64
deriving DecidableEq, Repr

namespace Process

def isLive (p : Process) : Bool := p.status != .terminated

/-! ## The stored document -/

open Json

def toJson (p : Process) : Value := .object [
  ("id", .text p.id),
  ("process-id", ofUInt32 p.processId),
  ("host-id", .text p.hostId),
  ("host-address", .text p.hostAddress),
  ("start-time", ofUInt64 p.startTime),
  ("last-keepalive", ofUInt64 p.lastKeepalive),
  ("type", Named.toJson p.kind),
  ("resource", .text p.resource),
  ("status", Named.toJson p.status),
  ("running-ordinal", ofUInt32 p.runningOrdinal),
  ("ordinal-claim", ofUInt64 p.ordinalClaim)]

open Json.Outline in
def ofJson? (o : Outline) : Option Process :=
  match o.fields? ["id", "process-id", "host-id", "host-address", "start-time", "last-keepalive",
    "type", "resource", "status", "running-ordinal", "ordinal-claim"] with
  | some [id, processId, hostId, hostAddress, startTime, lastKeepalive, kind, resource, status,
      runningOrdinal, ordinalClaim] => do
    return {
      id := ← required text? id
      processId := ← required natural32? processId
      hostId := ← required text? hostId
      hostAddress := ← required text? hostAddress
      startTime := ← required natural? startTime
      lastKeepalive := ← required natural? lastKeepalive
      kind := ← required Named.ofJson? kind
      resource := ← required text? resource
      status := ← required Named.ofJson? status
      runningOrdinal := ← required natural32? runningOrdinal
      ordinalClaim := ← required natural? ordinalClaim }
  | _ => none

end Process

end Fleet
