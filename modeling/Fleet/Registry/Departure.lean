import Fleet.Process.Table
import Fleet.Registry.Error
import Fleet.Store.Lease
import Fleet.Store.Session

/-!
# Leaving the fleet

What a process holds is given back when it leaves or dies: its leases on datasets, modules, jobs and
tasks, those of documents in error excepted. Each collection is a transaction of its own, and giving
back once more changes nothing.
-/

set_option autoImplicit false

namespace Fleet

/-- How many leases were given back. -/
structure ReleasedLeases where
  datasets : Nat := 0
  modules : Nat := 0
  jobs : Nat := 0
  tasks : Nat := 0
deriving DecidableEq, Repr

def ReleasedLeases.total (r : ReleasedLeases) : Nat := r.datasets + r.modules + r.jobs + r.tasks

open Transaction Session

/-- Gives back what a process holds in one collection, and tells how much. Processes are not
leased. -/
def releaseIn (c : Collection) (process : String) : Transaction Nat :=
  match c with
  | .processes => pure 0
  | .datasets => releaseHeld Dataset process
  | .modules => releaseHeld Module process
  | .jobs => releaseHeld Job process
  | .tasks => releaseHeld Task process

/-- Gives back everything that a process holds. -/
def releaseAll (process : String) : Session StateError ReleasedLeases := do
  let datasets ← transact (releaseIn .datasets process)
  let modules ← transact (releaseIn .modules process)
  let jobs ← transact (releaseIn .jobs process)
  let tasks ← transact (releaseIn .tasks process)
  return { datasets, modules, jobs, tasks }

namespace Session

/-- A session of the registry, whose errors it makes its own. -/
def inRegistry {α : Type} (p : Session StateError α) : Session RegistryError α :=
  ExceptT.adapt .state p

end Session

/-- Records that a process is alive. -/
def keepAlive (now : Millis) (id : String) : Session RegistryError Process :=
  inRegistry (transact (Process.keepalive now id))

/-- Marks a process as terminated and gives back everything that it holds. -/
def deregister (now : Millis) (id : String) : Session RegistryError ReleasedLeases :=
  inRegistry do
    let _ ← transact (Process.setStatus now id .terminated)
    releaseAll id

end Fleet
