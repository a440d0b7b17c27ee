import Fleet.Daemon
import Fleet.Job.FanOut

/-!
# Operations

Everything that can be asked of the fleet, as data: what is asked for (`Operation`), what is
answered (`Reply`), and how the world changes (`Operation.perform`). A run of the system is a list
of operations, between which the clock may move.

Left out is the file in which a store lies, with the failures that come from it: they are errors by
name (`StateError`), which no transaction here ends with. So the retries around single calls of the
store, which only such failures set off, do not show; the loop that retries stands by itself
(`Fleet.retry`). Left out are log lines, and time that passes between the transactions of one
operation. The name of the host, its address and random bytes come from outside and are given.
-/

set_option autoImplicit false

namespace Fleet

inductive Operation where
  -- The catalog
  | putDataset (d : Dataset)
  | getDataset (id : String)
  | putModule (m : Module)
  | getModule (id : String)
  | listModules (kind : ModuleKind)
  -- Processes
  | putProcess (p : Process)
  | getProcess (id : String)
  | createProcess (new : NewProcess)
  | listProcesses (filters : List ProcessFilter) (q : ListQuery ProcessSort)
  | countProcesses (filters : List ProcessFilter)
  | liveProcesses (kind : ProcessKind)
  | claimOrdinal (id : String) (ordinal : UInt32)
  | recordKeepalive (id : String)
  | setProcessStatus (id : String) (status : ProcessStatus)
  | terminateStale (cutoff : Millis)
  | terminateAllStale (cutoff : Millis)
  -- Jobs
  | createJob (caller : Caller) (new : NewJob)
  | getJob (caller : Caller) (id : String)
  | listJobs (caller : Caller) (filters : List JobFilter) (q : ListQuery JobSort)
  | countJobs (caller : Caller) (filters : List JobFilter)
  | updateJob (caller : Caller) (id : String) (u : JobUpdate)
  | leaseJob (filters : List JobFilter) (sort : Option JobSort) (direction : Direction)
      (process : String)
  | releaseJob (id process : String)
  | applicableJobs (model : String)
  | appendModel (id model : String)
  | addModel (model : String)
  | fanOut (model : String)
  -- Tasks
  | createTask (caller : Caller) (new : NewTask)
  | getTask (caller : Caller) (id : String)
  | listTasks (caller : Caller) (filters : List TaskFilter) (q : ListQuery TaskSort)
  | countTasks (caller : Caller) (filters : List TaskFilter)
  | updateTask (caller : Caller) (id : String) (u : TaskUpdate)
  | leaseTask (filters : List TaskFilter) (sort : Option TaskSort) (direction : Direction)
      (process : String)
  | releaseTask (id process : String)
  | pauseTasks (job : String)
  | resumeTasks (job : String)
  | terminateTasks (job : String)
  -- Leases
  | releaseHeld (c : Collection) (process : String)
  | releaseAll (process : String)
  -- The registry
  | register (a : Applicant)
  | settleOrdinal (p : Process)
  | keepAlive (id : String)
  | deregister (id : String)
  | reap (timeout : Duration)
  -- Settlement
  | pollJobs (process : String)
  | pollTasks (process : String)
  | settleJob (j : JobSettlement)
  | settleTask (t : TaskSettlement)
  -- Background work
  | repeatActivity (a : Activity) (turns : Nat)
  | runDaemon (d : Daemon) (config : Option String) (millis : Nat)

inductive Reply where
  | done
  | dataset (d : Dataset)
  | module (m : Module)
  | modules (ms : List Module)
  | process (p : Process)
  | foundProcess (p : Option Process)
  | processes (ps : List Process)
  | processPage (page : Page Process)
  | job (j : Job)
  | foundJob (j : Option Job)
  | jobPage (page : Page Job)
  | task (t : Task)
  | foundTask (t : Option Task)
  | taskPage (page : Page Task)
  | count (n : Nat)
  | changed (b : Bool)
  | ids (ids : List String)
  | fanOut (report : FanOut)
  | released (r : ReleasedLeases)
  /-- There will never be an answer. -/
  | unfinished

/-- What an operation may fail with. -/
inductive Failure where
  | state (e : StateError)
  | registry (e : RegistryError)
  | daemon (e : DaemonError)
deriving DecidableEq, Repr

/-- What an operation answers, and the world behind it. -/
abbrev Answered := Except Failure Reply × World

namespace Answered

/-- The answer to a request of the store. -/
def ofState {α : Type} (reply : α → Reply) (r : Except StateError α × World) : Answered :=
  ((r.1.mapError .state).map reply, r.2)

/-- The answer to a request of the registry. -/
def ofRegistry {α : Type} (reply : α → Reply) (r : Except RegistryError α × World) : Answered :=
  ((r.1.mapError .registry).map reply, r.2)

/-- The answer to what may come to no end. -/
def ofEnding {α : Type} (reply : α → Reply) (a : Option α) : Reply := a.elim .unfinished reply

end Answered

namespace Operation

open Answered Session

/-- Does what is asked for. -/
def perform (w : World) : Operation → Answered
  | .putDataset d => ofState (fun _ => .done) (w.commit (Transaction.put d))
  | .getDataset id => ofState .dataset (w.commit (Transaction.fetch w.now id))
  | .putModule m => ofState (fun _ => .done) (w.commit (Transaction.put m))
  | .getModule id => ofState .module (w.commit (Transaction.fetch w.now id))
  | .listModules kind => ofState .modules (w.commit (Transaction.scan w.now (·.kind == kind)))
  | .putProcess p => ofState (fun _ => .done) (w.commit (Transaction.put p))
  | .getProcess id => ofState .process (w.commit (Transaction.fetch w.now id))
  | .createProcess new =>
    ofState .process (w.runWithId fun id => transact (Process.create w.now id new))
  | .listProcesses filters q => ofState .processPage (w.commit (Process.list w.now filters q))
  | .countProcesses filters => ofState .count (w.commit (Process.countAll filters))
  | .liveProcesses kind => ofState .processes (w.commit (Process.live w.now kind))
  | .claimOrdinal id ordinal =>
    ofState .process (w.commit (Process.claimOrdinal w.now id ordinal))
  | .recordKeepalive id => ofState .process (w.commit (Process.keepalive w.now id))
  | .setProcessStatus id status =>
    ofState .process (w.commit (Process.setStatus w.now id status))
  | .terminateStale cutoff =>
    ofState .foundProcess (w.commit (Process.terminateStale w.now cutoff))
  | .terminateAllStale cutoff =>
    ofState (ofEnding .processes) (w.run (Fleet.terminateAllStale w.now cutoff))
  | .createJob caller new =>
    ofState .job (w.runWithId fun id => transact (Job.create w.now id caller new))
  | .getJob caller id => ofState .job (w.commit (Job.fetchVisible w.now caller id))
  | .listJobs caller filters q => ofState .jobPage (w.commit (Job.list w.now caller filters q))
  | .countJobs caller filters => ofState .count (w.commit (Job.countAll caller filters))
  | .updateJob caller id u => ofState .job (w.commit (Job.change w.now caller id u))
  | .leaseJob filters sort direction process =>
    ofState .foundJob (w.commit (Job.leaseFirst w.now filters sort direction process))
  | .releaseJob id process =>
    ofState (fun _ => .done) (w.commit (Transaction.release Job id process))
  | .applicableJobs model => ofState .ids (w.run (Job.applicable w.now model))
  | .appendModel id model => ofState .changed (w.commit (Job.appendModel id model))
  | .addModel model => ofState .fanOut (w.run (Job.addModel w.now model))
  | .fanOut model => ofState .fanOut (w.run (Job.fanOut w.now model))
  | .createTask caller new => ofState .task (w.commit (Task.create w.now caller new))
  | .getTask caller id => ofState .task (w.commit (Task.fetchVisible w.now caller id))
  | .listTasks caller filters q => ofState .taskPage (w.commit (Task.list w.now caller filters q))
  | .countTasks caller filters => ofState .count (w.commit (Task.countAll caller filters))
  | .updateTask caller id u => ofState .task (w.commit (Task.change w.now caller id u))
  | .leaseTask filters sort direction process =>
    ofState .foundTask (w.commit (Task.leaseFirst w.now filters sort direction process))
  | .releaseTask id process =>
    ofState (fun _ => .done) (w.commit (Transaction.release Task id process))
  | .pauseTasks job => ofState .count (w.commit (Task.pauseAll job))
  | .resumeTasks job => ofState .count (w.commit (Task.resumeAll job))
  | .terminateTasks job => ofState .count (w.commit (Task.terminateAll job))
  | .releaseHeld c process => ofState .count (w.commit (releaseIn c process))
  | .releaseAll process => ofState .released (w.run (Fleet.releaseAll process))
  | .register a => ofRegistry (ofEnding .process) (Registration.register a w)
  | .settleOrdinal p => ofRegistry (ofEnding .process) (Registration.settle p w)
  | .keepAlive id => ofRegistry .process (w.run (Fleet.keepAlive w.now id))
  | .deregister id => ofRegistry .released (w.run (Fleet.deregister w.now id))
  | .reap timeout => ofRegistry (ofEnding .processes) (w.run (reapOnce w.now timeout))
  | .pollJobs process =>
    let (n, store) := Fleet.pollJobs w.now process w.store
    (.ok (.count n), { w with store })
  | .pollTasks process =>
    let (n, store) := Fleet.pollTasks w.now process w.store
    (.ok (.count n), { w with store })
  | .settleJob j => (.ok .done, { w with store := j.settle w.now w.store })
  | .settleTask t => (.ok .done, { w with store := t.settle w.now w.store })
  | .repeatActivity a turns =>
    let (ended, w) := Activity.inTurn (List.replicate turns a) w
    (.ok (if ended then .done else .unfinished), w)
  | .runDaemon d config millis =>
    let (result, w) := d.start config millis w
    ((result.mapError .daemon).map (ofEnding fun _ => .done), w)

end Operation

end Fleet
