import Fleet.Background
import Fleet.Config
import Fleet.Registry.Registration

/-!
# The daemon

In standalone mode all kinds of processes live in one daemon: a controller, a scheduler and some
workers. The daemon registers them, keeps every one of them alive, and runs the reaper and, on
behalf of the controller, the two maintainers. When it is told to stop, the loops finish what they
are at, and then all its processes leave the fleet. A process that cannot register ends the daemon
at once; one that cannot leave does not keep the others from leaving.
-/

set_option autoImplicit false

namespace Fleet

/-- Where and on what the daemon runs. -/
structure Daemon where
  host : HostIdentity
  processId : UInt32
  workers : Nat

inductive DaemonError where
  | config (e : ConfigError)
  | registry (e : RegistryError)
deriving DecidableEq, Repr

namespace Daemon

/-- The kinds of the processes of a daemon, in the order in which they register. -/
def kinds (d : Daemon) : List ProcessKind :=
  .controller :: .scheduler :: List.replicate d.workers .worker

/-- Registers processes of some kinds one after the other, up to the first that cannot. -/
def registerAll (d : Daemon) (resource : String) :
    List ProcessKind → World → Except RegistryError (Option (List Process)) × World
  | [], w => (.ok (some []), w)
  | kind :: rest, w =>
    match Registration.register { kind, host := d.host, resource, processId := d.processId } w with
    | (.error e, w) => (.error e, w)
    | (.ok none, w) => (.ok none, w)
    | (.ok (some p), w) =>
      match registerAll d resource rest w with
      | (.ok ps, w) => (.ok (ps.map (p :: ·)), w)
      | (.error e, w) => (.error e, w)

/-- The loops of a daemon that hosts some processes, the controller first. -/
def loops (t : Config.Timing) (hosted : List Process) : List Loop :=
  let controller := (hosted.head?.map (·.id)).getD ""
  hosted.map (fun p => ⟨t.keepalivePeriod, .keepAlive p.id⟩) ++ [
    ⟨t.reaperPeriod, .reap t.keepaliveTimeout⟩,
    ⟨t.listenerPeriod, .pollJobs controller⟩,
    ⟨t.listenerPeriod, .pollTasks controller⟩]

/-- Lets processes leave one after the other. -/
def leave (hosted : List Process) (w : World) : World :=
  hosted.foldl (fun w p => (w.run (deregister w.now p.id)).2) w

/-- Runs a daemon on the store of a world until it is told to stop after some milliseconds. It does
not stop (`none`) where one of its loops comes to no end. -/
def run (d : Daemon) (c : Config) (millis : Nat) (w : World) :
    Except DaemonError (Option Unit) × World :=
  match c.timing with
  | .error e => (.error (.config e), w)
  | .ok t =>
    match d.registerAll c.resource d.kinds w with
    | (.error e, w) => (.error (.registry e), w)
    | (.ok none, w) => (.ok none, w)
    | (.ok (some hosted), w) =>
      match Activity.runAll (schedule millis (loops t hosted)) [] w with
      | (true, w) => (.ok (some ()), leave hosted w)
      | (false, w) => (.ok none, w)

/-- Runs a daemon with a configuration, if there is one, next to a store. A configuration that names
another file keeps the daemon off that store; it then works on a new one. -/
def start (d : Daemon) (config : Option String) (millis : Nat) (w : World) :
    Except DaemonError (Option Unit) × World :=
  match config.elim (.ok {}) Config.parse with
  | .error e => (.error (.config e), w)
  | .ok c =>
    if (c.store.bind (·.path)).isSome then
      let (r, w') := d.run c millis { w with store := .empty }
      (r, { w' with store := w.store })
    else d.run c millis w

end Daemon

end Fleet
