import Fleet.Operation
import Fleet.Options
import Fleet.Store.File
import Std.Time.DateTime.Timestamp

/-!
# The program

Runs the daemon on the clock and the random source of the system, with the store in a file. The
daemon stops when its standard input ends.
-/

set_option autoImplicit false

namespace Fleet.Program

/-- Milliseconds since the epoch. -/
def wallClock : IO Int := do
  return (← Std.Time.Timestamp.now).toMillisecondsSinceUnixEpoch.toInt

/-- A number of six random bytes. -/
def draw : IO Nat := do
  return ofBigEndian (← IO.getRandomBytes 6).toList

/-- The content of a file, if it can be read. -/
def contentOf (path : String) : IO (Option String) := do
  try return some (← IO.FS.readFile path)
  catch _ => return none

/-- The host by the name that the system keeps in a file. -/
def hostIdentity : IO HostIdentity := do
  let name ← contentOf "/etc/hostname"
  return HostIdentity.detect
    (name.map fun s => toUtf8 (String.ofList (Text.trim s.toList))) none

/-- The number that the system knows this process by, if it says. -/
def ownNumber : IO UInt32 := do
  let front := ((← contentOf "/proc/self/stat").getD "").toList.takeWhile Text.isDigit
  return UInt32.ofNat ((Text.natural? (2 ^ 32 - 1) front).getD 0)

/-- The world as of now. -/
def refresh (w : World) : IO World := do
  return { w with clock := ← wallClock, nextDraw := ← draw }

/-- A loop with the time of its next turn. -/
structure Pending where
  due : Int
  loop : Loop

/-- Does what is due, again and again, until told to stop. A pass of the reaper that comes to no end
is broken off and begun anew when it is due again. -/
partial def serve (save : Store → IO Unit) (stopped : IO Bool) (pending : List Pending)
    (w : World) : IO World := do
  if ← stopped then return w
  let w' ← refresh w
  let due (p : Pending) : Bool := p.due ≤ w'.clock
  let w' := (pending.filter due).foldl (fun w p => (p.loop.activity.run w).2) w'
  if w'.store ≠ w.store then save w'.store
  let later (p : Pending) : Pending :=
    if due p then { p with due := w'.clock + p.loop.period.timerMillis } else p
  IO.sleep 10
  serve save stopped (pending.map later) w'

/-- Reads standard input to its end. -/
partial def drain (input : IO.FS.Stream) : IO Unit := do
  unless (← input.read 4096).isEmpty do drain input

/-- Runs the daemon and tells what went wrong, if anything did. -/
def standalone (o : Options) : IO (Except String Unit) := do
  let config ← match o.config with
    | some path => do pure (Config.ofFile path (← contentOf path))
    | none => pure (.ok {})
  match config.bind fun c => c.timing.map (c, ·) with
  | .error e => return .error e.message
  | .ok (c, t) =>
    IO.FS.createDirAll o.dataDir
    let path := c.storePath o.dataDir
    let store ← match ← contentOf path with
      | none => pure (some .empty)
      | some text => pure (Store.read? text)
    match store with
    | none => return .error (StateError.cannotOpen path).message
    | some store =>
      let d : Daemon := {
        host := ← hostIdentity, processId := ← ownNumber, workers := o.workers }
      let save (s : Store) : IO Unit := IO.FS.writeFile path s.render
      match d.registerAll c.resource d.kinds (← refresh { store, clock := 0 }) with
      | (.error e, w) =>
        save w.store
        return .error e.message
      | (.ok none, w) =>
        save w.store
        return .error "registration does not end"
      | (.ok (some hosted), w) =>
        save w.store
        let reader ← IO.asTask (do drain (← IO.getStdin))
        let pending := (Daemon.loops t hosted).map fun l =>
          { due := w.clock + l.period.timerMillis, loop := l : Pending }
        let w ← serve save (IO.hasFinished reader) pending w
        save (Daemon.leave hosted (← refresh w)).store
        return .ok ()

end Fleet.Program

def main (args : List String) : IO UInt32 := do
  match Fleet.Options.read args with
  | none =>
    IO.eprintln Fleet.Options.usage
    return 2
  | some o =>
    match ← Fleet.Program.standalone o with
    | .ok () => return 0
    | .error message =>
      IO.eprintln ("Error: " ++ message)
      return 1
