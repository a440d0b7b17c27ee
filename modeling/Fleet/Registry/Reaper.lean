import Fleet.Duration
import Fleet.Registry.Departure

/-!
# The reaper

A live process whose last sign of life is too old is dead. The reaper terminates dead processes, the
one that was silent for longest first, and gives back what each held before it turns to the next.

Terminating a process and giving back its leases of one collection are transactions of their own.
`Reaping` says where a pass stands between two of them, and `step` does the next one.

A pass looks for dead processes until it finds none. A process is written under its own id, so a
dead one that lies under another id stays where it is, and a pass that meets one comes to no end. A
run of a bounded number of transactions therefore answers `none` where the pass is not over behind
them.
-/

set_option autoImplicit false

namespace Fleet

/-- The time before which a sign of life is too old. -/
def staleBefore (now : Millis) (timeout : Duration) : Millis :=
  -- of the milliseconds of the timeout only the low 64 bits are left
  now.minus (UInt64.ofNat timeout.wholeMillis)

inductive Reaping where
  /-- Terminates the next dead process next. -/
  | seeking (reaped : List Process)
  /-- Gives back next what a process held in a collection, and then in the others. -/
  | releasing (reaped : List Process) (p : Process) (c : Collection) (others : List Collection)
  | finished (result : Except StateError (List Process))

namespace Reaping

/-- The next transaction of a pass. -/
def step (now cutoff : Millis) (s : Store) : Reaping → Reaping × Store
  | .seeking reaped =>
    match (Process.terminateStale now cutoff).commit s with
    | (.ok (some p), s) => (.releasing reaped p .datasets [.modules, .jobs, .tasks], s)
    | (.ok none, s) => (.finished (.ok reaped), s)
    | (.error e, s) => (.finished (.error e), s)
  | .releasing reaped p c others =>
    match (releaseIn c p.id).commit s with
    -- the process counts as reaped only when all four collections have been released
    | (.ok _, s) =>
      match others with
      | c :: others => (.releasing reaped p c others, s)
      | [] => (.seeking (reaped ++ [p]), s)
    | (.error e, s) => (.finished (.error e), s)
  | .finished result => (.finished result, s)

/-- Runs a pass to its end, for at most `fuel` transactions. -/
def finish (now cutoff : Millis) : (fuel : Nat) → Store → Reaping →
    Except StateError (Option (List Process)) × Store
  | _, s, .finished result => (result.map some, s)
  | 0, s, .seeking _ => (.ok none, s)
  | 0, s, .releasing _ _ _ _ => (.ok none, s)
  | fuel + 1, s, r =>
    let (r, s) := r.step now cutoff s
    finish now cutoff fuel s r

/-- More transactions than a pass needs that comes to an end: five for every process, and one to find
nothing more. -/
def enough (s : Store) : Nat := 5 * s.processes.entries.length + 2

end Reaping

/-- One pass of the reaper. The answer lists the processes that it terminated, if it is ever over. -/
def reapOnce (now : Millis) (timeout : Duration) : Session RegistryError (Option (List Process)) :=
  Session.inRegistry fun s =>
    Reaping.finish now (staleBefore now timeout) (Reaping.enough s) s (.seeking [])

/-- Terminates stale processes one after the other until there are none, in at most `fuel` attempts. -/
def terminateStaleUpTo (now cutoff : Millis) :
    (fuel : Nat) → Session StateError (Option (List Process))
  | 0 => return none
  | fuel + 1 => do
    match ← Session.transact (Process.terminateStale now cutoff) with
    | some p => return (← terminateStaleUpTo now cutoff fuel).map (p :: ·)
    | none => return some []

/-- Terminates all stale processes, if there is an end to them. One more attempt than there are
processes is enough then to find nothing more. -/
def terminateAllStale (now cutoff : Millis) : Session StateError (Option (List Process)) := fun s =>
  terminateStaleUpTo now cutoff (s.processes.entries.length + 1) s

end Fleet
