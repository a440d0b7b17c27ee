import Fleet.Process.Table
import Fleet.Registry.Error
import Fleet.Registry.Host
import Fleet.Registry.Ordinal
import Fleet.World

/-!
# Registration

A process that starts takes the least free ordinal, adds its document, and then looks whether the
ordinal is its own: another process may have taken the same number between the look and the
addition. Whoever claimed the number first keeps it; the others move to another one and look again.
An ordinal once kept is never lost, since every later claim has a greater number.

Every look and every change is a transaction of its own. `Registration` says where a process stands
between two of them, and `step` does the next one; registrations may be interleaved at will.

A process that moves on is read under its id and written under its own. Where these differ it may
move for ever, so a run of a bounded number of transactions answers `none` where it is not over
behind them.
-/

set_option autoImplicit false

namespace Fleet

/-- What registers. -/
structure Applicant where
  kind : ProcessKind
  host : HostIdentity
  resource : String := "cpu"
  /-- The number that the operating system knows the process by. -/
  processId : UInt32
deriving DecidableEq, Repr

/-- The document of an applicant with an ordinal. -/
def Applicant.document (a : Applicant) (ordinal : UInt32) : NewProcess where
  processId := a.processId
  hostId := a.host.hostId
  hostAddress := a.host.hostAddress
  kind := a.kind
  resource := a.resource
  runningOrdinal := ordinal

inductive Registration where
  /-- Looks for a free ordinal next. -/
  | choosing
  /-- Adds a document with an ordinal next. -/
  | creating (ordinal : UInt32)
  /-- Looks next whether the ordinal of its document is its own. -/
  | checking (p : Process)
  /-- Moves its document to another ordinal next. -/
  | claiming (p : Process) (ordinal : UInt32)
  | accepted (p : Process)
  | failed (e : RegistryError)
deriving DecidableEq, Repr

namespace Registration

/-- What the live peers say about the ordinal of a process. -/
def judge (peers : List Process) (p : Process) : Registration :=
  -- a process that is not among the live ones was terminated by someone else meanwhile
  if !peers.any (·.id == p.id) then .failed (.terminated p.id)
  else if Ordinal.isOwner peers p then .accepted p
  else
    match Ordinal.free? peers (some p.id) with
    | some ordinal => .claiming p ordinal
    | none => .failed (.ordinalsExhausted p.kind)

/-- Goes on with the answer of a transaction. -/
def after {α : Type} (next : α → Registration) :
    Except StateError α × Store → Registration × Store
  | (.ok a, s) => (next a, s)
  | (.error e, s) => (.failed (.state e), s)

/-- The next transaction of a registration. `id` names the document if this is the one that adds
it. -/
def step (now : Millis) (a : Applicant) (id : String) (s : Store) :
    Registration → Registration × Store
  | .choosing =>
    let next (peers : List Process) : Registration :=
      match Ordinal.free? peers none with
      | some ordinal => .creating ordinal
      | none => .failed (.ordinalsExhausted a.kind)
    after next ((Process.live now a.kind).commit s)
  | .creating ordinal =>
    after .checking ((Process.create now id (a.document ordinal)).commit s)
  -- the ordinal may have been taken by others between the look for it and the document
  | .checking p => after (judge · p) ((Process.live now p.kind).commit s)
  | .claiming p ordinal => after .checking ((Process.claimOrdinal now p.id ordinal).commit s)
  | .accepted p => (.accepted p, s)
  | .failed e => (.failed e, s)

/-- The next transaction in a world that provides the id. -/
def advance (a : Applicant) (w : World) (r : Registration) : Registration × World :=
  let go (id : String) (w : World) : Registration × World :=
    let (r, store) := r.step w.now a id w.store
    (r, { w with store })
  match r with
  -- the only step that draws an id; if the draw fails, no transaction is made
  | .creating _ =>
    match w.newId with
    | (.ok id, w) => go id w
    | (.error e, w) => (.failed (.state e), w)
  | _ => go "" w

/-- Runs a registration alone to its end, for at most `fuel` transactions. -/
def finish (a : Applicant) : (fuel : Nat) → World → Registration →
    Except RegistryError (Option Process) × World
  | _, w, .accepted p => (.ok (some p), w)
  | _, w, .failed e => (.error e, w)
  | 0, w, _ => (.ok none, w)
  | fuel + 1, w, r =>
    let (r, w) := r.advance a w
    finish a fuel w r

/-- More transactions than a registration that runs alone needs: every claim is of an ordinal that
nobody holds, so it is the last one. -/
def enough (w : World) : Nat := 2 * w.store.processes.entries.length + 5

/-- Registers an applicant, with nobody else at it. -/
def register (a : Applicant) (w : World) : Except RegistryError (Option Process) × World :=
  finish a (enough w) w .choosing

/-- Makes sure that a process has its ordinal for itself, moving it if need be. -/
def settle (p : Process) (w : World) : Except RegistryError (Option Process) × World :=
  let a : Applicant :=
    { kind := p.kind, host := ⟨p.hostId, p.hostAddress⟩, processId := p.processId }
  finish a (enough w) w (.checking p)

end Registration

end Fleet
