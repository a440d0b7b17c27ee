import Fleet.ObjectId
import Fleet.Store.Session

/-!
# The world

What an operation finds around it: the store, the clock, and the source of random numbers for ids.
The clock may stand anywhere, also before the epoch, which counts as the epoch. The random source is
a counter here, of which a draw takes the next value; a draw may also fail, which uses nothing up.
-/

set_option autoImplicit false

namespace Fleet

structure World where
  store : Store := .empty
  /-- Milliseconds since the epoch. -/
  clock : Int
  /-- The number that the next draw yields. -/
  nextDraw : Nat := 1
  /-- Why the next draw fails, if it does. -/
  drawFailure : Option String := none
deriving DecidableEq, Repr

namespace World

def now (w : World) : Millis := UInt64.ofNat w.clock.toNat

/-- A new object id, drawn now. -/
def newId (w : World) : Except StateError String × World :=
  match w.drawFailure with
  | some text => (.error (.write text), { w with drawFailure := none })
  | none => (.ok (objectId w.now w.nextDraw), { w with nextDraw := w.nextDraw + 1 })

/-- Runs a session on the store. -/
def run {ε α : Type} (p : Session ε α) (w : World) : Except ε α × World :=
  let (r, store) := p.on w.store
  (r, { w with store })

/-- Runs a transaction on the store. -/
def commit {α : Type} (t : Transaction α) (w : World) : Except StateError α × World :=
  w.run (Session.transact t)

/-- Runs a session that needs a new id, unless there is none to be had. -/
def runWithId {α : Type} (p : String → Session StateError α) (w : World) :
    Except StateError α × World :=
  match w.newId with
  | (.ok id, w) => w.run (p id)
  | (.error e, w) => (.error e, w)

end World

end Fleet
