import Fleet.Store.Transaction

/-!
# Sessions

A session is a series of transactions on one store. Each takes effect on its own, so what the
earlier ones did stays when a later one fails. Work that must not be left half done is retried while
waiting may help (`Fleet.Retry`); a transaction on a store in memory never fails for such a reason,
so in a session the first attempt of each is the last one.
-/

set_option autoImplicit false

namespace Fleet

abbrev Session (ε α : Type) := ExceptT ε (StateM Store) α

namespace Session

variable {ε α : Type}

/-- Runs a session on a store. -/
def on (p : Session ε α) (s : Store) : Except ε α × Store := p.run s

/-- A session of one transaction. -/
def transact (t : Transaction α) : Session StateError α := fun s => t.commit s

/-- The outcome of a session, which thereby is no failure of a session around it. -/
def attempt {ε' : Type} (p : Session ε α) : Session ε' (Except ε α) := fun s =>
  let (r, s) := p.on s
  (.ok r, s)

end Session

end Fleet
