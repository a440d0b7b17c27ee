/-!
# Store errors

What a store operation may fail with. The first seven kinds are failures of the storage under the
store; the last four are refusals of a request, which no repetition changes. `message` is the text
that a caller is shown, `isTransient` says whether waiting may help: it does for the storage itself,
not for a document that cannot be written or read.
-/

set_option autoImplicit false

namespace Fleet

inductive StateError where
  | cannotOpen (text : String)
  | transaction (text : String)
  | table (text : String)
  | read (text : String)
  | write (text : String)
  | serialize (text : String)
  | deserialize (text : String)
  | notFound (text : String)
  | badInput (text : String)
  | unauthorized (text : String)
  | identifierTaken (text : String)
deriving DecidableEq, Repr

namespace StateError

def message : StateError → String
  | .cannotOpen t => "failed to open database: " ++ t
  | .transaction t => "transaction error: " ++ t
  | .table t => "table error: " ++ t
  | .read t => "read error: " ++ t
  | .write t => "write error: " ++ t
  | .serialize t => "serialization error: " ++ t
  | .deserialize t => "deserialization error: " ++ t
  | .notFound t => "not found: " ++ t
  | .badInput t => "bad input: " ++ t
  | .unauthorized t => "unauthorized: " ++ t
  | .identifierTaken t => "identifier taken: " ++ t

/-- The error describes the request, not the health of the store. -/
def isDomain : StateError → Bool
  | .notFound _ | .badInput _ | .unauthorized _ | .identifierTaken _ => true
  | _ => false

def isNotFound : StateError → Bool
  | .notFound _ => true
  | _ => false

/-- Trying again later may succeed. -/
def isTransient : StateError → Bool
  | .cannotOpen _ | .transaction _ | .table _ | .read _ | .write _ => true
  | _ => false

/-- The status code that an HTTP boundary answers with. -/
def httpStatus : StateError → Nat
  | .notFound _ => 404
  | .badInput _ => 400
  | .unauthorized _ => 403
  | .identifierTaken _ => 409
  | _ => 500

/-- A refusal is never worth repeating. -/
theorem isTransient_eq_false_of_isDomain {e : StateError} (h : e.isDomain = true) :
    e.isTransient = false := by
  cases e <;> simp_all [isDomain, isTransient]

end StateError

end Fleet
