import Fleet.Process.Basic

/-!
# Registry errors

What registering, keeping alive and reaping processes may fail with.
-/

set_option autoImplicit false

namespace Fleet

inductive RegistryError where
  /-- The process with an id was terminated by somebody else meanwhile. -/
  | terminated (id : String)
  | ordinalsExhausted (kind : ProcessKind)
  | state (e : StateError)
deriving DecidableEq, Repr

namespace RegistryError

def message : RegistryError → String
  | .terminated id => "process " ++ id ++ " was terminated while registering"
  | .ordinalsExhausted kind => "no free ordinal left for " ++ Named.name kind ++ " processes"
  | .state e => "state store error: " ++ e.message

/-- Trying again later may succeed. -/
def isTransient : RegistryError → Bool
  | .state e => e.isTransient
  | _ => false

end RegistryError

end Fleet
