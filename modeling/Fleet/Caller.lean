import Fleet.Error

/-!
# Callers

Every request is made on behalf of a user. Users see their own documents and those of the system
user `root`, and change only their own; `root` sees and changes everything. To a caller who cannot
see a document it does not exist.
-/

set_option autoImplicit false

namespace Fleet

/-- The owner of what the system itself creates. -/
def rootUser : String := "root"

structure Caller where
  user : String
deriving DecidableEq, Repr

namespace Caller

def root : Caller := ⟨rootUser⟩

def isRoot (c : Caller) : Bool := c.user == rootUser

def canSee (c : Caller) (owner : String) : Bool :=
  c.isRoot || owner == c.user || owner == rootUser

def canModify (c : Caller) (owner : String) : Bool := c.isRoot || owner == c.user

/-- Lets a change of the document `id` of `owner` pass, or says why not. -/
def authorize (c : Caller) (kind id owner : String) : Except StateError Unit :=
  if !c.canSee owner then .error (.notFound (kind ++ " " ++ id))
  else if !c.canModify owner then
    .error (.unauthorized ("user " ++ c.user ++ " cannot modify " ++ kind ++ " " ++ id))
  else .ok ()

end Caller

end Fleet
