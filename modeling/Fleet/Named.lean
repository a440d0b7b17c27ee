import Fleet.Error
import Fleet.Text.Quoted
import Fleet.Json.Shape

/-!
# Closed sets of names

A status, a stage or a type is one of a few values, each with a fixed name under which it is stored,
listed and asked for. `Named` is that naming; reading a name accepts exactly the names of the set
and quotes everything else in its complaint. In a document a value is its name, or an object with
the name as its one member and `null` for the value.
-/

set_option autoImplicit false

namespace Fleet

class Named (α : Type) where
  /-- What the set is called in messages. -/
  label : String
  all : List α
  name : α → String

namespace Named

variable {α : Type} [Named α]

def ofName? (s : String) : Option α := (all : List α).find? fun a => name a == s

/-- The value of a name. -/
def read (s : String) : Except StateError α :=
  match ofName? s with
  | some a => .ok a
  | none => .error (.badInput ("invalid " ++ label α ++ " " ++ Text.quoted s))

def toJson (a : α) : Json.Value := .text (name a)

def ofJson? : Json.Outline → Option α
  | .text (.ok s) => ofName? s
  | .object [(.ok s, .null)] => ofName? s
  | _ => none

end Named

end Fleet
