import Fleet.Json.Tree

/-!
# Shapes of documents

A document is read from the outline of its text, field by field: the fields it has must be there
once and readable, all others may hold anything. The reading functions below are the shapes of
single fields. `fields` collects those of a structure, which may be written as an object with its
fields in any order, or as an array of exactly its fields in their own order; a field that an
object leaves out is `none`.
-/

set_option autoImplicit false

namespace Fleet.Json.Outline

def text? : Outline → Option String
  | .text (.ok s) => some s
  | _ => none

def boolean? : Outline → Option Bool
  | .boolean b => some b
  | _ => none

/-- A whole number of sixty-four bits. -/
def natural? : Outline → Option UInt64
  | .number (.ok (.natural n)) => some n
  | _ => none

/-- A whole number of thirty-two bits. -/
def natural32? (o : Outline) : Option UInt32 :=
  o.natural?.bind fun n => if n.toNat < 2 ^ 32 then some n.toUInt32 else none

/-- A number of any form, as a double. -/
def float? : Outline → Option Binary64
  | .number (.ok n) => some n.toBinary64
  | _ => none

/-- `null` for nothing. -/
def optional? {α : Type} (read : Outline → Option α) : Outline → Option (Option α)
  | .null => some none
  | o => (read o).map some

def list? {α : Type} (read : Outline → Option α) : Outline → Option (List α)
  | .array items => items.mapM read
  | _ => none

/-- The members of an object, every name readable. -/
def members? : Outline → Option (List (String × Outline))
  | .object members => members.mapM fun
    | (.ok name, o) => some (name, o)
    | (.error _, _) => none
  | _ => none

/-- The one member of a name, or none; a name that repeats is refused. -/
def only? (members : List (String × Outline)) (name : String) : Option (Option Outline) :=
  match members.filter (·.1 == name) with
  | [] => some none
  | [(_, o)] => some (some o)
  | _ => none

/-- The fields of a structure in the order of `names`. -/
def fields? (names : List String) (o : Outline) : Option (List (Option Outline)) :=
  match o with
  -- fields without their names stand in order, and none may be left out
  | .array items => if items.length = names.length then some (items.map some) else none
  | o => o.members?.bind fun members => names.mapM (only? members)

/-- A field that has to be there. -/
def required {α : Type} (read : Outline → Option α) : Option Outline → Option α
  | some o => read o
  | none => none

/-- A field that stands for nothing where it is left out. -/
def omissible {α : Type} (read : Outline → Option α) : Option Outline → Option (Option α)
  | some o => optional? read o
  | none => some none

/-- A field with a value for where it is left out. -/
def defaulting {α : Type} (value : α) (read : Outline → Option α) : Option Outline → Option α
  | some o => read o
  | none => some value

end Fleet.Json.Outline
