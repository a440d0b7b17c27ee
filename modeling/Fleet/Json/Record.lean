import Fleet.Json.Shape
import Fleet.Clock

/-!
# Common fields

The fields that documents share, written and read: numbers, options, lists and time intervals.
What is written here is read back by the shapes of `Fleet.Json.Shape`.
-/

set_option autoImplicit false

namespace Fleet.Json

def ofUInt64 (n : UInt64) : Value := .number (.natural n)

def ofUInt32 (n : UInt32) : Value := .number (.natural n.toUInt64)

def ofNat (n : Nat) : Value := .number (.natural (UInt64.ofNat n))

def ofFloat (x : Binary64) : Value := .number (.float x)

def ofOption {α : Type} (write : α → Value) : Option α → Value
  | some a => write a
  | none => .null

def ofList {α : Type} (write : α → Value) (items : List α) : Value := .array (items.map write)

def ofTexts : List String → Value := ofList .text

/-- An optional text, `null` for none. -/
def ofText? : Option String → Value := ofOption .text

def ofInterval (i : TimeInterval) : Value :=
  .object [("start", ofOption ofUInt64 i.start), ("end", ofOption ofUInt64 i.stop)]

def Outline.texts? : Outline → Option (List String) := Outline.list? Outline.text?

def Outline.interval? (o : Outline) : Option TimeInterval :=
  match o.fields? ["start", "end"] with
  | some [start, stop] => do
    return { start := ← omissible natural? start, stop := ← omissible natural? stop }
  | _ => none

end Fleet.Json
