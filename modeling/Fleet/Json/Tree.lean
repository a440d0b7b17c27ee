import Fleet.Binary64.Rounding

/-!
# JSON trees

A JSON text denotes a tree of objects and arrays over leaves. `Tree` leaves open what a number and
what a text is, because two readers need different leaves. A reader that wants the whole value
(`Value`) needs every leaf to be readable. A reader that wants some fields of a document skims over
the others (`Outline`): a number outside every range or a text with half a surrogate pair is a
fault only if somebody asks for it.

Members keep the order of the text, and a name may repeat. `Value.canonical` is the tree with the
members of every object sorted by name, the last of several members of one name kept.
-/

set_option autoImplicit false

namespace Fleet.Json

/-! ## Leaves -/

/-- A JSON number: a whole number of sixty-four bits where it is one, a double otherwise. -/
inductive Number where
  | natural (n : UInt64)
  /-- A whole number below zero. -/
  | negative (n : Int64)
  | float (x : Binary64)
deriving DecidableEq, Repr

/-- The number as a double, rounded to the nearest one. -/
def Number.toBinary64 : Number → Binary64
  | .natural n => Binary64.ofNat n.toNat
  | .negative n => (Binary64.ofNat n.toInt.natAbs).withSign true
  | .float x => x

/-- Why a text is not JSON, in the order in which a reader meets the parts of a value. -/
inductive Cause where
  | endInList | endInObject | endInText | endInValue
  | expectedColon | expectedCommaOrBracket | expectedCommaOrBrace | expectedWord | expectedValue
  | badEscape | badNumber | numberOutOfRange | controlCharacter | keyNotText
  | unpairedSurrogate | unfinishedSurrogate
  | trailingComma | trailingCharacters | tooDeep
deriving DecidableEq, Repr

/-- A cause and the number of bytes that the reader had seen when it met it. -/
structure Fault where
  cause : Cause
  seen : Nat
deriving DecidableEq, Repr

/-! ## Trees -/

inductive Tree (ν τ : Type) where
  | null
  | boolean (b : Bool)
  | number (n : ν)
  | text (s : τ)
  | array (items : List (Tree ν τ))
  | object (members : List (τ × Tree ν τ))

/-- A JSON value with every leaf read. -/
abbrev Value := Tree Number String

/-- A JSON text of the right shape, its leaves read or faulty. -/
abbrev Outline := Tree (Except Fault Number) (Except Fault String)

namespace Value

/-- Puts a member before those of greater names; one of the same name that is already there came
later in the text and stays. -/
def insertMember (name : String) (v : Value) : List (String × Value) → List (String × Value)
  | [] => [(name, v)]
  | (n, w) :: rest =>
    if name < n then (name, v) :: (n, w) :: rest
    else if name = n then (n, w) :: rest
    else (n, w) :: insertMember name v rest

mutual

/-- The same value with the members of every object in the order of their names, each name once. -/
def canonical : Value → Value
  | .null => .null
  | .boolean b => .boolean b
  | .number n => .number n
  | .text s => .text s
  | .array items => .array (canonicalItems items)
  | .object members => .object (canonicalMembers members)

def canonicalItems : List Value → List Value
  | [] => []
  | v :: vs => canonical v :: canonicalItems vs

def canonicalMembers : List (String × Value) → List (String × Value)
  | [] => []
  | (name, v) :: rest => insertMember name (canonical v) (canonicalMembers rest)

end

end Value

end Fleet.Json
