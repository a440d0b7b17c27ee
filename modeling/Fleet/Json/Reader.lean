import Fleet.Json.Token

/-!
# Reading JSON

The grammatical half of reading: one step per token over a stack of holes. A hole is a place in an
open array or object where a value is missing, with what stands before it, and the stack holds one
hole for every open container around the place of reading. Reading a text therefore is a left fold
over its tokens, and nesting costs no recursion.

`Phase` says what may come next. Every token that does not fit, and the end of the text, has one
cause in every phase. `readWith` is the fold under a policy for leaves and depth; `read` takes
nothing but readable leaves and at most 127 containers inside one another, `skim` takes every text
of the right shape.
-/

set_option autoImplicit false

namespace Fleet.Json

/-- A place for a value in an open container, with the earlier items or members, the latest
first. -/
inductive Hole (ν τ : Type) where
  | item (before : List (Tree ν τ))
  | member (before : List (τ × Tree ν τ)) (name : τ)

/-- What may come next, with what is known of the innermost open container if it has no hole. -/
inductive Phase (ν τ : Type) where
  /-- A value for the innermost hole, or the whole value. -/
  | value
  /-- The first item of an array, or its end. -/
  | firstItem
  /-- An item behind a comma. -/
  | item (before : List (Tree ν τ))
  /-- A comma or the end of an array. -/
  | itemEnd (items : List (Tree ν τ))
  /-- The first name of an object, or its end. -/
  | firstName
  /-- A name behind a comma. -/
  | name (before : List (τ × Tree ν τ))
  | colon (before : List (τ × Tree ν τ)) (name : τ)
  /-- A comma or the end of an object. -/
  | memberEnd (members : List (τ × Tree ν τ))
  /-- Nothing more. -/
  | finished (v : Tree ν τ)

structure State (ν τ : Type) where
  holes : List (Hole ν τ)
  phase : Phase ν τ

/-- What counts as a readable leaf, and how deep containers may nest. -/
structure Policy (ν τ : Type) where
  number : Except Fault Number → Except Fault ν
  text : Except Fault String → Except Fault τ
  depth : Option Nat

variable {ν τ : Type}

/-- Puts a complete value into the innermost hole. -/
def deliver (v : Tree ν τ) : List (Hole ν τ) → State ν τ
  | [] => ⟨[], .finished v⟩
  | .item before :: holes => ⟨holes, .itemEnd (v :: before)⟩
  | .member before name :: holes => ⟨holes, .memberEnd ((name, v) :: before)⟩

/-- The fault of a token that stands where another one is expected. -/
def Token.unexpected {α : Type} (t : Token) (cause : Cause) : Except Fault α :=
  .error ⟨cause, t.start + 1⟩

/-- Starts a value for the innermost of the holes. -/
def start (p : Policy ν τ) (holes : List (Hole ν τ)) (t : Token) : Except Fault (State ν τ) :=
  -- the container that starts here counts as open
  let tooDeep := match p.depth with
    | some limit => decide (limit ≤ holes.length + 1)
    | none => false
  match t.kind with
  | .null => .ok (deliver .null holes)
  | .boolean b => .ok (deliver (.boolean b) holes)
  | .number n => (p.number n).map fun n => deliver (.number n) holes
  | .text s => (p.text s).map fun s => deliver (.text s) holes
  | .openArray => if tooDeep then t.unexpected .tooDeep else .ok ⟨holes, .firstItem⟩
  | .openObject => if tooDeep then t.unexpected .tooDeep else .ok ⟨holes, .firstName⟩
  -- what the scanner found wrong is told wherever it stands
  | .broken _ fault => .error fault
  | .closeArray | .closeObject | .comma | .colon => t.unexpected .expectedValue

/-- Reads a member name. -/
def startName (p : Policy ν τ) (holes : List (Hole ν τ)) (before : List (τ × Tree ν τ))
    (t : Token) : Except Fault (State ν τ) :=
  match t.kind with
  | .text s => (p.text s).map fun s => ⟨holes, .colon before s⟩
  | .broken true fault => .error fault
  | _ => t.unexpected .keyNotText

/-- Reads one token. -/
def step (p : Policy ν τ) (s : State ν τ) (t : Token) : Except Fault (State ν τ) :=
  match s.phase with
  | .value => start p s.holes t
  | .firstItem =>
    match t.kind with
    | .closeArray => .ok (deliver (.array []) s.holes)
    | _ => start p (.item [] :: s.holes) t
  | .item before =>
    match t.kind with
    | .closeArray => t.unexpected .trailingComma
    | _ => start p (.item before :: s.holes) t
  | .itemEnd items =>
    match t.kind with
    | .comma => .ok ⟨s.holes, .item items⟩
    | .closeArray => .ok (deliver (.array items.reverse) s.holes)
    | _ => t.unexpected .expectedCommaOrBracket
  | .firstName =>
    match t.kind with
    | .closeObject => .ok (deliver (.object []) s.holes)
    | _ => startName p s.holes [] t
  | .name before =>
    match t.kind with
    | .closeObject => t.unexpected .trailingComma
    | _ => startName p s.holes before t
  | .colon before name =>
    match t.kind with
    | .colon => .ok ⟨.member before name :: s.holes, .value⟩
    | _ => t.unexpected .expectedColon
  | .memberEnd members =>
    match t.kind with
    | .comma => .ok ⟨s.holes, .name members⟩
    | .closeObject => .ok (deliver (.object members.reverse) s.holes)
    | _ => t.unexpected .expectedCommaOrBrace
  | .finished _ => t.unexpected .trailingCharacters

/-- The value at the end of a text of `length` bytes. -/
def finish (length : Nat) (s : State ν τ) : Except Fault (Tree ν τ) :=
  match s.phase with
  | .finished v => .ok v
  | .value | .item _ | .name _ => .error ⟨.endInValue, length⟩
  | .firstItem | .itemEnd _ => .error ⟨.endInList, length⟩
  | .firstName | .colon _ _ | .memberEnd _ => .error ⟨.endInObject, length⟩

def State.initial : State ν τ := ⟨[], .value⟩

/-- The value that a text denotes under a policy. -/
def readWith (p : Policy ν τ) (cs : List Char) : Except Fault (Tree ν τ) := do
  finish (utf8Length cs) (← (tokens cs).foldlM (step p) State.initial)

/-- Every leaf has to be readable, and at most 127 containers may be open at once. -/
def strict : Policy Number String := ⟨id, id, some 128⟩

/-- Faulty leaves stay in the tree, at any depth. -/
def lenient : Policy (Except Fault Number) (Except Fault String) := ⟨.ok, .ok, none⟩

/-- The value that a text denotes. -/
def read (s : String) : Except Fault Value := readWith strict s.toList

/-- The outline of a text. -/
def skim (s : String) : Except Fault Outline := readWith lenient s.toList

/-! ## Messages -/

def Cause.message : Cause → String
  | .endInList => "EOF while parsing a list"
  | .endInObject => "EOF while parsing an object"
  | .endInText => "EOF while parsing a string"
  | .endInValue => "EOF while parsing a value"
  | .expectedColon => "expected `:`"
  | .expectedCommaOrBracket => "expected `,` or `]`"
  | .expectedCommaOrBrace => "expected `,` or `\x7d`"
  | .expectedWord => "expected ident"
  | .expectedValue => "expected value"
  | .badEscape => "invalid escape"
  | .badNumber => "invalid number"
  | .numberOutOfRange => "number out of range"
  | .controlCharacter => "control character (\\u0000-\\u001F) found while parsing a string"
  | .keyNotText => "key must be a string"
  | .unpairedSurrogate => "lone leading surrogate in hex escape"
  | .unfinishedSurrogate => "unexpected end of hex escape"
  | .trailingComma => "trailing comma"
  | .trailingCharacters => "trailing characters"
  | .tooDeep => "recursion limit exceeded"

/-- The line, counted from one, and the number of bytes behind its start, after `seen` bytes. A
character that the count cuts in two adds the bytes of its front part. -/
def position (line column : Nat) : (seen : Nat) → List Char → Nat × Nat
  | _, [] => (line, column)
  | seen, c :: rest =>
    if seen = 0 then (line, column)
    -- the count ends inside this character
    else if seen < c.utf8Size then (line, column + seen)
    else if c = '\n' then position (line + 1) 0 (seen - 1) rest
    else position line (column + c.utf8Size) (seen - c.utf8Size) rest

/-- A fault in words, with its place in the text. -/
def Fault.message (f : Fault) (s : String) : String :=
  let place := position 1 0 f.seen s.toList
  f.cause.message ++ " at line " ++ toString place.1 ++ " column " ++ toString place.2

end Fleet.Json
