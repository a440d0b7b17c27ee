import Fleet.Toml.Table
import Fleet.Toml.Number
import Fleet.Toml.Moment

/-!
# TOML documents

A document is read statement by statement: a comment, the header of a table or of an element of an
array of tables, or a key with its value. Every statement ends with its line. Arrays may extend over
lines and hold comments; tables in braces stay on one line.

Recursion is over `fuel`, which `read` takes from the length of the text: every call reads at least
one character more than its caller. Apart from it there is a limit on nesting, seventy-nine
containers within each other, and the same one on the parts of a key.
-/

set_option autoImplicit false

namespace Fleet.Toml

/-- The first number of open containers, or of parts of a key, that is too many. -/
def depthLimit : Nat := 80

/-! ## Blanks, comments and line ends -/

def dropGap (cs : List Char) : List Char := cs.dropWhile isGap

/-- What follows a comment, if one starts here, up to the end of the line. -/
def dropComment : List Char → List Char
  | '#' :: rest => rest.dropWhile isVisible
  | cs => cs

/-- What follows a line break, or the end of the text. -/
def afterLine? : List Char → Option (List Char)
  | [] => some []
  | '\n' :: rest => some rest
  | '\r' :: '\n' :: rest => some rest
  | _ => none

/-- What follows the line of a finished statement. -/
def endStatement? (cs : List Char) : Option (List Char) := afterLine? (dropComment (dropGap cs))

/-- Drops blanks, line breaks and comments. -/
def dropLayout : (fuel : Nat) → List Char → List Char
  | 0, cs => cs
  | fuel + 1, cs =>
    match dropGap cs with
    | '\n' :: rest => dropLayout fuel rest
    | '\r' :: '\n' :: rest => dropLayout fuel rest
    | '#' :: rest => dropLayout fuel (rest.dropWhile isVisible)
    | rest => rest

/-! ## Keys -/

def isBareKey (c : Char) : Bool := c.isAlphanum || c == '_' || c == '-'

/-- One part of a key. -/
def keyPart? (cs : List Char) : Reading String :=
  match cs with
  | '"' :: rest => (basicText rest).map fun (s, rest) => (String.ofList s, rest)
  | '\x27' :: rest => (literalText rest).map fun (s, rest) => (String.ofList s, rest)
  | cs =>
    match cs.span isBareKey with
    | ([], _) => none
    | (part, rest) => some (String.ofList part, rest)

/-- The parts of a key with dots between them and blanks around them. -/
def keyParts? : (fuel : Nat) → List Char → Option (List String × List Char)
  | 0, _ => none
  | fuel + 1, cs => do
    let (part, rest) ← keyPart? (dropGap cs)
    match dropGap rest with
    | '.' :: rest =>
      let (parts, rest) ← keyParts? fuel rest
      return (part :: parts, rest)
    | rest => return ([part], rest)

/-- A key as a path and its last part. -/
def key? (cs : List Char) : Option ((List String × String) × List Char) := do
  let (parts, rest) ← keyParts? depthLimit cs
  if depthLimit ≤ parts.length then none
  else return ((parts.dropLast, ← parts.getLast?), rest)

/-! ## Values -/

mutual

/-- The value at the start of a text, inside `depth` open containers. -/
def value? : (fuel depth : Nat) → List Char → Option (Value × List Char)
  | 0, _, _ => none
  | fuel + 1, depth, cs =>
    match cs with
    | '[' :: rest =>
      if depthLimit ≤ depth + 1 then none
      else do
        let (items, rest) ← items? fuel (depth + 1) rest
        return (.array items, rest)
    | '{' :: rest =>
      if depthLimit ≤ depth + 1 then none
      else
        match dropGap rest with
        | '}' :: rest => some (.table [], rest)
        | rest => do
          let (entries, rest) ← members? fuel (depth + 1) [] rest
          return (.table (entryValues entries), rest)
    | 't' :: 'r' :: 'u' :: 'e' :: rest => some (.boolean true, rest)
    | 'f' :: 'a' :: 'l' :: 's' :: 'e' :: rest => some (.boolean false, rest)
    | '"' :: _ => (text? cs).map fun (s, rest) => (.text s, rest)
    | '\x27' :: _ => (text? cs).map fun (s, rest) => (.text s, rest)
    | cs =>
      match moment? cs with
      | some reading => some reading
      | none => number? cs

/-- The items of an array and what follows its end. -/
def items? : (fuel depth : Nat) → List Char → Option (List Value × List Char)
  | 0, _, _ => none
  | fuel + 1, depth, cs =>
    match dropLayout cs.length cs with
    | ']' :: rest => some ([], rest)
    | cs => do
      let (v, rest) ← value? fuel depth cs
      match dropLayout rest.length rest with
      | ',' :: rest =>
        let (vs, rest) ← items? fuel depth rest
        return (v :: vs, rest)
      | ']' :: rest => return ([v], rest)
      | _ => none

/-- The entries of a table in braces, behind those before them, and what follows its end. -/
def members? : (fuel depth : Nat) → Entries → List Char → Option (Entries × List Char)
  | 0, _, _, _ => none
  | fuel + 1, depth, entries, cs => do
    let ((path, key), rest) ← key? cs
    match rest with
    | '=' :: rest =>
      let (v, rest) ← value? fuel depth (dropGap rest)
      let entries ← assign path key v .explicit entries
      match dropGap rest with
      | ',' :: rest => members? fuel depth entries rest
      | '}' :: rest => return (entries, rest)
      | _ => none
    | _ => none

end

/-! ## Statements -/

/-- A document under way: its entries, and the path of the table that keys go into. -/
structure Draft where
  entries : Entries := []
  current : List String := []

/-- The header of a table or of an element, behind its first bracket. -/
def header? (d : Draft) (cs : List Char) : Option (Draft × List Char) := do
  match cs with
  | '[' :: cs =>
    let ((path, key), rest) ← key? cs
    match rest with
    | ']' :: ']' :: rest =>
      return (⟨← openElement path key d.entries, path ++ [key]⟩, ← endStatement? rest)
    | _ => none
  | cs =>
    let ((path, key), rest) ← key? cs
    match rest with
    | ']' :: rest =>
      return (⟨← openTable path key d.entries, path ++ [key]⟩, ← endStatement? rest)
    | _ => none

/-- A key with its value. -/
def assignment? (d : Draft) (cs : List Char) : Option (Draft × List Char) := do
  let ((path, key), rest) ← key? cs
  match rest with
  | '=' :: rest =>
    let (v, rest) ← value? (2 * rest.length + 2) 0 (dropGap rest)
    let entries ← alongPath .implied (assign path key v) d.current .explicit d.entries
    return ({ d with entries }, ← endStatement? rest)
  | _ => none

/-- Reads all statements. -/
def statements? : (fuel : Nat) → Draft → List Char → Option Draft
  | 0, _, _ => none
  | fuel + 1, d, cs =>
    match dropGap cs with
    | [] => some d
    | '#' :: rest => do statements? fuel d (← endStatement? ('#' :: rest))
    | '\n' :: rest => statements? fuel d rest
    | '\r' :: '\n' :: rest => statements? fuel d rest
    | '[' :: rest => do
      let (d, rest) ← header? d rest
      statements? fuel d rest
    | cs => do
      let (d, rest) ← assignment? d cs
      statements? fuel d rest

/-- The entries of the document that a text writes. A byte order mark in front is no part of it. -/
def read? (s : String) : Option (List (String × Value)) :=
  let cs := match s.toList with
    | '\ufeff' :: rest => rest
    | cs => cs
  (statements? (cs.length + 1) {} cs).map fun d => entryValues d.entries

end Fleet.Toml
