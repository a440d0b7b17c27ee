import Fleet.Json.Tree
import Fleet.Binary64.Text

/-!
# Writing JSON

The compact text of a value: no blanks, members in the order in which the value holds them. Inside
a text the quote, the backslash and the controls are escaped and nothing else is. A double is
written with its shortest digits, positionally from `1e-5` up to below `1e16`; one that is not
finite has no JSON text and is written as `null`.
-/

set_option autoImplicit false

namespace Fleet.Json

/-- Doubles from `1e-5` up to below `1e16` are written without an exponent. -/
def layout : Binary64.Layout := ⟨-5, 15⟩

def Number.chars : Number → List Char
  | .natural n => Text.decimal n.toNat
  | .negative n => '-' :: Text.decimal n.toInt.natAbs
  | .float x => if x.isFinite then x.text layout else ['n', 'u', 'l', 'l']

/-- A character as it is written inside a text. -/
def escapedChar (c : Char) : List Char :=
  match c with
  | '"' => ['\\', '"']
  | '\\' => ['\\', '\\']
  | '\x08' => ['\\', 'b']
  | '\x0c' => ['\\', 'f']
  | '\n' => ['\\', 'n']
  | '\r' => ['\\', 'r']
  | '\t' => ['\\', 't']
  | c => if c.toNat < 0x20 then ['\\', 'u'] ++ Text.Hex.word 4 c.toNat else [c]

def textChars (s : String) : List Char := '"' :: s.toList.flatMap escapedChar ++ ['"']

namespace Value

mutual

/-- The compact text of a value. -/
def chars : Value → List Char
  | .null => ['n', 'u', 'l', 'l']
  | .boolean true => ['t', 'r', 'u', 'e']
  | .boolean false => ['f', 'a', 'l', 's', 'e']
  | .number n => n.chars
  | .text s => textChars s
  | .array items => '[' :: itemChars items
  | .object members => '{' :: memberChars members

/-- Items with the commas between them and the closing bracket. -/
def itemChars : List Value → List Char
  | [] => [']']
  | [v] => chars v ++ [']']
  | v :: vs => chars v ++ ',' :: itemChars vs

/-- Members with the commas between them and the closing brace. -/
def memberChars : List (String × Value) → List Char
  | [] => ['}']
  | [(name, v)] => textChars name ++ ':' :: chars v ++ ['}']
  | (name, v) :: rest => textChars name ++ ':' :: chars v ++ ',' :: memberChars rest

end

/-- The compact text of a value as a string. -/
def render (v : Value) : String := String.ofList v.chars

end Value

end Fleet.Json
