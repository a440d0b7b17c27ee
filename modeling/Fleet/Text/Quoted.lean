import Fleet.Text.Printable

/-!
# Quoted text

How a piece of input is shown inside an error message: between double quotes, with the quote, the
backslash and the common controls behind a backslash, and every other character that does not print
by itself as its code point between braces.
-/

set_option autoImplicit false

namespace Fleet.Text

/-- The hexadecimal numeral of `n`, without leading zeros. -/
def hexNumeral (n : Nat) : List Char := Nat.toDigits 16 n

/-- A character as it is written between quotes. -/
def quotedChar (c : Char) : List Char :=
  match c with
  | '"' => ['\\', '"']
  | '\\' => ['\\', '\\']
  | '\n' => ['\\', 'n']
  | '\r' => ['\\', 'r']
  | '\t' => ['\\', 't']
  | '\x00' => ['\\', '0']
  | c => if isPrintable c then [c] else ['\\', 'u', '\x7b'] ++ hexNumeral c.toNat ++ ['\x7d']

/-- A text between double quotes, every character shown. -/
def quoted (s : String) : String :=
  String.ofList ('"' :: s.toList.flatMap quotedChar ++ ['"'])

end Fleet.Text
