import Fleet.Text.Hex

/-!
# Texts in TOML

The four ways of writing a text: basic ones between double quotes with escapes, literal ones between
single quotes without, and both as several lines between three quotes. A text of several lines drops
a line break right behind its opening quotes, takes every line break as a line feed, and may hold up
to two quotes in a row, also right before its closing ones. Behind a backslash at the end of a line
a basic text drops all blanks and line breaks.

Every reader here starts behind the opening quotes and answers with the text and the rest behind the
closing ones.
-/

set_option autoImplicit false

namespace Fleet.Toml

/-- A character that may stand for itself in a literal text or a comment, quotes aside: everything
but the controls other than the tab. -/
def isVisible (c : Char) : Bool := c == '\t' || (0x20 ≤ c.toNat && c.toNat != 0x7f)

/-- A blank within a line. -/
def isGap (c : Char) : Bool := c == ' ' || c == '\t'

/-- A text and what follows it. -/
abbrev Reading (α : Type) := Option (α × List Char)

/-- Puts a character, if there is one, in front of what is read. -/
def Reading.cons (c : Option Char) (r : Reading (List Char)) : Reading (List Char) :=
  c.bind fun c => r.map fun (cs, rest) => (c :: cs, rest)

/-! ## Escapes -/

/-- The character of an escape of one letter. -/
def escaped? : Char → Option Char
  | 'b' => some '\x08'
  | 't' => some '\t'
  | 'n' => some '\n'
  | 'f' => some '\x0c'
  | 'r' => some '\r'
  | '"' => some '"'
  | '\\' => some '\\'
  | _ => none

/-- The character whose code point is written in hexadecimal; surrogates are none. -/
def codePoint? (digits : List Char) : Option Char := do
  let n ← digits.foldlM (fun n c => (Text.Hex.value? c).map (n * 16 + ·)) 0
  if n.isValidChar then some (Char.ofNat n) else none

/-! ## One line -/

def basicText : List Char → Reading (List Char)
  | [] => none
  | '"' :: rest => some ([], rest)
  | '\\' :: 'u' :: a :: b :: c :: d :: rest =>
    Reading.cons (codePoint? [a, b, c, d]) (basicText rest)
  | '\\' :: 'U' :: a :: b :: c :: d :: e :: f :: g :: h :: rest =>
    Reading.cons (codePoint? [a, b, c, d, e, f, g, h]) (basicText rest)
  | '\\' :: c :: rest => Reading.cons (escaped? c) (basicText rest)
  | c :: rest => if c != '\\' && isVisible c then Reading.cons c (basicText rest) else none

def literalText : List Char → Reading (List Char)
  | [] => none
  | '\x27' :: rest => some ([], rest)
  | c :: rest => if isVisible c then Reading.cons c (literalText rest) else none

/-! ## Several lines -/

/-- The rest of a text without a line break at its start. -/
def dropLineBreak : List Char → List Char
  | '\n' :: rest => rest
  | '\r' :: '\n' :: rest => rest
  | cs => cs

/-- Nothing but blanks stands before the end of the line. -/
def endsLine (cs : List Char) : Bool :=
  match cs.dropWhile isGap with
  | '\n' :: _ => true
  | '\r' :: '\n' :: _ => true
  | _ => false

/-- While `joining`, blanks and line breaks are dropped. -/
def basicLines : (joining : Bool) → List Char → Reading (List Char)
  | _, [] => none
  | _, '"' :: '"' :: '"' :: '"' :: '"' :: rest => some (['"', '"'], rest)
  | _, '"' :: '"' :: '"' :: '"' :: rest => some (['"'], rest)
  | _, '"' :: '"' :: '"' :: rest => some ([], rest)
  | joining, '\n' :: rest =>
    if joining then basicLines true rest else Reading.cons '\n' (basicLines false rest)
  | joining, '\r' :: '\n' :: rest =>
    if joining then basicLines true rest else Reading.cons '\n' (basicLines false rest)
  | _, '\\' :: 'u' :: a :: b :: c :: d :: rest =>
    Reading.cons (codePoint? [a, b, c, d]) (basicLines false rest)
  | _, '\\' :: 'U' :: a :: b :: c :: d :: e :: f :: g :: h :: rest =>
    Reading.cons (codePoint? [a, b, c, d, e, f, g, h]) (basicLines false rest)
  | _, '\\' :: c :: rest =>
    if endsLine (c :: rest) then basicLines true (c :: rest)
    else Reading.cons (escaped? c) (basicLines false rest)
  | joining, c :: rest =>
    if joining && isGap c then basicLines true rest
    else if c != '\\' && isVisible c then Reading.cons c (basicLines false rest)
    else none

def literalLines : List Char → Reading (List Char)
  | [] => none
  | '\x27' :: '\x27' :: '\x27' :: '\x27' :: '\x27' :: rest => some (['\x27', '\x27'], rest)
  | '\x27' :: '\x27' :: '\x27' :: '\x27' :: rest => some (['\x27'], rest)
  | '\x27' :: '\x27' :: '\x27' :: rest => some ([], rest)
  | '\n' :: rest => Reading.cons '\n' (literalLines rest)
  | '\r' :: '\n' :: rest => Reading.cons '\n' (literalLines rest)
  | c :: rest => if isVisible c then Reading.cons c (literalLines rest) else none

/-! ## Any text -/

/-- The text that starts with a quote. -/
def text? (cs : List Char) : Reading String :=
  let chars := match cs with
    | '"' :: '"' :: '"' :: rest => basicLines false (dropLineBreak rest)
    | '"' :: rest => basicText rest
    | '\x27' :: '\x27' :: '\x27' :: rest => literalLines (dropLineBreak rest)
    | '\x27' :: rest => literalText rest
    | _ => none
  chars.map fun (s, rest) => (String.ofList s, rest)

end Fleet.Toml
