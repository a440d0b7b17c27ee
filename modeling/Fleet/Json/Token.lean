import Fleet.Json.Tree
import Fleet.Text.Hex
import Fleet.Text.Numeral

/-!
# JSON tokens

The lexical half of reading: a text becomes a list of tokens, each with the byte position of its
first character. Lexing needs no context. What cannot start a token, or starts one and does not
finish it, becomes a `broken` token that ends the list; whether its own fault is reported, or that
something else was expected at its place, is for the grammar to say (`Fleet.Json.Reader`).

Faults count bytes. A fault found by looking at the next byte counts that byte too; a fault found
after taking a byte counts the bytes taken; at the end of the text both count all of it.

A leaf may be lexically complete and still not be a value: a number beyond the greatest double, or
an escape that names half a surrogate pair. Such a leaf is a token that carries its fault.
-/

set_option autoImplicit false

namespace Fleet.Json

inductive TokenKind where
  | openArray | closeArray | openObject | closeObject | comma | colon
  | null
  | boolean (b : Bool)
  | number (n : Except Fault Number)
  | text (s : Except Fault String)
  /-- Nothing readable; `quoted` if it starts like a text. -/
  | broken (quoted : Bool) (fault : Fault)

structure Token where
  kind : TokenKind
  /-- The number of bytes before the token. -/
  start : Nat

def isSpace (c : Char) : Bool := c == ' ' || c == '\n' || c == '\t' || c == '\r'

def utf8Length : List Char → Nat
  | [] => 0
  | c :: cs => c.utf8Size + utf8Length cs

/-! ## Numbers -/

/-- A number as it is written: sign, digits before the point, digits after it, and the exponent
with its sign. -/
structure Literal where
  negative : Bool
  whole : List Nat
  fraction : List Nat
  exponent : Option (Bool × List Nat)

/-- Adds digits to a significand while it stays below `2 ^ 64`; the digits from the first one that
does not fit count as dropped. -/
def absorb : (significand : Nat) → List Nat → Nat × Nat
  | m, [] => (m, 0)
  | m, d :: ds => if m * 10 + d < 2 ^ 64 then absorb (m * 10 + d) ds else (m, ds.length + 1)

/-- The value of exponent digits up to `2 ^ 31 - 1`, or the number of digits up to the one that
passes it. -/
def exponentValue : (value : Nat) → (count : Nat) → List Nat → Except Nat Nat
  | e, _, [] => .ok e
  | e, k, d :: ds =>
    if e * 10 + d < 2 ^ 31 then exponentValue (e * 10 + d) (k + 1) ds else .error (k + 1)

/-- Divides by `10 ^ n`, by `10 ^ 308` at a time; zero stays zero. -/
def shrink (x : Binary64) (n : Nat) : Binary64 :=
  if n ≤ 308 then x.div (Binary64.tenTo n)
  else if x.isZero then x
  else shrink (x.div (Binary64.tenTo 308)) (n - 308)
termination_by n

/-- A significand times a power of ten, `none` beyond the greatest double. -/
def scale? (significand : Nat) (e : Int) : Option Binary64 :=
  let x := Binary64.ofNat significand
  if e < 0 then some (shrink x e.natAbs)
  else if x.isZero then some x
  else if 308 < e then none
  else
    let y := x.mul (Binary64.tenTo e.toNat)
    if y.isFinite then some y else none

/-- A 32-bit exponent does not leave its range. -/
def clampExponent (e : Int) : Int := max (-(2 ^ 31)) (min (2 ^ 31 - 1) e)

/-- The number that a literal denotes. `exponentStart` and `stop` are the byte positions of the
first exponent digit and of the end of the literal. -/
def Literal.value (l : Literal) (exponentStart stop : Nat) : Except Fault Number :=
  let (m, droppedWhole) := absorb 0 l.whole
  let (m', droppedFraction) := absorb m l.fraction
  -- dropped digits in front of the point move it to the right, those behind it do not count
  let point : Int := droppedWhole - (l.fraction.length - droppedFraction : Nat)
  let float (x? : Option Binary64) : Except Fault Number :=
    match x? with
    | some x => .ok (.float (x.withSign l.negative))
    | none => .error ⟨.numberOutOfRange, stop⟩
  match l.exponent with
  | some (down, ds) =>
    match exponentValue 0 0 ds with
    | .ok e => float (scale? m' (clampExponent (if down then point - e else point + e)))
    -- an exponent beyond all bounds makes zero, or no number
    | .error taken =>
      if m' ≠ 0 && !down then .error ⟨.numberOutOfRange, exponentStart + taken⟩
      else float (some Binary64.zero)
  | none =>
    -- a whole number that fits stays one; minus zero does not count as whole
    if l.fraction.isEmpty && droppedWhole = 0 then
      if !l.negative then .ok (.natural (UInt64.ofNat m))
      else if 0 < m && m ≤ 2 ^ 63 then .ok (.negative (Int64.ofInt (-m)))
      else float (some (Binary64.ofNat m))
    else float (scale? m' point)

/-- The digits at the front of a text. -/
def leadingDigits (cs : List Char) : List Nat :=
  (cs.takeWhile Text.isDigit).map fun c => c.toNat - '0'.toNat

/-- What a scanner found: a token with the number of characters it takes, or a fault that ends the
text. -/
inductive Scan where
  | token (kind : TokenKind) (length : Nat)
  | fault (f : Fault)

/-- The fault of a byte that had to be a digit, found by looking at it. -/
def missingDigit (seen : Nat) (rest : List Char) : Fault :=
  if rest.isEmpty then ⟨.endInValue, seen⟩ else ⟨.badNumber, seen + 1⟩

/-- Scans the exponent of a number of which `length` characters are known, then values it. -/
def scanExponent (start : Nat) (l : Literal) (length : Nat) (rest : List Char) : Scan :=
  match rest with
  | e :: rest =>
    if e = 'e' || e = 'E' then
      let signed := match rest with
        | '+' :: _ => (false, 1)
        | '-' :: _ => (true, 1)
        | _ => (false, 0)
      let body := rest.drop signed.2
      let digits := leadingDigits body
      let first := length + 1 + signed.2
      if digits.isEmpty then .fault (missingDigit (start + first) body)
      else
        let stop := first + digits.length
        .token (.number ({ l with exponent := some (signed.1, digits) }.value
          (start + first) (start + stop))) stop
    else .token (.number (l.value 0 (start + length))) length
  | [] => .token (.number (l.value 0 (start + length))) length

/-- Scans the digits of a number, of whose sign `sign` characters are known. -/
def scanDigits (start : Nat) (negative : Bool) (sign : Nat) (body : List Char) : Scan :=
  let whole := leadingDigits body
  let rest := body.drop whole.length
  if whole.isEmpty then .fault (missingDigit (start + sign) body)
  else if whole.head? == some 0 && 1 < whole.length then .fault ⟨.badNumber, start + sign + 2⟩
  else
    let length := sign + whole.length
    match rest with
    | '.' :: rest =>
      let fraction := leadingDigits rest
      if fraction.isEmpty then .fault (missingDigit (start + length + 1) rest)
      else
        scanExponent start ⟨negative, whole, fraction, none⟩ (length + 1 + fraction.length)
          (rest.drop fraction.length)
    | rest => scanExponent start ⟨negative, whole, [], none⟩ length rest

/-- Scans a number; `cs` starts with its sign or its first digit. -/
def scanNumber (start : Nat) (cs : List Char) : Scan :=
  match cs with
  | '-' :: body => scanDigits start true 1 body
  | body => scanDigits start false 0 body

/-! ## Texts -/

/-- The character that a one-letter escape stands for. -/
def escaped? : Char → Option Char
  | '"' => some '"'
  | '\\' => some '\\'
  | '/' => some '/'
  | 'b' => some '\x08'
  | 'f' => some '\x0c'
  | 'n' => some '\n'
  | 'r' => some '\r'
  | 't' => some '\t'
  | _ => none

/-- The code unit of four hexadecimal digits. -/
def codeUnit? (a b c d : Char) : Option Nat :=
  match Text.Hex.value? a, Text.Hex.value? b, Text.Hex.value? c, Text.Hex.value? d with
  | some a, some b, some c, some d => some (((a * 16 + b) * 16 + c) * 16 + d)
  | _, _, _, _ => none

def isLeading (u : Nat) : Bool := 0xd800 ≤ u && u ≤ 0xdbff

def isTrailing (u : Nat) : Bool := 0xdc00 ≤ u && u ≤ 0xdfff

/-- The character of a surrogate pair. -/
def pairChar (lead trail : Nat) : Char :=
  Char.ofNat ((lead - 0xd800) * 0x400 + (trail - 0xdc00) + 0x10000)

/-- The fault of an escape `\u` without four hexadecimal digits behind it. -/
def badCodeUnit (seen : Nat) (rest : List Char) : Fault :=
  if utf8Length rest < 4 then ⟨.endInText, seen + utf8Length rest⟩ else ⟨.badEscape, seen + 4⟩

/-- The earlier of two faults, the first argument being the earlier one if it is there. -/
def earlier (known : Option Fault) (f : Fault) : Option Fault := some (known.getD f)

/-- The first fault so far, when something other than a second escape stands behind a leading
surrogate. -/
def unfinished (lead : Option Nat) (known : Option Fault) (seen : Nat) : Option Fault :=
  match lead with
  | some _ => earlier known ⟨.unfinishedSurrogate, seen⟩
  | none => known

/-- Scans a text from behind its opening quote. `seen` counts the bytes before the rest of it,
`length` the characters of the token so far, `read` holds the characters read, the latest first,
`lead` is a leading surrogate that stands directly before the rest, and `known` is the first fault
of a text that may still be complete. -/
def scanText (seen length : Nat) (read : List Char) (lead : Option Nat) (known : Option Fault) :
    List Char → Scan
  | [] => .fault (known.getD ⟨.endInText, seen⟩)
  -- a text with a faulty escape is a token all the same, which a lenient reader passes over
  | '"' :: _ =>
    .token (.text (match unfinished lead known (seen + 1) with
      | some f => .error f
      | none => .ok (String.ofList read.reverse))) (length + 1)
  | '\\' :: 'u' :: a :: b :: c :: d :: rest =>
    match codeUnit? a b c d, lead with
    | none, _ => .fault (known.getD (badCodeUnit (seen + 2) (a :: b :: c :: d :: rest)))
    -- two surrogates make one character
    | some u, some l =>
      if isTrailing u then scanText (seen + 6) (length + 6) (pairChar l u :: read) none known rest
      else
        scanText (seen + 6) (length + 6) read none (earlier known ⟨.unpairedSurrogate, seen + 6⟩)
          rest
    | some u, none =>
      if isTrailing u then
        scanText (seen + 6) (length + 6) read none (earlier known ⟨.unpairedSurrogate, seen + 6⟩)
          rest
      else if isLeading u then scanText (seen + 6) (length + 6) read (some u) known rest
      else scanText (seen + 6) (length + 6) (Char.ofNat u :: read) none known rest
  | '\\' :: 'u' :: short => .fault (known.getD (badCodeUnit (seen + 2) short))
  | '\\' :: [] => .fault (known.getD ⟨.endInText, seen + 1⟩)
  | '\\' :: c :: rest =>
    let known := unfinished lead known (seen + 2)
    match escaped? c with
    | some e => scanText (seen + 2) (length + 2) (e :: read) none known rest
    | none => .fault (known.getD ⟨.badEscape, seen + 2⟩)
  | c :: rest =>
    let known := unfinished lead known (seen + 1)
    if c.toNat < 0x20 then .fault (known.getD ⟨.controlCharacter, seen + 1⟩)
    else scanText (seen + c.utf8Size) (length + 1) (c :: read) none known rest
termination_by structural cs => cs

/-! ## Words and punctuation -/

/-- Scans the letters of a word behind its first one. -/
def scanWord (kind : TokenKind) (seen length : Nat) : (word : List Char) → List Char → Scan
  | [], _ => .token kind length
  | _ :: _, [] => .fault ⟨.endInValue, seen⟩
  | w :: word, c :: rest =>
    if c = w then scanWord kind (seen + 1) (length + 1) word rest
    else .fault ⟨.expectedWord, seen + 1⟩

/-- Scans the token that starts with `c`, which is no blank. -/
def scan (start : Nat) (c : Char) (rest : List Char) : Scan :=
  match c with
  | '[' => .token .openArray 1
  | ']' => .token .closeArray 1
  | '{' => .token .openObject 1
  | '}' => .token .closeObject 1
  | ',' => .token .comma 1
  | ':' => .token .colon 1
  | '"' => scanText (start + 1) 1 [] none none rest
  | 'n' => scanWord .null (start + 1) 1 ['u', 'l', 'l'] rest
  | 't' => scanWord (.boolean true) (start + 1) 1 ['r', 'u', 'e'] rest
  | 'f' => scanWord (.boolean false) (start + 1) 1 ['a', 'l', 's', 'e'] rest
  | c =>
    if c = '-' || Text.isDigit c then scanNumber start (c :: rest)
    else .fault ⟨.expectedValue, start + 1⟩

/-- The tokens of a text that stands behind `seen` bytes. The first `skip` characters belong to a
token that is already known. -/
def tokensFrom (seen : Nat) : (skip : Nat) → List Char → List Token
  | _, [] => []
  | skip + 1, c :: rest => tokensFrom (seen + c.utf8Size) skip rest
  | 0, c :: rest =>
    if isSpace c then tokensFrom (seen + 1) 0 rest
    else
      match scan seen c rest with
      | .token kind length => ⟨kind, seen⟩ :: tokensFrom (seen + c.utf8Size) (length - 1) rest
      | .fault f => [⟨.broken (c == '"') f, seen⟩]

def tokens (cs : List Char) : List Token := tokensFrom 0 0 cs

end Fleet.Json
