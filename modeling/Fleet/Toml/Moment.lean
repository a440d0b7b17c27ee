import Fleet.Toml.Text
import Fleet.Toml.Value
import Fleet.Text.Numeral

/-!
# Dates and times in TOML

A date of the calendar, a time of day, or both, the latter with or without an offset from universal
time. Date and time are separated by `T`, `t` or one space; a space that no time follows is not part
of the date. A minute may have a leap second.
-/

set_option autoImplicit false

namespace Fleet.Toml

open Text

def isLeapYear (year : Nat) : Bool := year % 4 == 0 && (year % 100 != 0 || year % 400 == 0)

def daysIn (year : Nat) : (month : Nat) → Nat
  | 2 => if isLeapYear year then 29 else 28
  | 4 | 6 | 9 | 11 => 30
  | _ => 31

/-- What follows a date. -/
def afterDate? : List Char → Option (List Char)
  | a :: b :: c :: d :: '-' :: e :: f :: '-' :: g :: h :: rest => do
    let year ← valueOf? [a, b, c, d]
    let month ← valueOf? [e, f]
    let day ← valueOf? [g, h]
    if 1 ≤ month && month ≤ 12 && 1 ≤ day && day ≤ daysIn year month then some rest else none
  | _ => none

/-- What follows a fraction of a second, if there is one. -/
def afterFraction : List Char → List Char
  | '.' :: c :: rest => if isDigit c then rest.dropWhile isDigit else '.' :: c :: rest
  | cs => cs

/-- What follows a time of day. -/
def afterTime? : List Char → Option (List Char)
  | a :: b :: ':' :: c :: d :: ':' :: e :: f :: rest => do
    let hour ← valueOf? [a, b]
    let minute ← valueOf? [c, d]
    let second ← valueOf? [e, f]
    if hour ≤ 23 && minute ≤ 59 && second ≤ 60 then some (afterFraction rest) else none
  | _ => none

/-- What follows an offset, if there is one. -/
def afterOffset (cs : List Char) : List Char :=
  match cs with
  | 'Z' :: rest => rest
  | 'z' :: rest => rest
  | sign :: a :: b :: ':' :: c :: d :: rest =>
    match valueOf? [a, b], valueOf? [c, d] with
    | some hours, some minutes =>
      if (sign == '+' || sign == '-') && hours ≤ 23 && minutes ≤ 59 then rest else cs
    | _, _ => cs
  | cs => cs

/-- What follows a date with the time and the offset that may come behind it. -/
def afterMoment? (cs : List Char) : Option (List Char) :=
  match afterDate? cs with
  | some rest =>
    match rest with
    | c :: behind =>
      if c == 'T' || c == 't' || c == ' ' then
        some (((afterTime? behind).map afterOffset).getD rest)
      else some rest
    | [] => some rest
  | none => afterTime? cs

/-- The date or time at the start of a text. -/
def moment? (cs : List Char) : Reading Value :=
  (afterMoment? cs).map fun rest =>
    (.moment (String.ofList (cs.take (cs.length - rest.length))), rest)

end Fleet.Toml
