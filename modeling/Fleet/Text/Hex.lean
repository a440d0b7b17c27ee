/-!
# Hexadecimal text

Bytes and fixed-width words as hexadecimal digits. Writing uses lower case, two digits a byte;
reading takes either case and refuses an odd number of digits. `decode_encode` says that reading
undoes writing.
-/

set_option autoImplicit false

namespace Fleet.Text.Hex

/-- The digit of a number below sixteen. -/
def digit (n : Nat) : Char :=
  if n < 10 then Char.ofNat ('0'.toNat + n) else Char.ofNat ('a'.toNat + (n - 10))

/-- The value of a hexadecimal digit of either case. -/
def value? (c : Char) : Option Nat :=
  if '0' ≤ c && c ≤ '9' then some (c.toNat - '0'.toNat)
  else if 'a' ≤ c && c ≤ 'f' then some (c.toNat - 'a'.toNat + 10)
  else if 'A' ≤ c && c ≤ 'F' then some (c.toNat - 'A'.toNat + 10)
  else none

def encode : List UInt8 → List Char
  | [] => []
  | b :: bs => digit (b.toNat / 16) :: digit (b.toNat % 16) :: encode bs

def decode? : List Char → Option (List UInt8)
  | [] => some []
  | [_] => none
  | high :: low :: rest =>
    match value? high, value? low, decode? rest with
    | some h, some l, some bs => some (UInt8.ofNat (h * 16 + l) :: bs)
    | _, _, _ => none

/-- The last `width` hexadecimal digits of `n`. -/
def word : (width : Nat) → Nat → List Char
  | 0, _ => []
  | width + 1, n => word width (n / 16) ++ [digit (n % 16)]

private theorem value?_digit_of_range :
    ∀ n ∈ List.range 16, value? (digit n) = some n := by decide

theorem value?_digit {n : Nat} (h : n < 16) : value? (digit n) = some n :=
  value?_digit_of_range n (List.mem_range.2 h)

theorem decode_encode (bytes : List UInt8) : decode? (encode bytes) = some bytes := by
  induction bytes with
  | nil => rfl
  | cons b bs ih =>
    have hb : b.toNat < 256 := b.toNat_lt
    have hw : b.toNat / 16 * 16 + b.toNat % 16 = b.toNat := by omega
    simp [encode, decode?, value?_digit (n := b.toNat / 16) (by omega),
      value?_digit (n := b.toNat % 16) (by omega), ih, hw]

theorem length_word (width n : Nat) : (word width n).length = width := by
  induction width generalizing n with
  | zero => rfl
  | succ width ih => simp [word, ih]

end Fleet.Text.Hex
