import Fleet.Proofs.Listing.Comparison
import Fleet.Proofs.Listing.Cursor
import Fleet.Text.Numeral

/-!
# Digits in fixed places

Three things are written in a fixed number of places, the most significant one first: the
hexadecimal words of object ids, the decimal numbers of tasks, and drawn bytes. They are digits to a
base (`places`), and of digits whose symbols are in order (`Symbols`) two facts hold for any base.
So many places keep the remainder of a number by that power of the base, and nothing else
(`Symbols.places_inj_iff`); and they are compared, place by place, as these remainders are
(`Symbols.lex_places_iff`).
-/

set_option autoImplicit false

namespace Fleet

/-! ## Comparing lists in two parts -/

/-- What follows two equally long lists counts only where these are the same. -/
theorem lex_append_iff {α : Type} {r : α → α → Prop} {as bs cs ds : List α}
    (h : as.length = bs.length) :
    List.Lex r (as ++ cs) (bs ++ ds) ↔ List.Lex r as bs ∨ as = bs ∧ List.Lex r cs ds := by
  induction as generalizing bs with
  | nil =>
    obtain rfl := List.length_eq_zero_iff.1 h.symm
    simp
  | cons a as ih =>
    obtain ⟨b, bs, rfl⟩ := List.exists_cons_of_length_eq_add_one h.symm
    simp only [List.cons_append, List.cons_lex_cons_iff, ih (Nat.succ.inj h), List.cons.injEq,
      and_or_left, and_assoc, or_assoc]

/-- Numbers in two parts are compared by the higher part, and then by the lower one. -/
theorem add_mul_lt_iff {base c d p q : Nat} (hc : c < base) (hd : d < base) :
    c + base * p < d + base * q ↔ p < q ∨ p = q ∧ c < d := by
  have hstep {p q : Nat} (h : p < q) : base * p + base ≤ base * q := Nat.mul_le_mul_left base h
  rcases Nat.lt_trichotomy p q with h | rfl | h
  · have := hstep h
    omega
  · omega
  · have := hstep h
    omega

/-- Last digit and rest determine each other. -/
theorem add_mul_inj_iff {base c d p q : Nat} (hc : c < base) (hd : d < base) :
    c + base * p = d + base * q ↔ p = q ∧ c = d := by
  have hlt := add_mul_lt_iff (p := p) (q := q) hc hd
  have hgt := add_mul_lt_iff (p := q) (q := p) hd hc
  omega

/-! ## Digits to a base -/

/-- The last digits of a number to a base, in so many places. -/
def places {α : Type} (base : Nat) (digit : Nat → α) : (width : Nat) → Nat → List α
  | 0, _ => []
  | width + 1, n => places base digit width (n / base) ++ [digit (n % base)]

/-- The symbols for the digits to a base are in the order of the digits. -/
structure Symbols {α : Type} (r : α → α → Prop) (base : Nat) (digit : Nat → α) : Prop where
  pos : 0 < base
  lt_iff : ∀ i < base, ∀ j < base, r (digit i) (digit j) ↔ i < j

section

variable {α : Type} {r : α → α → Prop} {base : Nat} {digit : Nat → α}

/-- As many places are written as there are. -/
theorem length_places (width n : Nat) : (places base digit width n).length = width := by
  induction width generalizing n with
  | zero => rfl
  | succ width ih => simp [places, ih]

/-- The last digit is what is left, and the others are those of the quotient. -/
theorem mod_pow_succ_eq (base width n : Nat) :
    n % base ^ (width + 1) = n % base + base * (n / base % base ^ width) := by
  rw [Nat.pow_succ', Nat.mod_mul]

namespace Symbols

/-- Different digits have different symbols. -/
theorem inj_iff (h : Symbols r base digit) {i j : Nat} (hi : i < base) (hj : j < base) :
    digit i = digit j ↔ i = j := by
  refine ⟨fun heq => ?_, congrArg digit⟩
  have hlt := h.lt_iff i hi j hj
  have hgt := h.lt_iff j hj i hi
  rw [heq, h.lt_iff j hj j hj] at hlt hgt
  omega

/-- Two numbers have the same digits exactly if they leave the same remainder. -/
theorem places_inj_iff (h : Symbols r base digit) {width m n : Nat} :
    places base digit width m = places base digit width n ↔
      m % base ^ width = n % base ^ width := by
  induction width generalizing m n with
  | zero => simp [places, Nat.mod_one]
  | succ width ih =>
    have hm := Nat.mod_lt m h.pos
    have hn := Nat.mod_lt n h.pos
    rw [places, places, List.append_singleton_inj, ih, h.inj_iff hm hn, mod_pow_succ_eq,
      mod_pow_succ_eq, add_mul_inj_iff hm hn]

/-- Digits are compared as the remainders that the numbers leave. -/
theorem lex_places_iff (h : Symbols r base digit) {width m n : Nat} :
    List.Lex r (places base digit width m) (places base digit width n) ↔
      m % base ^ width < n % base ^ width := by
  induction width generalizing m n with
  | zero => simp [places, Nat.mod_one]
  | succ width ih =>
    have hm := Nat.mod_lt m h.pos
    have hn := Nat.mod_lt n h.pos
    -- the last digits count only where the others are the same, which is where the quotients are
    rw [places, places, lex_append_iff (by rw [length_places, length_places]), ih, h.places_inj_iff,
      List.cons_lex_cons_iff, h.lt_iff _ hm _ hn, mod_pow_succ_eq, mod_pow_succ_eq,
        add_mul_lt_iff hm hn]
    simp

end Symbols

end

/-! ## Decimal numerals, hexadecimal words and bytes -/

namespace Text

/-- The decimal digits ascend. -/
theorem symbols_digitChar : Symbols (· < ·) 10 Nat.digitChar := ⟨by decide, by decide⟩

/-- Zero is written with zeros. -/
theorem places_zero (width : Nat) : places 10 Nat.digitChar width 0 = List.replicate width '0' := by
  induction width with
  | zero => rfl
  | succ width ih =>
    rw [places, Nat.zero_div, Nat.zero_mod, ih, List.replicate_succ']
    rfl

/-- A numeral that needs no more places than it is given is written in these places. Zero needs one. -/
theorem padded_eq_places {width n : Nat} (h : n < 10 ^ (width + 1)) :
    padded (width + 1) n = places 10 Nat.digitChar (width + 1) n := by
  induction width generalizing n with
  | zero =>
    rw [padded, decimal, Nat.toDigits_of_lt_base h, places, Nat.mod_eq_of_lt h]
    rfl
  | succ width ih =>
    rw [places]
    -- the last digit, and in front of it the number without it
    by_cases hn : n < 10
    · rw [Nat.div_eq_of_lt hn, Nat.mod_eq_of_lt hn, places_zero, padded, decimal,
        Nat.toDigits_of_lt_base hn]
      rfl
    · have hlt : n / 10 < 10 ^ (width + 1) := by
        rw [Nat.pow_succ] at h
        exact Nat.div_lt_of_lt_mul (Nat.mul_comm _ 10 ▸ h)
      rw [← ih hlt, padded, padded, decimal, Nat.toDigits_of_base_le (by decide) (Nat.not_lt.1 hn),
        List.length_append, List.length_singleton, Nat.add_sub_add_right, ← List.append_assoc]
      rfl

namespace Hex

/-- The hexadecimal digits ascend. -/
theorem symbols_digit : Symbols (· < ·) 16 digit := ⟨by decide, by decide⟩

/-- A word is written in hexadecimal places. -/
theorem word_eq_places (width n : Nat) : word width n = places 16 digit width n := by
  induction width generalizing n with
  | zero => rfl
  | succ width ih => rw [word, places, ih]

/-- Equal words are equal numbers, up to the width. -/
theorem word_inj_iff {width m n : Nat} :
    word width m = word width n ↔ m % 16 ^ width = n % 16 ^ width := by
  rw [word_eq_places, word_eq_places, symbols_digit.places_inj_iff]

/-- Lesser words are lesser numbers, up to the width. -/
theorem word_lt_iff {width m n : Nat} :
    word width m < word width n ↔ m % 16 ^ width < n % 16 ^ width := by
  rw [word_eq_places, word_eq_places]
  exact symbols_digit.lex_places_iff

end Hex

end Text

/-- Bytes ascend. -/
theorem symbols_ofNat : Symbols (fun a b : UInt8 => a.toNat < b.toNat) 256 UInt8.ofNat where
  pos := by decide
  lt_iff i hi j hj := by
    rw [UInt8.toNat_ofNat_of_lt' hi, UInt8.toNat_ofNat_of_lt' hj]

/-- Bytes are written in places as well. -/
theorem bigEndian_eq_places (width n : Nat) :
    bigEndian width n = places 256 UInt8.ofNat width n := by
  induction width generalizing n with
  | zero => rfl
  | succ width ih => rw [bigEndian, places, ih]

/-- Equally many bytes are the same exactly if they denote the same number. -/
theorem ofBigEndian_inj_iff {us vs : List UInt8} (h : us.length = vs.length) :
    ofBigEndian us = ofBigEndian vs ↔ us = vs := by
  refine ⟨fun heq => ?_, congrArg ofBigEndian⟩
  rw [← bigEndian_ofBigEndian us, heq, h, bigEndian_ofBigEndian]

/-- Equally many bytes are compared as the numbers that they denote. -/
theorem bytesBefore_iff {us vs : List UInt8} (h : us.length = vs.length) :
    BytesBefore us vs ↔ ofBigEndian us < ofBigEndian vs := by
  have hvs : ofBigEndian vs < 256 ^ us.length := h ▸ ofBigEndian_lt vs
  calc BytesBefore us vs
      ↔ BytesBefore (bigEndian us.length (ofBigEndian us))
        (bigEndian us.length (ofBigEndian vs)) := by
        rw [bigEndian_ofBigEndian, h, bigEndian_ofBigEndian]
    _ ↔ ofBigEndian us % 256 ^ us.length < ofBigEndian vs % 256 ^ us.length := by
        rw [bigEndian_eq_places, bigEndian_eq_places]
        exact symbols_ofNat.lex_places_iff
    _ ↔ ofBigEndian us < ofBigEndian vs := by
        rw [Nat.mod_eq_of_lt (ofBigEndian_lt us), Nat.mod_eq_of_lt hvs]

end Fleet
