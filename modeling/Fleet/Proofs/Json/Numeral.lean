import Fleet.Json.Token
import Fleet.Json.Printer

/-!
# Printed numbers

The scanner of numbers, started at the first character of a printed number, takes exactly its
characters. It needs to know what follows, since a number ends where no more digits come; behind a
printed number stands a comma, a closing bracket or brace, or nothing (`Stops`).

What the scanner finds is the value of the literal that the characters spell (`IsNumeral`). Of a
literal with so few digits that they all count, the value is a significand times a power of ten
(`Literal.value_of_fraction`, `Literal.value_of_exponent`); of a whole number it is the number again.
-/

set_option autoImplicit false

namespace Fleet

/-! ## Decimal digits -/

namespace Text

/-- A decimal consists of digits. -/
theorem isDigit_of_mem_decimal {n : Nat} {c : Char} (h : c ∈ decimal n) : isDigit c = true :=
  Nat.isDigit_of_mem_toDigits (by decide) (by decide) h

/-- It has one at least. -/
theorem decimal_ne_nil (n : Nat) : decimal n ≠ [] := Nat.toDigits_ne_nil

/-- Only zero starts with a zero. -/
theorem head?_decimal_ne_zero {n : Nat} (hn : n ≠ 0) : (decimal n).head? ≠ some '0' := by
  induction n using Nat.strongRecOn with
  | ind n ih =>
    by_cases hlt : n < 10
    · have : ∀ k < 10, k ≠ 0 → (Nat.toDigits 10 k).head? ≠ some '0' := by decide
      exact this n hlt hn
    · -- the first digit is that of the number without its last digit
      have ih := ih (n / 10) (by omega) (by omega)
      rw [decimal, Nat.toDigits_of_base_le (by decide) (by omega), List.head?_append]
      cases hhead : (Nat.toDigits 10 (n / 10)).head? with
      | none => exact absurd (List.head?_eq_none_iff.1 hhead) Nat.toDigits_ne_nil
      | some c =>
        rw [decimal, hhead] at ih
        simpa using ih

/-- Digits denote the number that they spell, behind those that were read. -/
theorem foldlM_digits {cs : List Char} (hcs : ∀ c ∈ cs, isDigit c = true) (m : Nat) :
    cs.foldlM (fun n c => (digit? c).map (n * 10 + ·)) m = some (Nat.ofDigitChars 10 cs m) := by
  induction cs generalizing m with
  | nil => rfl
  | cons c cs ih =>
    have hdigit : digit? c = some (c.toNat - '0'.toNat) := if_pos (hcs c List.mem_cons_self)
    rw [List.foldlM_cons, hdigit, Nat.ofDigitChars_cons, Nat.mul_comm 10 m]
    exact ih (fun d hd => hcs d (List.mem_cons_of_mem c hd)) _

/-- Padding adds digits only. -/
theorem isDigit_of_mem_padded {width n : Nat} {c : Char} (h : c ∈ padded width n) :
    isDigit c = true := by
  rcases List.mem_append.1 h with h | h
  · rw [List.eq_of_mem_replicate h]
    rfl
  · exact isDigit_of_mem_decimal h

/-- Zeros in front do not change what a numeral denotes. -/
theorem valueOf?_padded (width n : Nat) : valueOf? (padded width n) = some n := by
  rw [valueOf?, foldlM_digits fun c hc => isDigit_of_mem_padded hc, padded, Nat.ofDigitChars_append,
    Nat.ofDigitChars_replicate_zero, Nat.mul_zero, decimal, Nat.ofDigitChars_ten_toDigits]

/-- A padded numeral is read as its number, up to the bound. -/
theorem natural?_padded {bound n : Nat} (hn : n ≤ bound) (width : Nat) :
    natural? bound (padded width n) = some n := by
  have hne : padded width n ≠ [] := by
    simp [padded, decimal_ne_nil]
  -- no digit is a plus, so nothing is taken off in front
  have hplus : ∀ rest, padded width n ≠ '+' :: rest := by
    intro rest heq
    have hdigit := isDigit_of_mem_padded (heq ▸ List.mem_cons_self : '+' ∈ padded width n)
    revert hdigit
    decide
  unfold natural?
  split
  case h_1 rest heq => exact absurd heq (hplus rest)
  case h_2 =>
    simp only [List.isEmpty_iff, hne, if_false, valueOf?_padded, Option.bind_some, hn, if_true]

/-- A run of characters denotes a number exactly if all of them are digits. -/
theorem valueOf?_eq_some_iff {cs : List Char} {n : Nat} :
    valueOf? cs = some n ↔ (∀ c ∈ cs, isDigit c = true) ∧ Nat.ofDigitChars 10 cs 0 = n := by
  by_cases hcs : ∀ c ∈ cs, isDigit c = true
  · rw [valueOf?, foldlM_digits hcs, Option.some.injEq, and_iff_right hcs]
  · refine iff_of_false ?_ fun h => hcs h.1
    obtain ⟨c, hc, hdigit⟩ : ∃ c ∈ cs, digit? c = none := by
      simp only [Classical.not_forall] at hcs
      obtain ⟨c, hc, hnot⟩ := hcs
      exact ⟨c, hc, if_neg hnot⟩
    obtain ⟨front, back, rfl⟩ := List.append_of_mem hc
    simp [valueOf?, hdigit]

/-- An optional plus sign and one or more decimal digits, which denote the number. -/
def Spells (cs : List Char) (n : Nat) : Prop :=
  ∃ sign digits, cs = sign ++ digits ∧ (sign = [] ∨ sign = ['+']) ∧ digits ≠ [] ∧
    (∀ c ∈ digits, isDigit c = true) ∧ Nat.ofDigitChars 10 digits 0 = n

/-- A number is read exactly where it is spelled, up to the bound. -/
theorem natural?_eq_some_iff {bound n : Nat} {cs : List Char} :
    natural? bound cs = some n ↔ Spells cs n ∧ n ≤ bound := by
  have hread (digits : List Char) :
      (if digits.isEmpty then none
        else (valueOf? digits).bind fun n => if n ≤ bound then some n else none) = some n ↔
      (digits ≠ [] ∧ (∀ c ∈ digits, isDigit c = true) ∧ Nat.ofDigitChars 10 digits 0 = n) ∧
        n ≤ bound := by
    rw [Option.ite_none_left_eq_some, Option.bind_eq_some_iff, List.isEmpty_iff, and_assoc]
    refine and_congr_right fun _ => ⟨?_, fun ⟨hdigits, hn⟩ => ?_⟩
    · rintro ⟨m, hm, hbound⟩
      obtain ⟨hle, hmn⟩ := Option.ite_none_right_eq_some.1 hbound
      obtain rfl : m = n := Option.some.inj hmn
      exact ⟨valueOf?_eq_some_iff.1 hm, hle⟩
    · exact ⟨n, valueOf?_eq_some_iff.2 hdigits, if_pos hn⟩
  unfold natural?
  split
  case h_1 rest =>
    rw [hread rest]
    refine and_congr_left fun _ => ⟨fun h => ⟨['+'], rest, rfl, .inr rfl, h⟩, ?_⟩
    rintro ⟨sign, digits, hcs, rfl | rfl, h⟩
    -- without the sign taken off the plus would be a digit
    · have hplus := h.2.1 '+' (by rw [← List.nil_append digits, ← hcs]; exact List.mem_cons_self)
      exact absurd hplus (by decide)
    · rw [(List.cons.inj hcs).2]
      exact h
  case h_2 hplus =>
    rw [hread cs]
    refine and_congr_left fun _ => ⟨fun h => ⟨[], cs, rfl, .inl rfl, h⟩, ?_⟩
    rintro ⟨sign, digits, hcs, rfl | rfl, h⟩
    · rw [hcs]
      exact h
    · exact absurd hcs (hplus digits)

/-- More digits do not make a number smaller. -/
theorem le_ofDigitChars (cs : List Char) (m : Nat) : m ≤ Nat.ofDigitChars 10 cs m := by
  rw [Nat.ofDigitChars_eq_ofDigitChars_zero]
  exact Nat.le_add_right_of_le (Nat.le_mul_of_pos_left m (Nat.pow_pos (by decide)))

end Text

namespace Json

/-- The digits that characters denote. -/
def digitsOf (cs : List Char) : List Nat := cs.map fun c => c.toNat - '0'.toNat

/-- What may stand behind a printed number. -/
def Stops (rest : List Char) : Prop := ∀ c ∈ rest.head?, c = ',' ∨ c = ']' ∨ c = '}'

/-- What ends a number is no digit. -/
theorem Stops.not_isDigit {rest : List Char} (h : Stops rest) :
    ∀ c ∈ rest.head?, Text.isDigit c = false := by
  intro c hc
  rcases h c hc with rfl | rfl | rfl <;> rfl

/-- Taking stops where the rest does not go on. -/
theorem takeWhile_append_stop {α : Type} {p : α → Bool} {front rest : List α}
    (hfront : ∀ a ∈ front, p a = true) (hrest : ∀ a ∈ rest.head?, p a = false) :
    (front ++ rest).takeWhile p = front := by
  rw [List.takeWhile_append_of_pos hfront]
  cases rest with
  | nil => simp
  | cons a rest => simp [hrest a rfl]

/-- The leading digits are those in front of what ends them. -/
theorem leadingDigits_append {ds rest : List Char} (hds : ∀ c ∈ ds, Text.isDigit c = true)
    (hrest : ∀ c ∈ rest.head?, Text.isDigit c = false) :
    leadingDigits (ds ++ rest) = digitsOf ds := by
  rw [leadingDigits, takeWhile_append_stop hds hrest, digitsOf]

/-- Digits whose number fits sixty-four bits are absorbed as a whole. -/
theorem absorb_digitsOf {cs : List Char} {m : Nat} (h : Nat.ofDigitChars 10 cs m < 2 ^ 64) :
    absorb m (digitsOf cs) = (Nat.ofDigitChars 10 cs m, 0) := by
  induction cs generalizing m with
  | nil => rfl
  | cons c cs ih =>
    rw [Nat.ofDigitChars_cons, Nat.mul_comm] at h
    -- what is absorbed so far is at most the whole number, so it fits as well
    have hle : m * 10 + (c.toNat - '0'.toNat) < 2 ^ 64 :=
      Nat.lt_of_le_of_lt (Text.le_ofDigitChars cs _) h
    have ih := ih h
    unfold digitsOf at ih ⊢
    rw [List.map_cons, absorb, if_pos hle, ih, Nat.ofDigitChars_cons, Nat.mul_comm]

/-! ## Numbers -/

/-- One digit or more. -/
structure IsDigits (cs : List Char) : Prop where
  ne_nil : cs ≠ []
  all : ∀ c ∈ cs, Text.isDigit c = true

/-- The digits before the point of a number: a zero stands only alone. -/
structure IsWhole (cs : List Char) : Prop extends IsDigits cs where
  no_zero : cs.head? = some '0' → cs.length = 1

/-- The characters behind the point of a number, with the digits that they denote. -/
inductive IsFraction : List Char → List Nat → Prop where
  | none : IsFraction [] []
  | some {ds : List Char} : IsDigits ds → IsFraction ('.' :: ds) (digitsOf ds)

/-- The characters of the exponent of a number, with its sign and digits. -/
inductive IsExponent : List Char → Option (Bool × List Nat) → Prop where
  | none : IsExponent [] Option.none
  | up {ds : List Char} : IsDigits ds → IsExponent ('e' :: '+' :: ds) (some (false, digitsOf ds))
  | down {ds : List Char} : IsDigits ds → IsExponent ('e' :: '-' :: ds) (some (true, digitsOf ds))

/-- The characters spell the literal. -/
inductive IsNumeral : List Char → Literal → Prop where
  | positive {whole fraction exponent : List Char} {tail : List Nat}
      {power : Option (Bool × List Nat)} (hwhole : IsWhole whole)
      (hfraction : IsFraction fraction tail) (hexponent : IsExponent exponent power) :
      IsNumeral (whole ++ fraction ++ exponent) ⟨false, digitsOf whole, tail, power⟩
  | negative {whole fraction exponent : List Char} {tail : List Nat}
      {power : Option (Bool × List Nat)} (hwhole : IsWhole whole)
      (hfraction : IsFraction fraction tail) (hexponent : IsExponent exponent power) :
      IsNumeral ('-' :: (whole ++ fraction ++ exponent)) ⟨true, digitsOf whole, tail, power⟩

/-- A decimal is a run of digits. -/
theorem isDigits_decimal (n : Nat) : IsDigits (Text.decimal n) :=
  ⟨Text.decimal_ne_nil n, fun _ => Text.isDigit_of_mem_decimal⟩

/-- It is a whole part, without a zero in front. -/
theorem isWhole_decimal (n : Nat) : IsWhole (Text.decimal n) where
  toIsDigits := isDigits_decimal n
  no_zero := by
    intro h
    by_cases hn : n = 0
    · subst hn
      rfl
    · exact absurd h (Text.head?_decimal_ne_zero hn)

/-- A run of digits has a first one. -/
theorem IsDigits.exists_cons {cs : List Char} (h : IsDigits cs) :
    ∃ c ds, cs = c :: ds ∧ Text.isDigit c = true := by
  cases cs with
  | nil => exact absurd rfl h.ne_nil
  | cons c ds => exact ⟨c, ds, rfl, h.all c List.mem_cons_self⟩

/-- It is not empty. -/
theorem IsDigits.digitsOf_isEmpty {cs : List Char} (h : IsDigits cs) :
    (digitsOf cs).isEmpty = false := by
  simp [digitsOf, h.ne_nil]

/-- A whole part does not start with a zero, unless it is one. -/
theorem IsWhole.no_leading_zero {cs : List Char} (h : IsWhole cs) :
    ((digitsOf cs).head? == some 0 && decide (1 < (digitsOf cs).length)) = false := by
  obtain ⟨c, ds, rfl, hc⟩ := h.exists_cons
  by_cases hzero : c = '0'
  · subst hzero
    have hlen := h.no_zero rfl
    simp only [digitsOf, List.length_map, hlen, Nat.lt_irrefl, decide_false, Bool.and_false]
  · -- only the character of zero has the digit zero
    have hne : c.toNat - '0'.toNat ≠ 0 := by
      intro heq
      refine hzero (Char.toNat_inj.1 ?_)
      simp only [Text.isDigit, Bool.and_eq_true, decide_eq_true_eq, Char.le_def,
        UInt32.le_iff_toNat_le] at hc
      exact Nat.le_antisymm (Nat.sub_eq_zero_iff_le.1 heq) hc.1
    have hhead : ((digitsOf (c :: ds)).head? == some 0) = false := by
      rw [digitsOf, List.map_cons, List.head?_cons, beq_eq_false_iff_ne, ne_eq, Option.some.injEq]
      exact hne
    rw [hhead, Bool.false_and]

/-- Each character is one digit. -/
theorem digitsOf_length (cs : List Char) : (digitsOf cs).length = cs.length := List.length_map _

/-- Where the number ends there is no exponent. -/
theorem scanExponent_stop (start : Nat) (l : Literal) (length : Nat) {rest : List Char}
    (hrest : Stops rest) :
    scanExponent start l length rest = .token (.number (l.value 0 (start + length))) length := by
  cases rest with
  | nil => rfl
  | cons c rest =>
    have hc : (c = 'e' || c = 'E') = false := by
      rcases hrest c rfl with rfl | rfl | rfl <;> rfl
    rw [scanExponent.eq_def]
    simp [hc]

/-- An exponent is taken as a whole, and the number does not depend on what follows it. -/
theorem exists_scanExponent_append {exponent : List Char} {power : Option (Bool × List Nat)}
    (hexponent : IsExponent exponent power) (start : Nat) (negative : Bool) (whole tail : List Nat)
    (length : Nat) :
    ∃ first stop, ∀ rest, Stops rest →
      scanExponent start ⟨negative, whole, tail, none⟩ length (exponent ++ rest) =
        .token (.number (Literal.value ⟨negative, whole, tail, power⟩ first stop))
          (length + exponent.length) := by
  cases hexponent with
  | none => exact ⟨_, _, fun rest hrest => scanExponent_stop start _ length hrest⟩
  | @up ds hds =>
    refine ⟨start + (length + 1 + 1), start + (length + 1 + 1 + ds.length), fun rest hrest => ?_⟩
    -- behind the letter and the sign stand the digits, up to what ends the number
    have hlead := leadingDigits_append hds.all hrest.not_isDigit
    simp only [List.cons_append, scanExponent, decide_true, Bool.true_or, if_true,
      List.drop_succ_cons, List.drop_zero, hlead, hds.digitsOf_isEmpty, Bool.false_eq_true,
      if_false, List.length_cons, digitsOf_length]
    simp only [Nat.add_comm, Nat.add_left_comm]
  | @down ds hds =>
    refine ⟨start + (length + 1 + 1), start + (length + 1 + 1 + ds.length), fun rest hrest => ?_⟩
    have hlead := leadingDigits_append hds.all hrest.not_isDigit
    simp only [List.cons_append, scanExponent, decide_true, Bool.true_or, if_true,
      List.drop_succ_cons, List.drop_zero, hlead, hds.digitsOf_isEmpty, Bool.false_eq_true,
      if_false, List.length_cons, digitsOf_length]
    simp only [Nat.add_comm, Nat.add_left_comm]

/-- Digits without a point behind them are followed by an exponent, if by anything. -/
theorem scanDigits_whole {whole : List Char} (hwhole : IsWhole whole) (start : Nat)
    (negative : Bool) (sign : Nat) {rest : List Char}
    (hrest : ∀ c ∈ rest.head?, Text.isDigit c = false ∧ c ≠ '.') :
    scanDigits start negative sign (whole ++ rest) =
      scanExponent start ⟨negative, digitsOf whole, [], none⟩ (sign + whole.length) rest := by
  have hlead := leadingDigits_append hwhole.all fun c hc => (hrest c hc).1
  have hzero := hwhole.no_leading_zero
  rw [digitsOf_length] at hzero
  simp only [scanDigits, hlead, digitsOf_length, List.drop_left, hwhole.digitsOf_isEmpty, hzero,
    Bool.false_eq_true, if_false]
  split
  case h_1 tail heq => exact absurd rfl (hrest '.' rfl).2
  case h_2 => rfl

/-- Behind the point the digits of the fraction are read. -/
theorem scanDigits_point {whole ds : List Char} (hwhole : IsWhole whole) (hds : IsDigits ds)
    (start : Nat) (negative : Bool) (sign : Nat) {rest : List Char}
    (hrest : ∀ c ∈ rest.head?, Text.isDigit c = false) :
    scanDigits start negative sign (whole ++ '.' :: (ds ++ rest)) =
      scanExponent start ⟨negative, digitsOf whole, digitsOf ds, none⟩
        (sign + whole.length + 1 + ds.length) rest := by
  have hlead := leadingDigits_append hwhole.all
    (show ∀ c ∈ ('.' :: (ds ++ rest)).head?, Text.isDigit c = false by simp [Text.isDigit])
  have hds' := leadingDigits_append hds.all hrest
  have hzero := hwhole.no_leading_zero
  rw [digitsOf_length] at hzero
  simp only [scanDigits, hlead, hds', digitsOf_length, List.drop_left, hwhole.digitsOf_isEmpty,
    hds.digitsOf_isEmpty, hzero, Bool.false_eq_true, if_false]

/-- A whole part, a fraction and an exponent are read one after the other. -/
theorem exists_scanDigits_append {whole fraction exponent : List Char} {tail : List Nat}
    {power : Option (Bool × List Nat)} (hwhole : IsWhole whole)
    (hfraction : IsFraction fraction tail) (hexponent : IsExponent exponent power) (start : Nat)
    (negative : Bool) (sign : Nat) :
    ∃ first stop, ∀ rest, Stops rest →
      scanDigits start negative sign (whole ++ fraction ++ exponent ++ rest) =
        .token (.number (Literal.value ⟨negative, digitsOf whole, tail, power⟩ first stop))
          (sign + (whole ++ fraction ++ exponent).length) := by
  -- the digits end where the exponent starts, or where the number stops
  have hfollow {rest : List Char} (hrest : Stops rest) :
      ∀ c ∈ (exponent ++ rest).head?, Text.isDigit c = false ∧ c ≠ '.' := by
    intro c hc
    cases hexponent with
    | none => rcases hrest c hc with rfl | rfl | rfl <;> decide
    | up | down =>
      obtain rfl : 'e' = c := by simpa using hc
      decide
  have hlength : (whole ++ fraction ++ exponent).length =
      whole.length + fraction.length + exponent.length := by simp [Nat.add_assoc]
  cases hfraction with
  | none =>
    obtain ⟨first, stop, hr⟩ := exists_scanExponent_append hexponent start negative
      (digitsOf whole) [] (sign + whole.length)
    refine ⟨first, stop, fun rest hrest => ?_⟩
    rw [List.append_nil, List.append_assoc,
      scanDigits_whole hwhole start negative sign (hfollow hrest), hr rest hrest]
    simp [Nat.add_assoc]
  | @some ds hds =>
    obtain ⟨first, stop, hr⟩ := exists_scanExponent_append hexponent start negative
      (digitsOf whole) (digitsOf ds) (sign + whole.length + 1 + ds.length)
    refine ⟨first, stop, fun rest hrest => ?_⟩
    rw [List.append_assoc, List.append_assoc, List.cons_append,
      scanDigits_point hwhole hds start negative sign fun c hc => (hfollow hrest c hc).1,
      hr rest hrest, hlength, List.length_cons]
    congr 1
    omega

/-- Without a sign the digits come at once. -/
theorem scanNumber_eq_scanDigits (start : Nat) {cs : List Char}
    (h : ∀ c ∈ cs.head?, Text.isDigit c = true) :
    scanNumber start cs = scanDigits start false 0 cs := by
  unfold scanNumber
  split
  case h_1 => exact absurd (h '-' rfl) (by decide)
  case h_2 => rfl

/-- The scanner of numbers takes a printed number as a whole, for the value of its literal. -/
theorem exists_scanNumber_append {cs : List Char} {l : Literal} (h : IsNumeral cs l) (start : Nat) :
    ∃ first stop, ∀ rest, Stops rest →
      scanNumber start (cs ++ rest) = .token (.number (l.value first stop)) cs.length := by
  cases h with
  | @positive whole fraction exponent tail power hwhole hfraction hexponent =>
    obtain ⟨first, stop, hr⟩ :=
      exists_scanDigits_append hwhole hfraction hexponent start false 0
    -- the sign decides where the digits start
    refine ⟨first, stop, fun rest hrest => ?_⟩
    rw [scanNumber_eq_scanDigits, hr rest hrest, Nat.zero_add]
    obtain ⟨c, ds, rfl, hc⟩ := hwhole.exists_cons
    simpa using hc
  | @negative whole fraction exponent tail power hwhole hfraction hexponent =>
    obtain ⟨first, stop, hr⟩ :=
      exists_scanDigits_append hwhole hfraction hexponent start true 1
    refine ⟨first, stop, fun rest hrest => ?_⟩
    rw [List.cons_append, scanNumber, hr rest hrest, List.length_cons, Nat.add_comm]

/-- Of a whole number of sixty-four bits the scanner finds the value. -/
theorem scanNumber_decimal (n : UInt64) (start : Nat) {rest : List Char} (hrest : Stops rest) :
    scanNumber start (Text.decimal n.toNat ++ rest) =
      .token (.number (.ok (.natural n))) (Text.decimal n.toNat).length := by
  have hwhole := isWhole_decimal n.toNat
  have hfollow : ∀ c ∈ rest.head?, Text.isDigit c = false ∧ c ≠ '.' := fun c hc => by
    rcases hrest c hc with rfl | rfl | rfl <;> decide
  have hvalue : Nat.ofDigitChars 10 (Text.decimal n.toNat) 0 = n.toNat :=
    Nat.ofDigitChars_ten_toDigits
  have habsorb : absorb 0 (digitsOf (Text.decimal n.toNat)) = (n.toNat, 0) := by
    rw [absorb_digitsOf (hvalue.symm ▸ n.toNat_lt), hvalue]
  rw [scanNumber_eq_scanDigits, scanDigits_whole hwhole start false 0 hfollow,
    scanExponent_stop start _ _ hrest]
  · simp [Literal.value, habsorb]
  · obtain ⟨c, ds, hcons, hc⟩ := hwhole.exists_cons
    simpa [hcons] using hc

/-! ## Values of literals -/

/-- All digits before and behind the point count where their number fits sixty-four bits. -/
theorem absorb_whole_fraction {whole ds : List Char}
    (h : Nat.ofDigitChars 10 (whole ++ ds) 0 < 2 ^ 64) :
    absorb 0 (digitsOf whole) = (Nat.ofDigitChars 10 whole 0, 0) ∧
      absorb (Nat.ofDigitChars 10 whole 0) (digitsOf ds) =
        (Nat.ofDigitChars 10 (whole ++ ds) 0, 0) := by
  rw [Nat.ofDigitChars_append] at h ⊢
  exact ⟨absorb_digitsOf (Nat.lt_of_le_of_lt (Text.le_ofDigitChars ds _) h), absorb_digitsOf h⟩

/-- The digits of an exponent are a number where that fits thirty-one bits. -/
theorem exponentValue_digitsOf {cs : List Char} {e : Nat} (count : Nat)
    (h : Nat.ofDigitChars 10 cs e < 2 ^ 31) :
    exponentValue e count (digitsOf cs) = .ok (Nat.ofDigitChars 10 cs e) := by
  induction cs generalizing e count with
  | nil => rfl
  | cons c cs ih =>
    rw [Nat.ofDigitChars_cons, Nat.mul_comm] at h
    have hle : e * 10 + (c.toNat - '0'.toNat) < 2 ^ 31 :=
      Nat.lt_of_le_of_lt (Text.le_ofDigitChars cs _) h
    have ih := ih (count + 1) h
    unfold digitsOf at ih ⊢
    rw [List.map_cons, exponentValue, if_pos hle, ih, Nat.ofDigitChars_cons, Nat.mul_comm]

section

variable {whole ds : List Char} {n : Nat} {x : Binary64}

/-- A number with a point and without an exponent is its digits, shrunk by as many powers of ten as
digits stand behind the point. -/
theorem Literal.value_of_fraction (hds : ds ≠ []) (hn : Nat.ofDigitChars 10 (whole ++ ds) 0 = n)
    (hlt : n < 2 ^ 64) (hx : scale? n (-ds.length) = some x) (negative : Bool) (first stop : Nat) :
    Literal.value ⟨negative, digitsOf whole, digitsOf ds, none⟩ first stop =
      .ok (.float (x.withSign negative)) := by
  obtain ⟨hwhole, hfraction⟩ := absorb_whole_fraction (hn ▸ hlt)
  have hempty : (digitsOf ds).isEmpty = false := by simp [digitsOf, hds]
  unfold Literal.value
  simp only [hwhole, hfraction, hn, hempty, digitsOf_length, Nat.sub_zero, Bool.false_and,
    Bool.false_eq_true, if_false, Int.natCast_zero, Int.zero_sub, hx]

/-- A number with an exponent is its digits times the power of ten that exponent and point make. -/
theorem Literal.value_of_exponent (hn : Nat.ofDigitChars 10 (whole ++ ds) 0 = n) (hlt : n < 2 ^ 64)
    {es : List Char} {e : Nat} (he : Nat.ofDigitChars 10 es 0 = e) (helt : e < 2 ^ 31) {down : Bool}
    (hx : scale? n (clampExponent (if down then -ds.length - e else -ds.length + e)) = some x)
    (negative : Bool) (first stop : Nat) :
    Literal.value ⟨negative, digitsOf whole, digitsOf ds, some (down, digitsOf es)⟩ first stop =
      .ok (.float (x.withSign negative)) := by
  obtain ⟨hwhole, hfraction⟩ := absorb_whole_fraction (hn ▸ hlt)
  have hexponent := exponentValue_digitsOf 0 (he ▸ helt)
  unfold Literal.value
  simp only [hwhole, hfraction, hn, hexponent, he, digitsOf_length, Nat.sub_zero,
    Int.natCast_zero, Int.zero_sub, hx]

end

end Json

end Fleet
