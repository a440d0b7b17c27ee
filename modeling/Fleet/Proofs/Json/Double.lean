import Fleet.Proofs.Binary64.Shortest
import Fleet.Proofs.Json.Numeral

/-!
# Printed doubles

The text of a finite double is one number, and a reader makes a finite double of it again
(`exists_isNumeral_text`), which one is known: `Binary64.reread`. The reader takes the digits as a
whole number and multiplies or divides by a power of ten, with a rounding each, so the double that is
read may differ from the one that was written. It is never lost: the digits have room in sixty-four
bits, and the product is not above the greatest double.

A decimal number has four forms of text, and `Denotes` is proved form by form. In all of them but one
the digits before and behind the point are the digits of the number; where a whole number is written
with zeros behind its digits and `.0` behind these, the reader sees the zeros as digits.
-/

set_option autoImplicit false

namespace Fleet

/-! ## What is read -/

namespace Binary64

open Json

/-- The double that a reader makes of the text of a positive decimal number. -/
def Decimal.reread? (d : Decimal) : Option Binary64 :=
  let first : Int := (Text.decimal d.digits).length + d.exponent - 1
  if layout.least ≤ first ∧ first ≤ layout.greatest ∧ 0 ≤ d.exponent then
    scale? (d.whole * 10) (-1)
  else scale? d.digits d.exponent

/-- The double that a reader makes of the text of a finite one. -/
def reread (x : Binary64) : Binary64 :=
  if x.isZero then x else (x.shortest.reread?.getD x).withSign x.isNegative

theorem reread_of_isZero {x : Binary64} (hx : x.isZero = true) : x.reread = x := if_pos hx

end Binary64

namespace Json

open Binary64

/-! ## Scaling by a power of ten -/

theorem size_ofNat_bound : (Binary64.ofNat (2 ^ 64)).size = (2 ^ 64 : ℕ) := by
  have hsig : (Binary64.ofNat (2 ^ 64)).significand = 2 ^ 52 := by decide
  have hexp : (Binary64.ofNat (2 ^ 64)).exponent = 12 := by decide
  rw [size, hsig, hexp]
  norm_num

/-- Dividing a number of sixty-four bits by a power of ten leaves it as small as it was. -/
theorem magnitude_shrink_le {x : Binary64} (hx : x.size ≤ (2 ^ 64 : ℕ)) (k : Nat) :
    (shrink x k).magnitude ≤ (Binary64.ofNat (2 ^ 64)).magnitude := by
  induction k using Nat.strongRecOn generalizing x with
  | ind k ih =>
    rw [shrink]
    split
    case isTrue => exact magnitude_div_le_ofNat (one_le_size_tenTo k) hx
    case isFalse hk =>
      split
      case isTrue hzero =>
        have hmagnitude : x.magnitude = 0 := beq_iff_eq.1 hzero
        rw [hmagnitude]
        exact Nat.zero_le _
      case isFalse =>
        -- one division by the greatest power of ten, and the rest is left to the induction
        refine ih (k - 308) (by omega) ?_
        rw [← size_ofNat_bound]
        exact size_le_of_magnitude_le (magnitude_div_le_ofNat (one_le_size_tenTo 308) hx)

/-- What is scaled from sixty-four bits is finite where it is a number at all. -/
theorem isFinite_of_scale? {n : Nat} (hn : n < 2 ^ 64) {e : Int} {x : Binary64}
    (h : scale? n e = some x) : x.isFinite = true := by
  have hofNat : (Binary64.ofNat n).magnitude ≤ (Binary64.ofNat (2 ^ 64)).magnitude :=
    magnitude_ofNat_le hn.le
  have hbound : (Binary64.ofNat (2 ^ 64)).isFinite = true := by decide
  unfold scale? at h
  simp only at h
  split at h
  case isTrue =>
    rw [Option.some.injEq] at h
    subst h
    -- a negative exponent makes the digits smaller, and they are below the bound
    refine isFinite_of_magnitude_le (magnitude_shrink_le ?_ _) hbound
    exact (size_le_of_magnitude_le hofNat).trans size_ofNat_bound.le
  case isFalse =>
    split at h
    case isTrue =>
      rw [Option.some.injEq] at h
      exact h ▸ isFinite_of_magnitude_le hofNat hbound
    case isFalse =>
      split at h
      case isTrue => cases h
      case isFalse =>
        split at h
        case isTrue hfinite =>
          rw [Option.some.injEq] at h
          exact h ▸ hfinite
        case isFalse => cases h

theorem exists_scale?_of_neg (n : Nat) {e : Int} (he : e < 0) : ∃ x, scale? n e = some x :=
  ⟨shrink (Binary64.ofNat n) e.natAbs, by rw [scale?, if_pos he]⟩

/-- The shortest digits of a finite double are scaled to a number. -/
theorem exists_scale?_shortest {x : Binary64} (hx : x.isFinite = true) (hzero : x.isZero = false)
    (hdigits : x.shortest.digits ≠ 0) :
    ∃ y, scale? x.shortest.digits x.shortest.exponent = some y := by
  by_cases hneg : x.shortest.exponent < 0
  · exact exists_scale?_of_neg _ hneg
  · obtain ⟨hexp, hfinite⟩ := isFinite_shortest_mul hx hzero hdigits (Int.not_lt.1 hneg)
    unfold scale?
    simp only [if_neg hneg, if_neg (Int.not_lt.2 hexp), if_pos hfinite]
    split
    · exact ⟨_, rfl⟩
    · exact ⟨_, rfl⟩

/-! ## Texts of decimal numbers -/

/-- The characters are a number without a sign, and whatever sign is put before it, its value is the
double with that sign. -/
def Denotes (cs : List Char) (x : Binary64) : Prop :=
  ∃ whole fraction exponent tail power, cs = whole ++ fraction ++ exponent ∧ IsWhole whole ∧
    IsFraction fraction tail ∧ IsExponent exponent power ∧
    ∀ negative first stop, Literal.value ⟨negative, digitsOf whole, tail, power⟩ first stop =
      .ok (.float (x.withSign negative))

theorem isWhole_singleton {c : Char} (h : Text.isDigit c = true) : IsWhole [c] where
  ne_nil := List.cons_ne_nil c []
  all := by simpa using h
  no_zero := fun _ => rfl

theorem isWhole_of_head {cs : List Char} (h : IsDigits cs) (hhead : cs.head? ≠ some '0') :
    IsWhole cs := ⟨h, fun hzero => absurd hzero hhead⟩

theorem isDigit_of_mem_zeros {k : Nat} {c : Char} (h : c ∈ List.replicate k '0') :
    Text.isDigit c = true := by
  rw [List.eq_of_mem_replicate h]
  rfl

section

variable {d : Decimal} {x : Binary64}

/-- A whole number keeps `.0`. -/
theorem denotes_whole (hd : d.digits ≠ 0) (hlt : d.whole * 10 < 2 ^ 64)
    (hx : scale? (d.whole * 10) (-1) = some x) :
    Denotes (Text.decimal d.digits ++ List.replicate d.exponent.toNat '0' ++ ['.', '0']) x := by
  have hdigits := isDigits_decimal d.digits
  have hhead := Text.head?_decimal_ne_zero hd
  obtain ⟨c, cs, hcons, -⟩ := hdigits.exists_cons
  have hwhole : IsWhole (Text.decimal d.digits ++ List.replicate d.exponent.toNat '0') := by
    refine isWhole_of_head ⟨by simp [hdigits.ne_nil], fun a ha => ?_⟩ ?_
    · rcases List.mem_append.1 ha with ha | ha
      · exact hdigits.all a ha
      · exact isDigit_of_mem_zeros ha
    · rw [hcons] at hhead ⊢
      exact hhead
  -- the zeros before the point and the one behind it are read as digits
  have hvalue : Nat.ofDigitChars 10
      (Text.decimal d.digits ++ List.replicate d.exponent.toNat '0' ++ ['0']) 0 = d.whole * 10 := by
    rw [Nat.ofDigitChars_append, Nat.ofDigitChars_append, Text.decimal,
      Nat.ofDigitChars_ten_toDigits, Nat.ofDigitChars_replicate_zero, Nat.ofDigitChars_cons,
      Nat.ofDigitChars_nil, Decimal.whole, Nat.mul_comm d.digits, Nat.mul_comm 10]
    rfl
  have hzero : IsDigits ['0'] := (isWhole_singleton rfl).toIsDigits
  exact ⟨_, ['.', '0'], [], _, none, (List.append_nil _).symm, hwhole, .some hzero, .none,
    Literal.value_of_fraction hzero.ne_nil hvalue hlt hx⟩

variable (hlt : d.digits < 2 ^ 64)

include hlt

/-- The point stands inside the digits. -/
theorem denotes_inside (hd : d.digits ≠ 0) {k : Nat} (hk : 0 < k)
    (hlen : d.exponent + (Text.decimal d.digits).length = k)
    (hneg : d.exponent < 0) (hx : scale? d.digits d.exponent = some x) :
    Denotes ((Text.decimal d.digits).take k ++ '.' :: (Text.decimal d.digits).drop k) x := by
  have hdigits := isDigits_decimal d.digits
  have hhead := Text.head?_decimal_ne_zero hd
  obtain ⟨c, cs, hcons, -⟩ := hdigits.exists_cons
  have hwhole : IsWhole ((Text.decimal d.digits).take k) := by
    obtain ⟨m, rfl⟩ := Nat.exists_eq_succ_of_ne_zero hk.ne'
    refine isWhole_of_head ⟨?_, fun a ha => hdigits.all a (List.mem_of_mem_take ha)⟩ ?_
    · rw [hcons, List.take_succ_cons]
      exact List.cons_ne_nil _ _
    · rw [hcons] at hhead ⊢
      exact hhead
  have hrest : IsDigits ((Text.decimal d.digits).drop k) := by
    refine ⟨?_, fun a ha => hdigits.all a (List.mem_of_mem_drop ha)⟩
    rw [ne_eq, List.drop_eq_nil_iff]
    omega
  have hvalue : Nat.ofDigitChars 10
      ((Text.decimal d.digits).take k ++ (Text.decimal d.digits).drop k) 0 = d.digits := by
    rw [List.take_append_drop, Text.decimal, Nat.ofDigitChars_ten_toDigits]
  -- as many digits stand behind the point as the exponent says
  have hpoint : (-((Text.decimal d.digits).drop k).length : Int) = d.exponent := by
    rw [List.length_drop]
    omega
  exact ⟨_, _, [], _, none, (List.append_nil _).symm, hwhole, .some hrest, .none,
    Literal.value_of_fraction hrest.ne_nil hvalue hlt (hpoint ▸ hx)⟩

/-- The point stands before the digits, with zeros between. -/
theorem denotes_below {k : Nat}
    (hlen : d.exponent = -((k + (Text.decimal d.digits).length : Nat) : Int))
    (hx : scale? d.digits d.exponent = some x) :
    Denotes ('0' :: '.' :: List.replicate k '0' ++ Text.decimal d.digits) x := by
  have hdigits := isDigits_decimal d.digits
  have hrest : IsDigits (List.replicate k '0' ++ Text.decimal d.digits) := by
    refine ⟨by simp [hdigits.ne_nil], fun a ha => ?_⟩
    rcases List.mem_append.1 ha with ha | ha
    · exact isDigit_of_mem_zeros ha
    · exact hdigits.all a ha
  have hvalue : Nat.ofDigitChars 10
      (['0'] ++ (List.replicate k '0' ++ Text.decimal d.digits)) 0 = d.digits := by
    rw [Nat.ofDigitChars_append, Nat.ofDigitChars_append, Nat.ofDigitChars_replicate_zero]
    exact Nat.ofDigitChars_ten_toDigits
  -- the zeros behind the point and the digits make up the exponent
  have hpoint : (-(List.replicate k '0' ++ Text.decimal d.digits).length : Int) = d.exponent := by
    rw [List.length_append, List.length_replicate, hlen]
  refine ⟨['0'], '.' :: (List.replicate k '0' ++ Text.decimal d.digits), [], _, none, by simp,
    isWhole_singleton rfl, .some hrest, .none,
    Literal.value_of_fraction hrest.ne_nil hvalue hlt (hpoint ▸ hx)⟩

/-- One digit stands before the point, and an exponent says where the point belongs. -/
theorem denotes_exponent {first : Int}
    (hfirst : first = (Text.decimal d.digits).length + d.exponent - 1)
    (hlow : -1000 ≤ first) (hhigh : first ≤ 1000) (hexp : -1000 ≤ d.exponent)
    (hexp' : d.exponent ≤ 1000) (hx : scale? d.digits d.exponent = some x) :
    Denotes ((match Text.decimal d.digits with
      | [] => []
      | [c] => [c]
      | c :: rest => c :: '.' :: rest) ++
      'e' :: (if first < 0 then '-' else '+') :: Text.decimal first.natAbs) x := by
  have hdigits := isDigits_decimal d.digits
  obtain ⟨c, ds, hcons, hc⟩ := hdigits.exists_cons
  have hexponent : IsExponent ('e' :: (if first < 0 then '-' else '+') :: Text.decimal first.natAbs)
      (some (decide (first < 0), digitsOf (Text.decimal first.natAbs))) := by
    by_cases hneg : first < 0
    · rw [if_pos hneg, decide_eq_true hneg]
      exact .down (isDigits_decimal _)
    · rw [if_neg hneg, decide_eq_false hneg]
      exact .up (isDigits_decimal _)
  have hvalue : Nat.ofDigitChars 10 ([c] ++ ds) 0 = d.digits := by
    rw [List.singleton_append, ← hcons, Text.decimal, Nat.ofDigitChars_ten_toDigits]
  have hnatAbs : Nat.ofDigitChars 10 (Text.decimal first.natAbs) 0 = first.natAbs :=
    Nat.ofDigitChars_ten_toDigits
  have hlength : (Text.decimal d.digits).length = ds.length + 1 := by rw [hcons, List.length_cons]
  -- The exponent, moved back behind the last digit, is that of the decimal number.
  have hpoint : clampExponent (if decide (first < 0) = true then -ds.length - first.natAbs
      else -ds.length + first.natAbs) = d.exponent := by
    unfold clampExponent
    by_cases hneg : first < 0
    · rw [if_pos (decide_eq_true hneg)]
      omega
    · rw [if_neg (by simpa using hneg)]
      omega
  have hread := Literal.value_of_exponent hvalue hlt hnatAbs (by omega) (hpoint ▸ hx)
  rw [hcons]
  cases ds with
  | nil => exact ⟨[c], [], _, [], _, rfl, isWhole_singleton hc, .none, hexponent, hread⟩
  | cons e ds =>
    refine ⟨[c], '.' :: e :: ds, _, _, _, rfl, isWhole_singleton hc,
      .some ⟨List.cons_ne_nil _ _, fun a ha => ?_⟩, hexponent, hread⟩
    exact hdigits.all a (hcons ▸ List.mem_cons_of_mem _ ha)

end

theorem lt_ten_pow_length (n : Nat) : n < 10 ^ (Text.decimal n).length :=
  (Nat.length_toDigits_le_iff (by decide) (List.length_pos_iff.2 (Text.decimal_ne_nil n))).1
    (Nat.le_refl _)

/-- At most sixteen digits stand before a point that is written at its place. -/
theorem whole_lt_of_layout {d : Decimal}
    (hfirst : (Text.decimal d.digits).length + d.exponent - 1 ≤ layout.greatest)
    (hexp : 0 ≤ d.exponent) : d.whole * 10 < 2 ^ 64 := by
  have hgreatest : layout.greatest = 15 := rfl
  have hwhole : d.whole < 10 ^ 16 :=
    calc d.whole = d.digits * 10 ^ d.exponent.toNat := rfl
      _ < 10 ^ (Text.decimal d.digits).length * 10 ^ d.exponent.toNat :=
          Nat.mul_lt_mul_of_pos_right (lt_ten_pow_length _) (Nat.pow_pos (by decide))
      _ = 10 ^ ((Text.decimal d.digits).length + d.exponent.toNat) := (Nat.pow_add 10 _ _).symm
      _ ≤ 10 ^ 16 := Nat.pow_le_pow_right (by decide) (by omega)
  omega

/-- Every form of text of a decimal number denotes what a reader makes of the number. -/
theorem denotes_text {d : Decimal} (hd : d.digits ≠ 0) (hdigits : d.digits ≤ 10 ^ 17)
    (hlow : -400 ≤ d.exponent) (hhigh : d.exponent ≤ 400) {x : Binary64} (hx : d.reread? = some x) :
    Denotes (d.text layout) x := by
  have hlt : d.digits < 2 ^ 64 := by omega
  -- seventeen digits, so no case leaves the range of the layout
  have hlength : (Text.decimal d.digits).length ≤ 18 :=
    (Nat.length_toDigits_le_iff (by decide) (by decide)).2 (by omega)
  have hpos : 0 < (Text.decimal d.digits).length := List.length_pos_iff.2 (Text.decimal_ne_nil _)
  have hleast : layout.least = -5 := rfl
  have hgreatest : layout.greatest = 15 := rfl
  unfold Decimal.reread? at hx
  unfold Decimal.text
  simp only [hleast, hgreatest, Bool.and_eq_true, decide_eq_true_eq] at hx ⊢
  split
  case isTrue hrange =>
    split
    case isTrue hexp =>
      rw [if_pos ⟨hrange.1, hrange.2, hexp⟩] at hx
      exact denotes_whole hd (whole_lt_of_layout hrange.2 hexp) hx
    case isFalse hexp =>
      rw [if_neg fun h => hexp h.2.2] at hx
      split
      case isTrue hfirst =>
        exact denotes_inside hlt hd (Nat.succ_pos _) (by omega) (by omega) hx
      case isFalse hfirst => exact denotes_below hlt (by omega) hx
  case isFalse hrange =>
    rw [if_neg fun h => hrange ⟨h.1, h.2.1⟩] at hx
    exact denotes_exponent hlt rfl (by omega) (by omega) (by omega) (by omega) hx

/-! ## The text of a double -/

/-- The shortest digits of a finite double are read, and as a finite one. -/
theorem exists_denotes_shortest {x : Binary64} (hx : x.isFinite = true) (hzero : x.isZero = false) :
    ∃ y, x.shortest.reread? = some y ∧ y.isFinite = true ∧
      Denotes (x.shortest.text layout) y := by
  obtain ⟨hmost, hlow, hhigh⟩ := shortest_bounds hx hzero
  rcases shortest_digits_ne_zero hzero with hdigits | hnone
  · have hread : ∃ y, x.shortest.reread? = some y ∧ y.isFinite = true := by
      unfold Decimal.reread?
      simp only
      split
      case isTrue hrange =>
        obtain ⟨y, hy⟩ :=
          exists_scale?_of_neg (x.shortest.whole * 10) (show (-1 : Int) < 0 by decide)
        -- a whole number below the greatest place is read with its fraction of zero
        exact ⟨y, hy, isFinite_of_scale? (whole_lt_of_layout hrange.2.1 hrange.2.2) hy⟩
      case isFalse =>
        obtain ⟨y, hy⟩ := exists_scale?_shortest hx hzero hdigits
        exact ⟨y, hy, isFinite_of_scale? (by omega) hy⟩
    obtain ⟨y, hy, hfinite⟩ := hread
    exact ⟨y, hy, hfinite, denotes_text hdigits hmost hlow hhigh hy⟩
  · -- Where no digits were found, the text is that of zero with an exponent.
    rw [hnone]
    have hscale : scale? 0 17 = some (Binary64.ofNat 0) := by decide
    exact ⟨Binary64.ofNat 0, hscale, by decide,
      denotes_exponent (d := ⟨0, 17⟩) (by decide) rfl (by decide)
      (by decide) (by decide) (by decide) hscale⟩

/-- What has the magnitude of a double is this double, with its sign. -/
theorem withSign_isNegative {x y : Binary64} (h : y.magnitude = x.magnitude) :
    y.withSign x.isNegative = x := by
  have h : y.bits.toNat % 2 ^ 63 = x.bits.toNat % 2 ^ 63 := h
  have hlt := x.bits.toNat_lt
  have hbits : (y.withSign x.isNegative).bits = x.bits := by
    refine UInt64.toNat_inj.1 ?_
    unfold withSign isNegative
    rw [UInt64.toNat_ofNat', h]
    by_cases hneg : 2 ^ 63 ≤ x.bits.toNat
    · rw [if_pos (decide_eq_true hneg)]
      omega
    · rw [if_neg (by simpa using hneg)]
      omega
  cases x
  exact congrArg Binary64.mk hbits

theorem isZero_iff {x : Binary64} : x.isZero = true ↔ x.magnitude = 0 := beq_iff_eq

/-- **Finite doubles are read back.** The text of a finite double is one number, and its value is the
double that `reread` names. -/
theorem exists_isNumeral_text {x : Binary64} (hx : x.isFinite = true) :
    ∃ l, IsNumeral (x.text layout) l ∧
      ∀ first stop, l.value first stop = .ok (.float x.reread) := by
  have hbody : ∃ y, y.withSign x.isNegative = x.reread ∧
      Denotes (if x.isZero then ['0', '.', '0'] else x.shortest.text layout) y := by
    unfold reread
    cases hzero : x.isZero with
    | true =>
      -- a zero is read as a zero, and keeps its sign
      have hscale : scale? 0 (-1) = some (shrink (Binary64.ofNat 0) 1) := rfl
      have hshrink : (shrink (Binary64.ofNat 0) 1).isZero = true := by
        rw [shrink]
        decide
      have hsign := withSign_isNegative ((isZero_iff.1 hshrink).trans (isZero_iff.1 hzero).symm)
      have hpoint : IsDigits ['0'] := (isWhole_singleton rfl).toIsDigits
      exact ⟨_, hsign, ['0'], ['.', '0'], [], _, none, rfl, isWhole_singleton rfl, .some hpoint,
        .none, Literal.value_of_fraction hpoint.ne_nil rfl (by decide) hscale⟩
    | false =>
      obtain ⟨y, hy, -, hdenotes⟩ := exists_denotes_shortest hx hzero
      exact ⟨y, by rw [if_neg Bool.false_ne_true, hy, Option.getD_some], hdenotes⟩
  obtain ⟨y, hy, whole, fraction, exponent, tail, power, heq, hwhole, hfraction, hexponent,
    hread⟩ :=
    hbody
  unfold Binary64.text
  simp only [heq]
  rw [← hy]
  cases x.isNegative with
  | false => exact ⟨_, .positive hwhole hfraction hexponent, hread false⟩
  | true => exact ⟨_, .negative hwhole hfraction hexponent, hread true⟩

theorem isFinite_withSign (negative : Bool) (x : Binary64) :
    (x.withSign negative).isFinite = x.isFinite := by
  rw [Bool.eq_iff_iff, isFinite_iff, isFinite_iff, magnitude_withSign]

/-- What is read in place of a finite double is finite. -/
theorem isFinite_reread {x : Binary64} (hx : x.isFinite = true) : x.reread.isFinite = true := by
  unfold reread
  cases hzero : x.isZero with
  | true => rwa [if_pos rfl]
  | false =>
    obtain ⟨y, hy, hfinite, -⟩ := exists_denotes_shortest hx hzero
    rw [if_neg Bool.false_ne_true, hy, Option.getD_some, isFinite_withSign]
    exact hfinite

end Json

end Fleet
