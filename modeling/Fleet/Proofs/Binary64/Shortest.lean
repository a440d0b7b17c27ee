import Fleet.Binary64.Shortest
import Fleet.Proofs.Binary64.Rounding

/-!
# Bounds on the shortest digits

The shortest digits of a double are about seventeen at most (`shortest_bounds`), and the number that
they denote lies in the rounding interval of the double (`shortest_size_le`). It is therefore not
above `greatestDecimal`, the shortest decimal of the greatest double: that one is computed, and the
interval of every other double ends below it.

A reader that multiplies the digits by the power of ten rounds twice, and could end up above the
greatest double. That it does not is `isFinite_mul_tenTo`. Since rounding keeps the order, it is
enough to look at one number of digits for each power of ten.
-/

set_option autoImplicit false

namespace Fleet.Binary64

/-! ## Decimal numbers -/

/-- The number that a decimal denotes. -/
def Decimal.size (d : Decimal) : ℚ := d.digits * (10 : ℚ) ^ d.exponent

/-- Stripping zeros does not strip everything. -/
theorem Decimal.stripped_ne_zero (fuel : Nat) {d : Decimal} (h : d.digits ≠ 0) :
    (d.stripped fuel).digits ≠ 0 := by
  induction fuel generalizing d with
  | zero => exact h
  | succ fuel ih =>
    rw [stripped]
    split
    case isTrue hten =>
      refine ih ?_
      show d.digits / 10 ≠ 0
      omega
    case isFalse => exact h

/-- Trailing zeros are dropped from the digits and counted in the exponent. -/
theorem Decimal.stripped_spec (fuel : Nat) (d : Decimal) :
    (d.stripped fuel).size = d.size ∧ (d.stripped fuel).digits ≤ d.digits ∧
      d.exponent ≤ (d.stripped fuel).exponent ∧
      (d.stripped fuel).exponent ≤ d.exponent + fuel := by
  induction fuel generalizing d with
  | zero => exact ⟨rfl, Nat.le_refl _, Int.le_refl _, by rw [stripped]; omega⟩
  | succ fuel ih =>
    rw [stripped]
    split
    case isTrue hten =>
      obtain ⟨hsize, hdigits, hlow, hhigh⟩ := ih ⟨d.digits / 10, d.exponent + 1⟩
      refine ⟨hsize.trans ?_, hdigits.trans (Nat.div_le_self _ _), ?_, ?_⟩
      · -- what is dropped is a zero, so nothing is lost
        have hdiv : d.digits = d.digits / 10 * 10 := by omega
        unfold Decimal.size
        conv_rhs => rw [hdiv]
        rw [zpow_add_one₀ (by norm_num)]
        push_cast
        ring
      · simp only at hlow
        omega
      · simp only at hhigh
        omega
    case isFalse => exact ⟨rfl, Nat.le_refl _, Int.le_refl _, by omega⟩

/-! ## Rounding intervals -/

namespace Interval

variable {i : Interval} {n : Nat}

/-- What an interval holds is no greater than its end. -/
theorem le_high_of_holds (h : i.holds n = true) : n * i.unit ≤ i.high := by
  unfold holds at h
  split at h <;> rw [Bool.and_eq_true, decide_eq_true_eq, decide_eq_true_eq] at h <;> omega

/-- A hit is a neighbour of the value that lies in the interval. -/
theorem hit?_spec (h : i.hit? = some n) : i.holds n = true ∧ n ≤ i.value / i.unit + 1 := by
  unfold hit? at h
  simp only at h
  split at h
  case h_1 hfloor hceil =>
    rw [Option.some.injEq] at h
    subst h
    -- of two candidates at one distance the even one is taken
    have hparity : i.value / i.unit % 2 = 0 ∨ i.value / i.unit % 2 = 1 := by omega
    split
    · exact ⟨hfloor, Nat.le_succ _⟩
    · split
      · exact ⟨hceil, Nat.le_refl _⟩
      · refine ⟨?_, by omega⟩
        rcases hparity with hp | hp <;> rw [hp] <;> assumption
  case h_2 hfloor _ =>
    rw [Option.some.injEq] at h
    exact h ▸ ⟨hfloor, Nat.le_succ _⟩
  case h_3 _ hceil =>
    rw [Option.some.injEq] at h
    exact h ▸ ⟨hceil, Nat.le_refl _⟩
  case h_4 => cases h

/-- Zero does not lie in an interval of positive numbers. -/
theorem ne_zero_of_holds (hlow : 0 < i.low) (h : i.holds n = true) : n ≠ 0 := by
  rintro rfl
  unfold holds at h
  rw [Nat.zero_mul] at h
  split at h
  · rw [Bool.and_eq_true, decide_eq_true_eq] at h
    omega
  · rw [Bool.and_eq_true, decide_eq_true_eq] at h
    omega

/-- Scaling keeps the start of an interval positive. -/
theorem scaled_low_pos (hlow : 0 < i.low) (k : Int) : 0 < (i.scaled k).low := by
  unfold scaled
  split
  · exact hlow
  · exact Nat.mul_pos hlow (Nat.pow_pos (by decide))

/-- Scaling by a power of ten divides the numbers of the interval by it. -/
theorem scaled_spec (hunit : 0 < i.unit) (k : Int) :
    0 < (i.scaled k).unit ∧
      ((i.scaled k).value : ℚ) / (i.scaled k).unit * 10 ^ k = i.value / i.unit ∧
      ((i.scaled k).high : ℚ) / (i.scaled k).unit * 10 ^ k = i.high / i.unit := by
  have hpos : (i.unit : ℚ) ≠ 0 := by exact_mod_cast hunit.ne'
  unfold scaled
  split
  case isTrue hk =>
    obtain ⟨t, rfl⟩ := Int.eq_ofNat_of_zero_le hk
    refine ⟨Nat.mul_pos hunit (Nat.pow_pos (by decide)), ?_, ?_⟩ <;>
      · rw [Int.toNat_natCast, zpow_natCast]
        push_cast
        field_simp
  case isFalse hk =>
    obtain ⟨t, ht⟩ := Int.eq_ofNat_of_zero_le (show 0 ≤ -k by omega)
    obtain rfl : k = -(t : Int) := by omega
    refine ⟨hunit, ?_, ?_⟩ <;>
      · rw [neg_neg, Int.toNat_natCast, zpow_neg, zpow_natCast]
        push_cast
        field_simp

end Interval

/-- A float that is not zero has a significand. -/
theorem significand_pos {x : Binary64} (hx : x.isZero = false) : 0 < x.significand := by
  unfold significand
  split
  case isTrue hexp =>
    refine Nat.pos_of_ne_zero fun hzero => ?_
    have hfraction : x.bits.toNat % 2 ^ 52 = 0 := hzero
    have hexponent : x.bits.toNat / 2 ^ 52 % 2 ^ 11 = 0 := hexp
    have hbits : x.bits.toNat % 2 ^ 63 = 0 := by omega
    rw [isZero, hbits] at hx
    cases hx
  case isFalse => omega

/-- Its interval starts above zero. -/
theorem interval_low_pos {x : Binary64} (hx : x.isZero = false) : 0 < x.interval.low := by
  have hsig := significand_pos hx
  have hratio : 0 < (asRatio 1 (x.exponent - 2)).1 := by
    unfold asRatio
    split
    · exact Nat.mul_pos Nat.one_pos (Nat.pow_pos (by decide))
    · exact Nat.one_pos
  refine Nat.mul_pos ?_ hratio
  split <;> omega

/-- The interval ends half a last place above its value. -/
theorem interval_spec (x : Binary64) :
    0 < x.interval.unit ∧
      (x.interval.value : ℚ) / x.interval.unit = (4 * x.significand : ℕ) * 2 ^ (x.exponent - 2) ∧
      (x.interval.high : ℚ) / x.interval.unit =
        (4 * x.significand + 2 : ℕ) * 2 ^ (x.exponent - 2) := by
  have hratio := asRatio_eq 1 (x.exponent - 2)
  rw [Nat.cast_one, one_mul] at hratio
  refine ⟨asRatio_pos _ _, ?_, ?_⟩ <;>
    · rw [← hratio, mul_div_assoc']
      unfold interval
      push_cast
      rfl

/-! ## The place of the first digit -/

/-- Whether a positive number is not below a power of ten. -/
def reaches (num den : Nat) (k : Int) : Bool :=
  if k ≥ 0 then den * 10 ^ k.toNat ≤ num else den ≤ num * 10 ^ (-k).toNat

/-- A quotient that does not reach a power of ten is below it. -/
theorem lt_of_reaches_eq_false {num den : Nat} (hden : 0 < den) {k : Int}
    (h : reaches num den k = false) : (num : ℚ) / den < 10 ^ k := by
  refine (div_lt_zpow_iff hden (by decide : 0 < 10) k).2 ?_
  unfold reaches at h
  split at h
  case isTrue hk =>
    rw [if_pos hk]
    exact Nat.not_le.1 (of_decide_eq_false h)
  case isFalse hk =>
    rw [if_neg hk]
    exact Nat.not_le.1 (of_decide_eq_false h)

/-- The place that is guessed from a number of bits is at most two short of the true one, for all
lengths that the value of a double may have. -/
theorem two_zpow_lt {l : Int} (hlow : -1150 ≤ l) (hhigh : l ≤ 1150) :
    (2 : ℚ) ^ (l + 2) < 10 ^ (l * 30103 / 100000 + 3) := by
  have htable : (List.range 2301).all (fun k =>
      let l : Int := k - 1150
      !reaches (asRatio 1 (l + 2)).1 (asRatio 1 (l + 2)).2 (l * 30103 / 100000 + 3)) = true := by
    decide +kernel
  have hl := List.all_eq_true.1 htable (l + 1150).toNat (List.mem_range.2 (by omega))
  have hcast : (((l + 1150).toNat : Int) - 1150) = l := by omega
  simp only [hcast, Bool.not_eq_true'] at hl
  have hlt := lt_of_reaches_eq_false (asRatio_pos _ _) hl
  rwa [asRatio_eq, Nat.cast_one, one_mul] at hlt

/-- The place of the first digit is the guessed one or one of the next two, and it is not raised
beyond what the number reaches. -/
theorem leadingPlace_cases (num den : Nat) {guess : Int}
    (hguess : guess = ((num.log2 : Int) - den.log2 - 1) * 30103 / 100000) :
    (leadingPlace num den = guess ∧ reaches num den (guess + 1) = false) ∨
      (leadingPlace num den = guess + 1 ∧ reaches num den (guess + 2) = false) ∨
      leadingPlace num den = guess + 2 := by
  have heq : leadingPlace num den =
      if reaches num den (guess + 1) then
        if reaches num den (guess + 2) then guess + 2 else guess + 1
      else guess := by
    subst hguess
    rfl
  rw [heq]
  cases hone : reaches num den (guess + 1) with
  | false => exact .inl ⟨if_neg Bool.false_ne_true, rfl⟩
  | true =>
    rw [if_pos rfl]
    cases htwo : reaches num den (guess + 2) with
    | false => exact .inr (.inl ⟨if_neg Bool.false_ne_true, rfl⟩)
    | true => exact .inr (.inr (if_pos rfl))

/-- The digit before the first one is zero. -/
theorem lt_leadingPlace {num den : Nat} (hnum : 0 < num) (hden : 0 < den)
    (hlow : -1150 ≤ (num.log2 : Int) - den.log2 - 1)
    (hhigh : (num.log2 : Int) - den.log2 - 1 ≤ 1150) :
    (num : ℚ) / den < 10 ^ (leadingPlace num den + 1) := by
  rcases leadingPlace_cases num den rfl with ⟨heq, h⟩ | ⟨heq, h⟩ | heq
  · rw [heq]
    exact lt_of_reaches_eq_false hden h
  · rw [heq, add_assoc]
    exact lt_of_reaches_eq_false hden h
  · have hbits := (log2_bounds hnum hden).2
    have hguess := two_zpow_lt hlow hhigh
    rw [show (num.log2 : Int) - den.log2 - 1 + 2 = num.log2 - den.log2 + 1 by ring] at hguess
    rw [heq, add_assoc]
    exact hbits.trans hguess

/-- The place of the leading digit of a float is within bounds. -/
theorem leadingPlace_bounds {num den : Nat} (hlow : -1150 ≤ (num.log2 : Int) - den.log2 - 1)
    (hhigh : (num.log2 : Int) - den.log2 - 1 ≤ 1150) :
    -350 ≤ leadingPlace num den ∧ leadingPlace num den ≤ 350 := by
  rcases leadingPlace_cases num den rfl with ⟨heq, -⟩ | ⟨heq, -⟩ | heq
  · omega
  · omega
  · omega

/-! ## The shortest digits -/

/-- So is its exponent. -/
theorem exponent_bounds {x : Binary64} (hx : x.isFinite = true) :
    -1074 ≤ x.exponent ∧ x.exponent ≤ 971 := by
  have hlt : x.exponentField < 2 ^ 11 := Nat.mod_lt _ (by decide)
  rw [isFinite, bne_iff_ne] at hx
  unfold exponent
  omega

/-- The value of an interval is positive. -/
theorem interval_value_pos {x : Binary64} (hx : x.isZero = false) : 0 < x.interval.value := by
  have hlow := interval_low_pos hx
  have hle : x.interval.low ≤ x.interval.value := Nat.mul_le_mul_right _ (Nat.sub_le _ _)
  exact hlow.trans_le hle

/-- The value of a double has at most about eleven hundred bits before or behind the point. -/
theorem interval_log2_bounds {x : Binary64} (hx : x.isFinite = true) (hzero : x.isZero = false) :
    -1150 ≤ (x.interval.value.log2 : Int) - x.interval.unit.log2 - 1 ∧
      (x.interval.value.log2 : Int) - x.interval.unit.log2 - 1 ≤ 1150 := by
  obtain ⟨hlow, hhigh⟩ := exponent_bounds hx
  have hsig := significand_lt x
  have hpos := significand_pos hzero
  have hvalue : x.interval.value = 4 * x.significand * (asRatio 1 (x.exponent - 2)).1 := rfl
  have hunit : x.interval.unit = (asRatio 1 (x.exponent - 2)).2 := rfl
  rw [hvalue, hunit]
  unfold asRatio
  -- the power of two goes to the value where it is large and to the unit where it is small
  by_cases he : x.exponent - 2 ≥ 0
  · rw [if_pos he, Nat.one_mul]
    have hlt :
        4 * x.significand * 2 ^ (x.exponent - 2).toNat < 2 ^ (55 + (x.exponent - 2).toNat) := by
      rw [Nat.pow_add]
      exact Nat.mul_lt_mul_of_pos_right (by omega) (Nat.two_pow_pos _)
    have hne : 4 * x.significand * 2 ^ (x.exponent - 2).toNat ≠ 0 :=
      (Nat.mul_pos (by omega) (Nat.two_pow_pos _)).ne'
    have hlog := (Nat.log2_lt hne).2 hlt
    have hone : Nat.log2 1 = 0 := by decide
    simp only [hone]
    omega
  · rw [if_neg he, Nat.mul_one]
    have hlt : 4 * x.significand < 2 ^ 55 := by omega
    have hlog := (Nat.log2_lt (show 4 * x.significand ≠ 0 by omega)).2 hlt
    simp only [Nat.log2_two_pow]
    omega

/-- What the search for the shortest digits found, before the zeros are dropped. -/
theorem shortest_cases (x : Binary64) :
    x.shortest = ⟨0, 17⟩ ∨ ∃ count n, 1 ≤ count ∧ count ≤ 17 ∧
      (x.interval.scaled (leadingPlace x.interval.value x.interval.unit - (count - 1 : Nat))).hit?
        = some n ∧
      x.shortest = Decimal.stripped 17
        ⟨n, leadingPlace x.interval.value x.interval.unit - (count - 1 : Nat)⟩ := by
  unfold shortest
  simp only
  cases hfound : (List.range' 1 17).findSome? _ with
  | none => exact .inl rfl
  | some d =>
    -- the first number of digits at which a decimal hits the interval
    obtain ⟨count, hmem, hcount⟩ := List.exists_of_findSome?_eq_some hfound
    obtain ⟨n, hn, rfl⟩ := Option.map_eq_some_iff.1 hcount
    rw [List.mem_range'_1] at hmem
    exact .inr ⟨count, n, hmem.1, by omega, hn, rfl⟩

/-- The shortest decimal of a float that is not zero has digits. -/
theorem shortest_digits_ne_zero {x : Binary64} (hx : x.isZero = false) :
    x.shortest.digits ≠ 0 ∨ x.shortest = ⟨0, 17⟩ := by
  rcases shortest_cases x with h | ⟨count, n, -, -, hn, h⟩
  · exact .inr h
  · rw [h]
    refine .inl (Decimal.stripped_ne_zero 17 ?_)
    exact Interval.ne_zero_of_holds (Interval.scaled_low_pos (interval_low_pos hx) _)
      (Interval.hit?_spec hn).1

/-- There are at most seventeen digits, and their exponent is a small number. -/
theorem shortest_bounds {x : Binary64} (hx : x.isFinite = true) (hzero : x.isZero = false) :
    x.shortest.digits ≤ 10 ^ 17 ∧ -400 ≤ x.shortest.exponent ∧ x.shortest.exponent ≤ 400 := by
  rcases shortest_cases x with h | ⟨count, n, hone, hcount, hn, h⟩
  · rw [h]
    exact ⟨Nat.zero_le _, by decide, by decide⟩
  · obtain ⟨hlow, hhigh⟩ := interval_log2_bounds hx hzero
    obtain ⟨hunit, -, -⟩ := interval_spec x
    have hplace := lt_leadingPlace (interval_value_pos hzero) hunit hlow hhigh
    have hbounds := leadingPlace_bounds hlow hhigh
    generalize hp : leadingPlace x.interval.value x.interval.unit = place at *
    obtain ⟨hscaled, hvalue, -⟩ :=
      Interval.scaled_spec hunit (place - (count - 1 : Nat))
    obtain ⟨-, hdigits, hexp, hexp'⟩ := Decimal.stripped_spec 17 ⟨n, place - (count - 1 : Nat)⟩
    rw [← h] at hdigits hexp hexp'
    -- On the grid of `count` digits the value is below `10 ^ count`, and the hit at most next to it.
    have hgrid : ((x.interval.scaled (place - (count - 1 : Nat))).value : ℚ) /
        (x.interval.scaled (place - (count - 1 : Nat))).unit < 10 ^ count := by
      rw [← hvalue] at hplace
      have hsplit : (10 : ℚ) ^ (place + 1) = 10 ^ count * 10 ^ (place - (count - 1 : Nat)) := by
        rw [← zpow_natCast, ← zpow_add₀ (by norm_num)]
        congr 1
        omega
      rw [hsplit] at hplace
      exact lt_of_mul_lt_mul_right hplace (by positivity)
    have hfloor : (x.interval.scaled (place - (count - 1 : Nat))).value /
        (x.interval.scaled (place - (count - 1 : Nat))).unit < 10 ^ count := by
      rw [Nat.div_lt_iff_lt_mul hscaled]
      rw [div_lt_iff₀ (by exact_mod_cast hscaled)] at hgrid
      exact_mod_cast hgrid
    have hhit := (Interval.hit?_spec hn).2
    have hpow : 10 ^ count ≤ 10 ^ 17 := Nat.pow_le_pow_right (by decide) hcount
    simp only at hdigits hexp hexp'
    refine ⟨by omega, by omega, by omega⟩

/-- The shortest digits denote a number in the rounding interval. -/
theorem shortest_size_le {x : Binary64} :
    x.shortest.size ≤ (4 * x.significand + 2 : ℕ) * 2 ^ (x.exponent - 2) := by
  obtain ⟨hunit, -, hhigh⟩ := interval_spec x
  rcases shortest_cases x with h | ⟨count, n, -, -, hn, h⟩
  · rw [h, Decimal.size, Nat.cast_zero, zero_mul]
    positivity
  · generalize hk : leadingPlace x.interval.value x.interval.unit - (count - 1 : Nat) = k at *
    obtain ⟨hscaled, -, hspec⟩ := Interval.scaled_spec hunit k
    -- a hit is within the interval, whatever it was scaled by
    have hle := Interval.le_high_of_holds (Interval.hit?_spec hn).1
    have hle : (n : ℚ) ≤ (x.interval.scaled k).high / (x.interval.scaled k).unit := by
      rw [le_div_iff₀ (by exact_mod_cast hscaled)]
      exact_mod_cast hle
    rw [h, (Decimal.stripped_spec 17 ⟨n, k⟩).1, ← hhigh, ← hspec]
    unfold Decimal.size
    gcongr

/-! ## The greatest double -/

/-- The shortest decimal of the greatest double. -/
def greatestDecimal : Decimal := ⟨17976931348623157, 292⟩

/-- The number that a decimal without digits behind the point denotes. -/
def Decimal.whole (d : Decimal) : Nat := d.digits * 10 ^ d.exponent.toNat

/-- A decimal without a fraction is a whole number. -/
theorem Decimal.size_eq_whole {d : Decimal} (h : 0 ≤ d.exponent) : d.size = d.whole := by
  obtain ⟨n, hn⟩ := Int.eq_ofNat_of_zero_le h
  rw [size, whole, hn, Int.toNat_natCast, zpow_natCast]
  push_cast
  rfl

/-- The greatest magnitude belongs to two floats. -/
theorem eq_of_magnitude {x : Binary64} (h : x.magnitude = 2047 * 2 ^ 52 - 1) :
    x = ⟨0x7fefffffffffffff⟩ ∨ x = ⟨0xffefffffffffffff⟩ := by
  have hlt := x.bits.toNat_lt
  unfold magnitude at h
  have hbits : x.bits.toNat = 0x7fefffffffffffff ∨ x.bits.toNat = 0xffefffffffffffff := by omega
  rcases hbits with hbits | hbits
  · exact .inl (congrArg Binary64.mk (UInt64.toNat_inj.1 hbits))
  · exact .inr (congrArg Binary64.mk (UInt64.toNat_inj.1 hbits))

/-- No shortest decimal is above that of the greatest double. -/
theorem shortest_size_le_greatest {x : Binary64} (hx : x.isFinite = true) :
    x.shortest.size ≤ greatestDecimal.size := by
  by_cases hgreatest : x.magnitude = 2047 * 2 ^ 52 - 1
  · have hshortest : x.shortest = greatestDecimal := by
      rcases eq_of_magnitude hgreatest with rfl | rfl <;> decide +kernel
    rw [hshortest]
  · -- The interval of any other double ends below the value of the greatest one.
    have hmagnitude := (isFinite_iff x).1 hx
    have hfields := Nat.div_add_mod x.magnitude (2 ^ 52)
    rw [← exponentField_eq, ← fractionField_eq] at hfields
    obtain ⟨-, hexp⟩ := exponent_bounds hx
    have hsig := significand_lt x
    refine shortest_size_le.trans ?_
    have hend : ((4 * x.significand + 2 : ℕ) : ℚ) * 2 ^ (x.exponent - 2) ≤
        ((2 ^ 55 - 6 : ℕ) : ℚ) * 2 ^ (969 : Int) := by
      by_cases htop : x.exponent = 971
      · have hsig : x.significand ≤ 2 ^ 53 - 2 := by
          unfold significand
          unfold exponent at htop
          rw [if_neg (by omega)]
          omega
        rw [show x.exponent - 2 = 969 by omega]
        gcongr
        omega
      · -- one last place less makes up for any significand
        calc ((4 * x.significand + 2 : ℕ) : ℚ) * 2 ^ (x.exponent - 2)
            ≤ ((2 * (2 ^ 55 - 6) : ℕ) : ℚ) * 2 ^ (968 : Int) := by
              gcongr
              · omega
              · norm_num
              · omega
          _ = ((2 ^ 55 - 6 : ℕ) : ℚ) * 2 ^ (969 : Int) := by
              rw [show (969 : Int) = 968 + 1 by rfl, zpow_add_one₀ (by norm_num)]
              generalize (2 : ℚ) ^ (968 : Int) = p
              push_cast
              ring
    refine hend.trans ?_
    have hnat : (2 ^ 55 - 6) * (asRatio 1 969).1 ≤ greatestDecimal.whole := by decide +kernel
    have hpower : ((asRatio 1 969).1 : ℚ) = 2 ^ (969 : Int) := by
      have h := asRatio_eq 1 969
      rwa [show (asRatio 1 969).2 = 1 by rfl, Nat.cast_one, div_one, one_mul] at h
    calc ((2 ^ 55 - 6 : ℕ) : ℚ) * 2 ^ (969 : Int)
        = (((2 ^ 55 - 6) * (asRatio 1 969).1 : ℕ) : ℚ) := by rw [Nat.cast_mul, hpower]
      _ ≤ (greatestDecimal.whole : ℚ) := Nat.cast_le.2 hnat
      _ = greatestDecimal.size := (Decimal.size_eq_whole (by decide)).symm

/-! ## Digits times a power of ten -/

/-- The greatest number of digits at a power of ten that may belong to a double. -/
def mostDigits (f : Nat) : Nat := min (10 ^ 17) (greatestDecimal.whole / 10 ^ f)

/-- Digits of a double times their power of ten, rounded twice, are not above all doubles. -/
theorem isFinite_mul_tenTo {n f : Nat} (hn : 0 < n) (hdigits : n ≤ 10 ^ 17)
    (hsize : n * 10 ^ f ≤ greatestDecimal.whole) :
    f ≤ 308 ∧ ((ofNat n).mul (tenTo f)).isFinite = true := by
  have hgreatest : greatestDecimal.whole < 10 ^ 309 := by decide +kernel
  have hf : f < 309 := by
    refine (Nat.pow_lt_pow_iff_right (show 1 < 10 by decide)).1 (Nat.lt_of_le_of_lt ?_ hgreatest)
    exact (Nat.le_mul_of_pos_left _ hn).trans hsize
  refine ⟨Nat.lt_succ_iff.1 hf, ?_⟩
  -- up to here the product is small whatever the digits are; the few powers beyond are computed
  by_cases hsmall : f ≤ 291
  · have hbound : ((ofNat (10 ^ 17)).mul (tenTo 291)).isFinite = true := by decide +kernel
    exact isFinite_of_magnitude_le
      (magnitude_mul_le (magnitude_ofNat_le hdigits) (magnitude_tenTo_le hsmall)) hbound
  · have hmost : n ≤ mostDigits f := by
      refine Nat.le_min.2 ⟨hdigits, ?_⟩
      rw [Nat.le_div_iff_mul_le (Nat.pow_pos (by decide))]
      exact hsize
    have htable : (List.range' 292 17).all
        (fun f => ((ofNat (mostDigits f)).mul (tenTo f)).isFinite) = true := by decide +kernel
    have hbound := List.all_eq_true.1 htable f (List.mem_range'_1.2 ⟨by omega, hf⟩)
    exact isFinite_of_magnitude_le
      (magnitude_mul_le (magnitude_ofNat_le hmost) (Nat.le_refl _)) hbound

/-- The digits of a finite double times their power of ten, where that is a whole number. -/
theorem isFinite_shortest_mul {x : Binary64} (hx : x.isFinite = true) (hzero : x.isZero = false)
    (hdigits : x.shortest.digits ≠ 0) (hexp : 0 ≤ x.shortest.exponent) :
    x.shortest.exponent ≤ 308 ∧
      ((ofNat x.shortest.digits).mul (tenTo x.shortest.exponent.toNat)).isFinite = true := by
  have hsize := shortest_size_le_greatest hx
  rw [Decimal.size_eq_whole hexp, Decimal.size_eq_whole (by decide), Nat.cast_le] at hsize
  have hmul := isFinite_mul_tenTo (Nat.pos_of_ne_zero hdigits) (shortest_bounds hx hzero).1 hsize
  exact ⟨by omega, hmul.2⟩

end Fleet.Binary64
