import Fleet.Proofs.Binary64.Shortest

/-!
# What rounding leaves alone

A quotient that is a finite double without its sign is not changed by rounding (`size_ofRatio`).
These are the multiples of a last place by less than `2 ^ 53` (`Representable`), whole numbers up to
`2 ^ 53` and small powers of ten among them (`size_ofNat`, `size_tenTo`).

And whatever lies in the rounding interval of a double is rounded to it
(`magnitude_ofRatio_of_contains`), so the interval deserves its name. A quotient in the interval has
the last place of the double, or it lies just below a power of two, at the next lower place, and is
rounded up to this power with a carry.
-/

set_option autoImplicit false

namespace Fleet.Binary64

/-! ## Whole numbers -/

/-- The nearest whole number is the one that is at most a half away, or less than a half if it is
odd. -/
theorem roundHalfEven_eq {a b n : Nat} (hb : 0 < b) (hlow : 2 * (n * b) ≤ 2 * a + b)
    (hhigh : 2 * a ≤ 2 * (n * b) + b)
    (hodd : n % 2 = 1 → 2 * (n * b) < 2 * a + b ∧ 2 * a < 2 * (n * b) + b) :
    roundHalfEven a b = n := by
  have hdiv := Nat.div_add_mod a b
  have hmod := Nat.mod_lt a hb
  have hcomm : n * b = b * n := Nat.mul_comm n b
  -- the number is the whole part of the quotient or the next one
  have hfloor : a / b ≤ n := by
    refine Nat.lt_succ_iff.1 ((Nat.div_lt_iff_lt_mul hb).2 ?_)
    rw [Nat.succ_mul]
    omega
  have hceil : n ≤ a / b + 1 := by
    by_contra hlt
    have hmul := Nat.mul_le_mul_left b (Nat.lt_of_not_le hlt)
    rw [Nat.mul_succ, Nat.mul_succ] at hmul
    omega
  unfold roundHalfEven
  simp only
  rcases Nat.lt_or_eq_of_le hfloor with hlt | heq
  · -- the number is above the quotient, and at least a half of a place is missing
    have hn : n = a / b + 1 := by omega
    rw [hn] at hcomm hlow hodd ⊢
    rw [Nat.mul_succ] at hcomm
    rw [if_neg (by omega)]
    split
    · rfl
    · omega
  · rw [← heq] at hcomm hhigh hodd ⊢
    rw [heq]
    split
    · rfl
    · rw [if_neg (by omega)]
      omega

/-- The same, with the quotient as a number. -/
theorem roundHalfEven_eq_of_div {a b n : Nat} (hb : 0 < b) (hlow : (n : ℚ) - 1 / 2 ≤ (a : ℚ) / b)
    (hhigh : (a : ℚ) / b ≤ n + 1 / 2)
    (hodd : n % 2 = 1 → (n : ℚ) - 1 / 2 < (a : ℚ) / b ∧ (a : ℚ) / b < n + 1 / 2) :
    roundHalfEven a b = n := by
  have hpos : (0 : ℚ) < b := by exact_mod_cast hb
  rw [le_div_iff₀ hpos] at hlow
  rw [div_le_iff₀ hpos] at hhigh
  rw [lt_div_iff₀ hpos, div_lt_iff₀ hpos] at hodd
  refine roundHalfEven_eq hb ?_ ?_ fun hn => ⟨?_, ?_⟩
  · have h : (2 : ℚ) * (n * b) ≤ 2 * a + b := by linarith
    exact_mod_cast h
  · have h : (2 : ℚ) * a ≤ 2 * (n * b) + b := by linarith
    exact_mod_cast h
  · have h : (2 : ℚ) * (n * b) < 2 * a + b := by linarith [(hodd hn).1]
    exact_mod_cast h
  · have h : (2 : ℚ) * a < 2 * (n * b) + b := by linarith [(hodd hn).2]
    exact_mod_cast h

/-! ## Magnitude and size -/

/-- The bits of a double are its significand at its place. -/
theorem magnitude_eq (x : Binary64) :
    x.magnitude = (x.exponent + 1074).toNat * 2 ^ 52 + x.significand := by
  have hfields := Nat.div_add_mod x.magnitude (2 ^ 52)
  rw [← exponentField_eq, ← fractionField_eq] at hfields
  unfold exponent significand
  split <;> omega

/-- What is put together from a place and a significand that fits it has this significand at this
place. -/
theorem size_of_magnitude {x : Binary64} {place : Int} {n : Nat} (hplace : -1074 ≤ place)
    (hn : n < 2 ^ 53) (hfits : place = -1074 ∨ 2 ^ 52 ≤ n)
    (h : x.magnitude = (place + 1074).toNat * 2 ^ 52 + n) : x.size = n * 2 ^ place := by
  have hexp : x.exponentField = (place + 1074).toNat + n / 2 ^ 52 := by
    rw [exponentField_eq, h]
    omega
  have hfraction : x.fractionField = n % 2 ^ 52 := by
    rw [fractionField_eq, h]
    omega
  have hsig : x.significand = n := by
    unfold significand
    split <;> omega
  have hexponent : x.exponent = place := by
    unfold exponent
    omega
  rw [size, hsig, hexponent]

/-! ## Last places -/

section

variable {num den : Nat} {place : Int}

/-- What has fifty-three bits at a place has no greater last place. -/
theorem lastPlace_le (hnum : 0 < num) (hden : 0 < den) (hleast : -1074 ≤ place)
    (h : (num : ℚ) / den < (2 ^ 53 : ℕ) * 2 ^ place) : lastPlace num den ≤ place := by
  obtain ⟨-, -, hlower⟩ := lastPlace_spec hnum hden
  rcases hlower with hlower | hlower
  · omega
  · have hbound : (2 : ℚ) ^ (lastPlace num den + 52) < 2 ^ (53 + place) := by
      refine hlower.trans_lt (h.trans_eq ?_)
      rw [zpow_add₀ (by norm_num)]
      norm_num
    rw [zpow_lt_zpow_iff_right₀ (by norm_num)] at hbound
    omega

/-- What has no less than fifty-three bits at a place has no smaller last place. -/
theorem le_lastPlace (hnum : 0 < num) (hden : 0 < den)
    (h : (2 ^ 52 : ℕ) * (2 : ℚ) ^ place ≤ (num : ℚ) / den) : place ≤ lastPlace num den := by
  obtain ⟨-, hupper, -⟩ := lastPlace_spec hnum hden
  have hbound : (2 : ℚ) ^ (52 + place) < 2 ^ (lastPlace num den + 53) := by
    refine lt_of_le_of_lt (le_trans (le_of_eq ?_) h) hupper
    rw [zpow_add₀ (by norm_num)]
    norm_num
  rw [zpow_lt_zpow_iff_right₀ (by norm_num)] at hbound
  omega

end

/-! ## Representable numbers -/

/-- The number is a finite double without its sign. -/
def Representable (q : ℚ) : Prop :=
  ∃ (n : Nat) (place : Int), n < 2 ^ 53 ∧ -1074 ≤ place ∧ place ≤ 971 ∧ q = n * 2 ^ place

/-- **What is representable is not rounded.** -/
theorem size_ofRatio (negative : Bool) {num den : Nat} (hden : 0 < den)
    (h : Representable ((num : ℚ) / den)) : (ofRatio negative num den).size = (num : ℚ) / den := by
  obtain ⟨n, place, hn, hleast, hgreatest, hq⟩ := h
  have htwo : (2 : ℚ) ≠ 0 := by norm_num
  have hmagnitude := magnitude_ofRatio negative num den
  by_cases hzero : num = 0
  · -- zero has no last place
    rw [rounded, if_pos hzero, Nat.zero_min] at hmagnitude
    have hsize : (ofRatio negative num den).size = (0 : Nat) * 2 ^ (-1074 : Int) :=
      size_of_magnitude le_rfl (by decide) (.inl rfl) hmagnitude
    rw [hsize, hzero]
    simp
  · have hnum : 0 < num := Nat.pos_of_ne_zero hzero
    obtain ⟨hlast, hupper, hlower⟩ := lastPlace_spec hnum hden
    rw [rounded, if_neg hzero] at hmagnitude
    -- The last place of the quotient divides the place that the quotient is a multiple of.
    have hle : lastPlace num den ≤ place := by
      refine lastPlace_le hnum hden hleast ?_
      rw [hq]
      gcongr
    generalize lastPlace num den = last at *
    obtain ⟨k, hk⟩ := Int.eq_ofNat_of_zero_le (show 0 ≤ place - last by omega)
    have hmultiple : (num : ℚ) / den = ((n * 2 ^ k : ℕ) : ℚ) * 2 ^ last := by
      rw [hq, show place = k + last by omega, zpow_add₀ htwo, zpow_natCast]
      push_cast
      ring
    have hplaces : places num den last = n * 2 ^ k := by
      obtain ⟨a, b, hb, hplaces, hratio⟩ := exists_places_eq num hden last
      have hab : (a : ℚ) / b = (n * 2 ^ k : ℕ) := by
        rw [hmultiple] at hratio
        exact (mul_right_cancel₀ (zpow_ne_zero last htwo) hratio).symm
      rw [hplaces]
      refine roundHalfEven_eq_of_div hb ?_ ?_ fun _ => ⟨?_, ?_⟩ <;> rw [hab] <;> linarith
    have hlt : n * 2 ^ k < 2 ^ 53 := by
      rw [hmultiple, add_comm last, zpow_add₀ htwo] at hupper
      have hlt : ((n * 2 ^ k : ℕ) : ℚ) < 2 ^ (53 : Int) :=
        lt_of_mul_lt_mul_right hupper (by positivity)
      exact_mod_cast hlt
    rw [hplaces, Nat.min_eq_left (by omega)] at hmagnitude
    rw [size_of_magnitude hlast hlt ?_ hmagnitude, hmultiple]
    refine hlower.imp_right fun hlower => ?_
    rw [hmultiple, add_comm last, zpow_add₀ htwo] at hlower
    have hle : (2 : ℚ) ^ (52 : Int) ≤ (n * 2 ^ k : ℕ) :=
      le_of_mul_le_mul_right hlower (by positivity)
    exact_mod_cast hle

/-- Natural numbers of fifty-three bits are representable. -/
theorem representable_natCast {n : Nat} (hn : n ≤ 2 ^ 53) : Representable n := by
  rcases Nat.lt_or_eq_of_le hn with hlt | rfl
  · exact ⟨n, 0, hlt, by decide, by decide, by simp⟩
  · exact ⟨2 ^ 52, 1, by decide, by decide, by decide, by norm_num⟩

/-- A power of ten is one of five times one of two. -/
theorem representable_ten_pow {k : Nat} (hk : k ≤ 22) : Representable ((10 ^ k : ℕ) : ℚ) := by
  refine ⟨5 ^ k, k, ?_, by omega, by omega, ?_⟩
  · exact Nat.lt_of_le_of_lt (Nat.pow_le_pow_right (by decide) hk) (by decide)
  · rw [zpow_natCast, show 10 = 5 * 2 by rfl, Nat.mul_pow]
    push_cast
    ring

/-- They are converted without loss. -/
theorem size_ofNat {n : Nat} (hn : Representable n) : (ofNat n).size = n := by
  have hone : ((n : ℕ) : ℚ) / (1 : ℕ) = n := by rw [Nat.cast_one, div_one]
  rw [ofNat, size_ofRatio false Nat.one_pos (hone.symm ▸ hn), hone]

/-- So are the powers of ten up to the twenty-second. -/
theorem size_tenTo {k : Nat} (hk : k ≤ 22) : (tenTo k).size = (10 : ℚ) ^ k := by
  rw [tenTo, size_ofNat (representable_ten_pow hk)]
  push_cast
  rfl

/-! ## Products and quotients -/

/-- A product is rounded from the exact one. -/
theorem exists_mul_eq (x y : Binary64) : ∃ num den, 0 < den ∧
    x.mul y = ofRatio (x.isNegative != y.isNegative) num den ∧
      (num : ℚ) / den = x.size * y.size := by
  refine ⟨_, _, asRatio_pos _ _, rfl, ?_⟩
  rw [asRatio_eq, size, size, zpow_add₀ (by norm_num)]
  push_cast
  ring

/-- A quotient is rounded from the exact one. -/
theorem exists_div_eq (x : Binary64) {y : Binary64} (hy : 0 < y.significand) : ∃ num den, 0 < den ∧
    x.div y = ofRatio (x.isNegative != y.isNegative) num den ∧
      (num : ℚ) / den = x.size / y.size := by
  refine ⟨_, _, Nat.mul_pos hy (asRatio_pos _ _), rfl, ?_⟩
  have hratio := asRatio_eq 1 (x.exponent - y.exponent)
  rw [Nat.cast_one, one_mul, zpow_sub₀ (by norm_num)] at hratio
  rw [Nat.cast_mul, Nat.cast_mul, mul_div_mul_comm, hratio, ← mul_div_mul_comm]
  rfl

/-! ## Rounding intervals -/

/-- The number lies in the interval. -/
structure Interval.Contains (i : Interval) (q : ℚ) : Prop where
  low : (i.low : ℚ) / i.unit ≤ q
  high : q ≤ (i.high : ℚ) / i.unit
  inside : i.closed = false → (i.low : ℚ) / i.unit < q ∧ q < (i.high : ℚ) / i.unit

namespace Interval

variable {i : Interval} {n : Nat}

/-- What an interval holds is in it. -/
theorem contains_of_holds (hunit : 0 < i.unit) (h : i.holds n = true) : i.Contains n := by
  have hpos : (0 : ℚ) < i.unit := by exact_mod_cast hunit
  unfold holds at h
  split at h
  -- a closed interval holds its ends as well
  case isTrue hclosed =>
    rw [Bool.and_eq_true, decide_eq_true_eq, decide_eq_true_eq] at h
    refine ⟨?_, ?_, fun hopen => absurd hclosed (by simp [hopen])⟩
    · rw [div_le_iff₀ hpos]
      exact_mod_cast h.1
    · rw [le_div_iff₀ hpos]
      exact_mod_cast h.2
  case isFalse =>
    rw [Bool.and_eq_true, decide_eq_true_eq, decide_eq_true_eq] at h
    have hlow : (i.low : ℚ) / i.unit < n := by
      rw [div_lt_iff₀ hpos]
      exact_mod_cast h.1
    have hhigh : (n : ℚ) < (i.high : ℚ) / i.unit := by
      rw [lt_div_iff₀ hpos]
      exact_mod_cast h.2
    exact ⟨hlow.le, hhigh.le, fun _ => ⟨hlow, hhigh⟩⟩

/-- Scaling keeps the start of an interval. -/
theorem scaled_low (hunit : 0 < i.unit) (k : Int) :
    ((i.scaled k).low : ℚ) / (i.scaled k).unit * 10 ^ k = i.low / i.unit := by
  -- The low end is scaled as the value is, so an interval that begins at its value tells.
  have hvalue := (scaled_spec (i := { i with value := i.low }) hunit k).2.1
  unfold scaled at hvalue ⊢
  split
  case isTrue hk =>
    rw [if_pos hk] at hvalue
    exact hvalue
  case isFalse hk =>
    rw [if_neg hk] at hvalue
    exact hvalue

/-- It keeps whether the interval is closed. -/
theorem scaled_closed (k : Int) : (i.scaled k).closed = i.closed := by
  unfold scaled
  split <;> rfl

/-- What lies in the interval in units of a power of ten lies in it times this power. -/
theorem Contains.of_scaled (hunit : 0 < i.unit) {k : Int} {q : ℚ} (h : (i.scaled k).Contains q) :
    i.Contains (q * 10 ^ k) := by
  have hpos : (0 : ℚ) < 10 ^ k := by positivity
  have hlow := scaled_low hunit k
  obtain ⟨-, -, hhigh⟩ := scaled_spec hunit k
  refine ⟨?_, ?_, fun hopen => ?_⟩
  · rw [← hlow]
    exact mul_le_mul_of_nonneg_right h.low hpos.le
  · rw [← hhigh]
    exact mul_le_mul_of_nonneg_right h.high hpos.le
  · obtain ⟨habove, hbelow⟩ := h.inside ((scaled_closed k).trans hopen)
    rw [← hlow, ← hhigh]
    exact ⟨mul_lt_mul_of_pos_right habove hpos, mul_lt_mul_of_pos_right hbelow hpos⟩

end Interval

/-- The shortest digits denote a number in the rounding interval. -/
theorem contains_shortest {x : Binary64} (h : x.shortest.digits ≠ 0) :
    x.interval.Contains x.shortest.size := by
  obtain ⟨hunit, -, -⟩ := interval_spec x
  rcases shortest_cases x with hnone | ⟨count, n, -, -, hn, heq⟩
  · rw [hnone] at h
    exact absurd rfl h
  · generalize leadingPlace x.interval.value x.interval.unit - (count - 1 : Nat) = k at *
    rw [heq, (Decimal.stripped_spec 17 ⟨n, k⟩).1]
    refine Interval.Contains.of_scaled hunit
      (Interval.contains_of_holds ?_ (Interval.hit?_spec hn).1)
    exact (Interval.scaled_spec hunit k).1

/-! ## What lies in the interval -/

/-- The interval begins half a last place below the value, or a quarter below a power of two. -/
theorem interval_low_eq (x : Binary64) : (x.interval.low : ℚ) / x.interval.unit =
    (4 * x.significand - (if x.significand = 2 ^ 52 && 1 < x.exponentField then 1 else 2) : ℕ) *
      2 ^ (x.exponent - 2) := by
  have hratio := asRatio_eq 1 (x.exponent - 2)
  rw [Nat.cast_one, one_mul] at hratio
  rw [← hratio, mul_div_assoc', ← Nat.cast_mul]
  rfl

section

variable {x : Binary64} {q : ℚ}

/-- Up to half a last place around the value. -/
theorem bounds_of_contains (hzero : x.isZero = false) (h : x.interval.Contains q) :
    ((x.significand : ℚ) - 1 / 2) * 2 ^ x.exponent ≤ q ∧
      q ≤ (x.significand + 1 / 2) * 2 ^ x.exponent ∧
      (x.significand % 2 = 1 → ((x.significand : ℚ) - 1 / 2) * 2 ^ x.exponent < q ∧
        q < (x.significand + 1 / 2) * 2 ^ x.exponent) := by
  have hpos := significand_pos hzero
  have hpower : (2 : ℚ) ^ x.exponent = 4 * 2 ^ (x.exponent - 2) := by
    rw [zpow_sub₀ (by norm_num)]
    norm_num
    ring
  have hscale : (0 : ℚ) < 2 ^ (x.exponent - 2) := by positivity
  have hhigh : (x.interval.high : ℚ) / x.interval.unit =
      (x.significand + 1 / 2) * 2 ^ x.exponent := by
    rw [(interval_spec x).2.2, hpower]
    push_cast
    ring
  have hlow :
      ((x.significand : ℚ) - 1 / 2) * 2 ^ x.exponent ≤ x.interval.low / x.interval.unit := by
    rw [interval_low_eq, hpower, ← mul_assoc]
    refine mul_le_mul_of_nonneg_right ?_ hscale.le
    rw [Nat.cast_sub (by split <;> omega)]
    split <;> push_cast <;> linarith
  rw [← hhigh]
  refine ⟨hlow.trans h.low, h.high, fun hodd => ?_⟩
  -- an odd significand does not reach its halfway points
  have hopen : x.interval.closed = false := by
    show (x.significand % 2 == 0) = false
    rw [hodd]
    rfl
  obtain ⟨habove, hbelow⟩ := h.inside hopen
  exact ⟨hlow.trans_lt habove, hbelow⟩

/-- Where the significand is full and its place is not the least one, the interval begins no more
than a half of the next lower place below the least full significand. -/
theorem start_of_contains (hnormal : 1 < x.exponentField) (hfull : 2 ^ 52 ≤ x.significand)
    (h : x.interval.Contains q) : ((2 ^ 53 : ℕ) - 1 / 2 : ℚ) * 2 ^ (x.exponent - 1) ≤ q := by
  have hpower : (2 : ℚ) ^ (x.exponent - 1) = 2 * 2 ^ (x.exponent - 2) := by
    rw [show x.exponent - 1 = x.exponent - 2 + 1 by ring, zpow_add_one₀ (by norm_num)]
    ring
  refine le_trans ?_ h.low
  rw [interval_low_eq, hpower, ← mul_assoc]
  refine mul_le_mul_of_nonneg_right ?_ (by positivity)
  -- the gap below a power of two is half as wide as the one above it
  have hnat : (2 ^ 54 - 1 : ℕ) ≤
      4 * x.significand - (if x.significand = 2 ^ 52 && 1 < x.exponentField then 1 else 2) := by
    simp only [hnormal, decide_true, Bool.and_true, decide_eq_true_eq]
    split <;> omega
  have hcast : ((2 ^ 54 - 1 : ℕ) : ℚ) ≤ (4 * x.significand -
      (if x.significand = 2 ^ 52 && 1 < x.exponentField then 1 else 2) : ℕ) := by
    exact_mod_cast hnat
  refine le_trans ?_ hcast
  norm_num

/-- What is in the interval and has another last place than the double lies just below a power of
two. -/
theorem lastPlace_of_contains {num den : Nat} (hzero : x.isZero = false) (hnum : 0 < num)
    (hden : 0 < den) (h : x.interval.Contains ((num : ℚ) / den)) :
    lastPlace num den = x.exponent ∨
      (lastPlace num den = x.exponent - 1 ∧ x.significand = 2 ^ 52 ∧
        ((2 ^ 53 : ℕ) - 1 / 2 : ℚ) * 2 ^ (x.exponent - 1) ≤ (num : ℚ) / den) := by
  obtain ⟨hlast, -, -⟩ := lastPlace_spec hnum hden
  obtain ⟨hbelow, habove, -⟩ := bounds_of_contains hzero h
  have hsig := significand_lt x
  have hleast : -1074 ≤ x.exponent := by
    unfold exponent
    omega
  -- A greater place is too great for the high end of the interval.
  have hle : lastPlace num den ≤ x.exponent := by
    refine lastPlace_le hnum hden hleast (habove.trans_lt ?_)
    have hcast : (x.significand : ℚ) + 1 ≤ (2 ^ 53 : ℕ) := by exact_mod_cast hsig
    refine mul_lt_mul_of_pos_right ?_ (by positivity)
    push_cast at hcast ⊢
    linarith
  rcases Int.lt_or_eq_of_le hle with hlt | heq
  case inr => exact .inl heq
  case inl =>
    -- A smaller place is too small for the low end, but where this is just below a power of two.
    have hnormal : 1 < x.exponentField := by
      unfold exponent at hlt hleast
      omega
    have hfull : 2 ^ 52 ≤ x.significand := by
      unfold significand
      rw [if_neg (by omega)]
      omega
    have hstart := start_of_contains hnormal hfull h
    have hplace : x.exponent - 1 ≤ lastPlace num den := by
      refine le_lastPlace hnum hden (le_trans ?_ hstart)
      refine mul_le_mul_of_nonneg_right ?_ (by positivity)
      norm_num
    refine .inr ⟨by omega, ?_, hstart⟩
    by_contra hne
    -- any other significand begins above the power of two
    have hcast : ((2 ^ 52 + 1 : ℕ) : ℚ) ≤ x.significand := by
      have hnat : 2 ^ 52 + 1 ≤ x.significand := by omega
      exact_mod_cast hnat
    have hgreater : x.exponent ≤ lastPlace num den := by
      refine le_lastPlace hnum hden (le_trans ?_ hbelow)
      refine mul_le_mul_of_nonneg_right ?_ (by positivity)
      push_cast at hcast ⊢
      linarith
    omega

/-- **What lies in the rounding interval of a double is rounded to it.** -/
theorem magnitude_ofRatio_of_contains (negative : Bool) {num den : Nat} (hx : x.isFinite = true)
    (hzero : x.isZero = false) (hden : 0 < den) (h : x.interval.Contains ((num : ℚ) / den)) :
    (ofRatio negative num den).magnitude = x.magnitude := by
  have htwo : (2 : ℚ) ≠ 0 := by norm_num
  have hfinite := (isFinite_iff x).1 hx
  have hmagnitude := magnitude_eq x
  have hleast : -1074 ≤ x.exponent := by
    unfold exponent
    omega
  have hnum : num ≠ 0 := by
    rintro rfl
    have hlow : (0 : ℚ) < (x.interval.low : ℚ) / x.interval.unit :=
      div_pos (by exact_mod_cast interval_low_pos hzero) (by exact_mod_cast (interval_spec x).1)
    have hle := h.low
    rw [Nat.cast_zero, zero_div] at hle
    exact absurd hlow (not_lt.2 hle)
  have hrounded : rounded num den = x.magnitude := by
    rw [rounded, if_neg hnum]
    rcases lastPlace_of_contains hzero (Nat.pos_of_ne_zero hnum) hden h with heq |
      ⟨heq, hsig, hstart⟩
    · -- at the place of the double its significand is the nearest one
      obtain ⟨a, b, hb, hplaces, hratio⟩ := exists_places_eq num hden x.exponent
      obtain ⟨hbelow, habove, hodd⟩ := bounds_of_contains hzero h
      have hpos : (0 : ℚ) < 2 ^ x.exponent := by positivity
      rw [hratio] at hbelow habove hodd
      rw [heq, hplaces, hmagnitude, roundHalfEven_eq_of_div hb (le_of_mul_le_mul_right hbelow hpos)
        (le_of_mul_le_mul_right habove hpos) fun h => ?_]
      exact ⟨lt_of_mul_lt_mul_right (hodd h).1 hpos.le, lt_of_mul_lt_mul_right (hodd h).2 hpos.le⟩
    · -- at the place below, the quotient is rounded up to all of fifty-three bits and a carry
      obtain ⟨a, b, hb, hplaces, hratio⟩ := exists_places_eq num hden (x.exponent - 1)
      obtain ⟨hlast, hupper, -⟩ := lastPlace_spec (Nat.pos_of_ne_zero hnum) hden
      have hpos : (0 : ℚ) < 2 ^ (x.exponent - 1) := by positivity
      rw [heq] at hlast
      rw [heq, add_comm _ (53 : Int), zpow_add₀ htwo] at hupper
      rw [hratio] at hstart hupper
      have hless : (a : ℚ) / b < 2 ^ (53 : Int) := lt_of_mul_lt_mul_right hupper hpos.le
      have hcarry : roundHalfEven a b = 2 ^ 53 := by
        refine roundHalfEven_eq_of_div hb (le_of_mul_le_mul_right hstart hpos) ?_ fun hodd => ?_
        · refine hless.le.trans ?_
          norm_num
        · exact absurd hodd (by decide)
      rw [heq, hplaces, hcarry, hmagnitude, hsig]
      omega
  rw [magnitude_ofRatio, hrounded, Nat.min_eq_left hfinite.le]

end

end Fleet.Binary64
