import Fleet.Binary64.Rounding
import Mathlib.Algebra.Order.Field.Basic
import Mathlib.Algebra.Order.Field.Power
import Mathlib.Data.Nat.Log
import Mathlib.Data.Rat.Cast.Order
import Mathlib.Tactic.FieldSimp
import Mathlib.Tactic.Linarith
import Mathlib.Tactic.NormNum
import Mathlib.Tactic.Ring

/-!
# Rounding keeps the order

The bits of a double without its sign, taken as a number (`magnitude`), are in the order of the
doubles themselves, and rounding to a double keeps the order of what is rounded
(`magnitude_ofRatio_le`). So whoever has seen that one product is not too large for a double has seen
it of every product of smaller factors (`magnitude_mul_le`, `isFinite_of_magnitude_le`).

The argument goes by the exponent of the last significand bit. Between two quotients with the same
last place the order is that of their significands, rounded (`roundHalfEven_mono`). Of two different
last places the greater one has the greater quotient, and the gap between them leaves room for the
carry of a significand that is rounded up to the next power of two.
-/

set_option autoImplicit false

namespace Fleet.Binary64

/-! ## Magnitudes -/

/-- The bits of a number without its sign. -/
def magnitude (x : Binary64) : Nat := x.bits.toNat % 2 ^ 63

/-- What a finite number is without its sign. -/
def size (x : Binary64) : ℚ := x.significand * (2 : ℚ) ^ x.exponent

/-- The exponent is what stands above the fraction. -/
theorem exponentField_eq (x : Binary64) : x.exponentField = x.magnitude / 2 ^ 52 := by
  unfold exponentField magnitude
  omega

/-- The fraction is the last fifty-two bits. -/
theorem fractionField_eq (x : Binary64) : x.fractionField = x.magnitude % 2 ^ 52 := by
  unfold fractionField magnitude
  omega

/-- The finite floats are those below infinity. -/
theorem isFinite_iff (x : Binary64) : x.isFinite = true ↔ x.magnitude < 2047 * 2 ^ 52 := by
  have hlt : x.magnitude < 2 ^ 63 := Nat.mod_lt _ (by decide)
  rw [isFinite, bne_iff_ne, exponentField_eq]
  omega

/-- A significand has fifty-three bits. -/
theorem significand_lt (x : Binary64) : x.significand < 2 ^ 53 := by
  have hlt : x.fractionField < 2 ^ 52 := Nat.mod_lt _ (by decide)
  unfold significand
  split <;> omega

/-- Sizes are not negative. -/
theorem size_nonneg (x : Binary64) : 0 ≤ x.size := by
  unfold size
  positivity

/-- The order of the magnitudes is that of the numbers. -/
theorem size_le_of_magnitude_le {x y : Binary64} (h : x.magnitude ≤ y.magnitude) :
    x.size ≤ y.size := by
  have hx := Nat.div_add_mod x.magnitude (2 ^ 52)
  have hy := Nat.div_add_mod y.magnitude (2 ^ 52)
  rw [← exponentField_eq, ← fractionField_eq] at hx hy
  have hfx : x.fractionField < 2 ^ 52 := Nat.mod_lt _ (by decide)
  have hfy : y.fractionField < 2 ^ 52 := Nat.mod_lt _ (by decide)
  by_cases hexp : max x.exponentField 1 = max y.exponentField 1
  · -- Both have the same last place, so the significands decide.
    have hsig : x.significand ≤ y.significand := by
      unfold significand
      split <;> split <;> omega
    have hplace : x.exponent = y.exponent := by
      unfold exponent
      rw [hexp]
    unfold size
    rw [hplace]
    gcongr
  · -- Otherwise `y` is a normal number at a greater last place.
    have hlt : x.exponent + 1 ≤ y.exponent := by
      unfold exponent
      omega
    have hsig : 2 ^ 52 ≤ y.significand := by
      unfold significand
      rw [if_neg (by omega)]
      omega
    have hx53 : x.significand ≤ 2 ^ 53 := Nat.le_of_lt (significand_lt x)
    calc x.size = (x.significand : ℚ) * 2 ^ x.exponent := rfl
      _ ≤ ((2 ^ 53 : ℕ) : ℚ) * 2 ^ x.exponent := by gcongr
      _ = ((2 ^ 52 : ℕ) : ℚ) * 2 ^ (x.exponent + 1) := by
          rw [zpow_add_one₀ (by norm_num)]
          push_cast
          ring
      _ ≤ ((2 ^ 52 : ℕ) : ℚ) * 2 ^ y.exponent := by
          gcongr
          norm_num
      _ ≤ (y.significand : ℚ) * 2 ^ y.exponent := by gcongr

/-! ## Rounding to a whole number -/

/-- Rounding does not go below the whole part. -/
theorem div_le_roundHalfEven (a b : Nat) : a / b ≤ roundHalfEven a b := by
  unfold roundHalfEven
  simp only
  split
  · exact Nat.le_refl _
  · split <;> omega

/-- It goes above it by one at most. -/
theorem roundHalfEven_le (a b : Nat) : roundHalfEven a b ≤ a / b + 1 := by
  unfold roundHalfEven
  simp only
  split
  · exact Nat.le_succ _
  · split <;> omega

/-- Rounding is monotone. -/
theorem roundHalfEven_mono {a b c d : Nat} (hb : 0 < b) (hd : 0 < d) (h : a * d ≤ c * b) :
    roundHalfEven a b ≤ roundHalfEven c d := by
  have hfloor : a / b ≤ c / d := by
    rw [Nat.le_div_iff_mul_le hd]
    refine Nat.le_of_mul_le_mul_right ?_ hb
    calc a / b * d * b = a / b * b * d := by ring
      _ ≤ a * d := Nat.mul_le_mul_right d (Nat.div_mul_le_self a b)
      _ ≤ c * b := h
  by_cases hlt : a / b < c / d
  · exact (roundHalfEven_le a b).trans (Nat.le_trans hlt (div_le_roundHalfEven c d))
  · -- Both lie between the same two whole numbers, and the rests are in order.
    have heq : a / b = c / d := Nat.le_antisymm hfloor (Nat.not_lt.1 hlt)
    have hrest : a % b * d ≤ c % d * b := by
      have ha := Nat.div_add_mod a b
      have hc := Nat.div_add_mod c d
      rw [← heq] at hc
      have hmul : b * (a / b) * d + a % b * d ≤ d * (a / b) * b + c % d * b := by
        rw [← Nat.add_mul, ha, ← Nat.add_mul, hc]
        exact h
      have hcomm : b * (a / b) * d = d * (a / b) * b := by ring
      omega
    unfold roundHalfEven
    simp only [heq]
    split
    case isTrue hdown =>
      split
      · exact Nat.le_refl _
      · split <;> omega
    case isFalse hdown =>
      -- the smaller quotient is not rounded down, and the greater one is even less so
      have hup : d ≤ 2 * (c % d) := by
        refine Nat.le_of_mul_le_mul_right ?_ hb
        calc d * b = b * d := Nat.mul_comm d b
          _ ≤ 2 * (a % b) * d := Nat.mul_le_mul_right d (Nat.not_lt.1 hdown)
          _ = 2 * (a % b * d) := Nat.mul_assoc 2 _ d
          _ ≤ 2 * (c % d * b) := Nat.mul_le_mul_left 2 hrest
          _ = 2 * (c % d) * b := (Nat.mul_assoc 2 _ b).symm
      rw [if_neg (Nat.not_lt.2 hup)]
      split
      case isTrue habove =>
        have hup : d < 2 * (c % d) := by
          refine Nat.lt_of_mul_lt_mul_right (a := b) ?_
          calc d * b = b * d := Nat.mul_comm d b
            _ < 2 * (a % b) * d := Nat.mul_lt_mul_of_pos_right habove hd
            _ = 2 * (a % b * d) := Nat.mul_assoc 2 _ d
            _ ≤ 2 * (c % d * b) := Nat.mul_le_mul_left 2 hrest
            _ = 2 * (c % d) * b := (Nat.mul_assoc 2 _ b).symm
        rw [if_pos hup]
      case isFalse => split <;> omega

/-! ## The last place -/

/-- Both lengths of a quotient, in bits, tell its own within one bit. -/
theorem log2_bounds {num den : Nat} (hnum : 0 < num) (hden : 0 < den) :
    (2 : ℚ) ^ ((num.log2 : Int) - den.log2 - 1) ≤ (num : ℚ) / den ∧
      (num : ℚ) / den < 2 ^ ((num.log2 : Int) - den.log2 + 1) := by
  -- each of the numbers lies between two powers of two
  have hnum₁ : ((2 ^ num.log2 : ℕ) : ℚ) ≤ num := by
    exact_mod_cast Nat.log2_self_le hnum.ne'
  have hnum₂ : (num : ℚ) < ((2 ^ (num.log2 + 1) : ℕ) : ℚ) := by
    exact_mod_cast Nat.lt_log2_self
  have hden₁ : ((2 ^ den.log2 : ℕ) : ℚ) ≤ den := by
    exact_mod_cast Nat.log2_self_le hden.ne'
  have hden₂ : (den : ℚ) < ((2 ^ (den.log2 + 1) : ℕ) : ℚ) := by
    exact_mod_cast Nat.lt_log2_self
  have hpos : (0 : ℚ) < den := by exact_mod_cast hden
  push_cast at hnum₁ hnum₂ hden₁ hden₂
  have htwo : (2 : ℚ) ≠ 0 := by norm_num
  constructor
  · rw [le_div_iff₀ hpos]
    calc (2 : ℚ) ^ ((num.log2 : Int) - den.log2 - 1) * den
        ≤ 2 ^ ((num.log2 : Int) - den.log2 - 1) * 2 ^ (den.log2 + 1) := by gcongr
      _ = 2 ^ num.log2 := by
          rw [← zpow_natCast, ← zpow_natCast, ← zpow_add₀ htwo]
          congr 1
          push_cast
          ring
      _ ≤ num := hnum₁
  · rw [div_lt_iff₀ hpos]
    calc (num : ℚ) < 2 ^ (num.log2 + 1) := hnum₂
      _ = 2 ^ ((num.log2 : Int) - den.log2 + 1) * 2 ^ den.log2 := by
          rw [← zpow_natCast, ← zpow_natCast, ← zpow_add₀ htwo]
          congr 1
          push_cast
          ring
      _ ≤ 2 ^ ((num.log2 : Int) - den.log2 + 1) * den := by gcongr

/-- A quotient is compared with a power of either sign by multiplying the power into one of its
sides. -/
theorem div_lt_zpow_iff {num den base : Nat} (hden : 0 < den) (hbase : 0 < base) (e : Int) :
    (num : ℚ) / den < (base : ℚ) ^ e ↔
      if e ≥ 0 then num < den * base ^ e.toNat else num * base ^ (-e).toNat < den := by
  have hpos : (0 : ℚ) < den := by exact_mod_cast hden
  have hpos' : (0 : ℚ) < base := by exact_mod_cast hbase
  rw [div_lt_iff₀ hpos]
  split
  case isTrue he =>
    obtain ⟨n, rfl⟩ := Int.eq_ofNat_of_zero_le he
    rw [Int.toNat_natCast, zpow_natCast, mul_comm]
    norm_cast
  case isFalse he =>
    -- a negative power stands on the other side
    obtain ⟨n, hn⟩ := Int.eq_ofNat_of_zero_le (show 0 ≤ -e by omega)
    obtain rfl : e = -(n : Int) := by omega
    rw [neg_neg, Int.toNat_natCast, zpow_neg, zpow_natCast, inv_mul_eq_div,
      lt_div_iff₀ (by positivity)]
    norm_cast

/-- The last place fits the quotient: fifty-three bits above it hold the quotient, and fifty-two do
not, unless the place is the least one. -/
theorem lastPlace_spec {num den : Nat} (hnum : 0 < num) (hden : 0 < den) :
    -1074 ≤ lastPlace num den ∧ (num : ℚ) / den < 2 ^ (lastPlace num den + 53) ∧
      (lastPlace num den = -1074 ∨ 2 ^ (lastPlace num den + 52) ≤ (num : ℚ) / den) := by
  obtain ⟨hlow, hhigh⟩ := log2_bounds hnum hden
  have hone : (1 : ℚ) ≤ 2 := by norm_num
  unfold lastPlace
  simp only [← div_lt_zpow_iff hden Nat.two_pos]
  refine ⟨le_max_left _ _, ?_, ?_⟩
  · split
    case isTrue hlt =>
      exact hlt.trans_le (zpow_le_zpow_right₀ hone (by omega))
    case isFalse =>
      exact hhigh.trans_le (zpow_le_zpow_right₀ hone (by omega))
  · -- either the least place is taken, or the guessed one, which the lengths bear out
    split
    case isTrue =>
      by_cases hle : (num.log2 : Int) - den.log2 - 53 ≤ -1074
      · exact .inl (max_eq_left hle)
      · refine .inr ((zpow_le_zpow_right₀ hone ?_).trans hlow)
        omega
    case isFalse hnot =>
      by_cases hle : (num.log2 : Int) - den.log2 - 53 + 1 ≤ -1074
      · exact .inl (max_eq_left hle)
      · refine .inr ((zpow_le_zpow_right₀ hone ?_).trans (not_lt.1 hnot))
        omega

/-- The significand of a quotient at a last place. -/
def places (num den : Nat) (place : Int) : Nat :=
  if place ≥ 0 then roundHalfEven num (den * 2 ^ place.toNat)
  else roundHalfEven (num * 2 ^ (-place).toNat) den

/-- The significand is the quotient in units of the last place, rounded. -/
theorem exists_places_eq (num : Nat) {den : Nat} (hden : 0 < den) (place : Int) :
    ∃ a b, 0 < b ∧ places num den place = roundHalfEven a b ∧
      (num : ℚ) / den = (a : ℚ) / b * 2 ^ place := by
  have hpos : (den : ℚ) ≠ 0 := by exact_mod_cast hden.ne'
  unfold places
  split
  -- a place above the point goes into the denominator, one below it into the numerator
  case isTrue hplace =>
    obtain ⟨n, rfl⟩ := Int.eq_ofNat_of_zero_le hplace
    refine ⟨num, den * 2 ^ n, Nat.mul_pos hden (Nat.two_pow_pos n), by rw [Int.toNat_natCast], ?_⟩
    push_cast
    rw [zpow_natCast]
    field_simp
  case isFalse hplace =>
    obtain ⟨n, hn⟩ := Int.eq_ofNat_of_zero_le (show 0 ≤ -place by omega)
    obtain rfl : place = -(n : Int) := by omega
    refine ⟨num * 2 ^ n, den, hden, by rw [neg_neg, Int.toNat_natCast], ?_⟩
    push_cast
    rw [zpow_neg, zpow_natCast]
    field_simp

/-- At one place rounding is monotone in the quotient. -/
theorem places_mono {num den num' den' : Nat} (hden : 0 < den) (hden' : 0 < den') {place : Int}
    (h : (num : ℚ) / den ≤ (num' : ℚ) / den') : places num den place ≤ places num' den' place := by
  obtain ⟨a, b, hb, hplaces, hratio⟩ := exists_places_eq num hden place
  obtain ⟨a', b', hb', hplaces', hratio'⟩ := exists_places_eq num' hden' place
  rw [hratio, hratio'] at h
  have hle : (a : ℚ) / b ≤ a' / b' := le_of_mul_le_mul_right h (by positivity)
  rw [hplaces, hplaces']
  refine roundHalfEven_mono hb hb' ?_
  rw [div_le_div_iff₀ (by exact_mod_cast hb) (by exact_mod_cast hb')] at hle
  exact_mod_cast hle

/-- A quotient below the greatest significand is rounded to fifty-three bits, or to the power above
them. -/
theorem places_le {num den : Nat} (hden : 0 < den) {place : Int}
    (h : (num : ℚ) / den < 2 ^ (place + 53)) : places num den place ≤ 2 ^ 53 := by
  obtain ⟨a, b, hb, hplaces, hratio⟩ := exists_places_eq num hden place
  rw [hratio, add_comm, zpow_add₀ (by norm_num)] at h
  have hlt : (a : ℚ) / b < 2 ^ (53 : Int) := lt_of_mul_lt_mul_right h (by positivity)
  have hfloor : a / b < 2 ^ 53 := by
    rw [Nat.div_lt_iff_lt_mul hb]
    rw [div_lt_iff₀ (by exact_mod_cast hb)] at hlt
    exact_mod_cast hlt
  rw [hplaces]
  exact (roundHalfEven_le a b).trans hfloor

/-- A quotient that fills its place is rounded to a full significand. -/
theorem le_places {num den : Nat} (hden : 0 < den) {place : Int}
    (h : 2 ^ (place + 52) ≤ (num : ℚ) / den) : 2 ^ 52 ≤ places num den place := by
  obtain ⟨a, b, hb, hplaces, hratio⟩ := exists_places_eq num hden place
  rw [hratio, add_comm, zpow_add₀ (by norm_num)] at h
  have hle : 2 ^ (52 : Int) ≤ (a : ℚ) / b := le_of_mul_le_mul_right h (by positivity)
  have hfloor : 2 ^ 52 ≤ a / b := by
    rw [Nat.le_div_iff_mul_le hb]
    rw [le_div_iff₀ (by exact_mod_cast hb)] at hle
    exact_mod_cast hle
  rw [hplaces]
  exact hfloor.trans (div_le_roundHalfEven a b)

/-! ## Rounding to a double -/

/-- The magnitude of the double nearest to a quotient, were there no greatest double. -/
def rounded (num den : Nat) : Nat :=
  if num = 0 then 0
  else (lastPlace num den + 1074).toNat * 2 ^ 52 + places num den (lastPlace num den)

/-- Of two quotients the greater one is rounded to a greater magnitude, or the same. -/
theorem rounded_mono {num den num' den' : Nat} (hden : 0 < den) (hden' : 0 < den')
    (h : (num : ℚ) / den ≤ (num' : ℚ) / den') : rounded num den ≤ rounded num' den' := by
  have hone : (1 : ℚ) < 2 := by norm_num
  unfold rounded
  by_cases hzero : num = 0
  · rw [if_pos hzero]
    exact Nat.zero_le _
  · have hnum : 0 < num := Nat.pos_of_ne_zero hzero
    have hpos : (0 : ℚ) < (num : ℚ) / den :=
      div_pos (by exact_mod_cast hnum) (by exact_mod_cast hden)
    -- nothing but zero is rounded to zero at its place
    have hnum' : 0 < num' := by
      refine Nat.pos_of_ne_zero fun heq => ?_
      rw [heq, Nat.cast_zero, zero_div] at h
      exact absurd h (not_le.2 hpos)
    rw [if_neg hzero, if_neg hnum'.ne']
    obtain ⟨hleast, hupper, -⟩ := lastPlace_spec hnum hden
    obtain ⟨hleast', hupper', hlower'⟩ := lastPlace_spec hnum' hden'
    rcases lt_trichotomy (lastPlace num den) (lastPlace num' den') with hlt | heq | hgt
    · -- The gap between the places makes up for a carry at the lower one.
      have hnormal : lastPlace num' den' ≠ -1074 := by omega
      have hsmall := places_le hden hupper
      have hlarge := le_places hden' (hlower'.resolve_left hnormal)
      have hgap : (lastPlace num den + 1074).toNat + 1 ≤ (lastPlace num' den' + 1074).toNat := by
        omega
      have hmul := Nat.mul_le_mul_right (2 ^ 52) hgap
      omega
    · rw [heq]
      exact Nat.add_le_add_left (places_mono hden hden' h) _
    · -- a greater place would make the smaller quotient the greater one
      obtain ⟨-, -, hlower⟩ := lastPlace_spec hnum hden
      have hnormal : lastPlace num den ≠ -1074 := by omega
      have hcontra : (2 : ℚ) ^ (lastPlace num den + 52) < 2 ^ (lastPlace num' den' + 53) :=
        (hlower.resolve_left hnormal).trans_lt (h.trans_lt hupper')
      rw [zpow_lt_zpow_iff_right₀ hone] at hcontra
      omega

/-- The sign does not matter to the magnitude. -/
@[simp] theorem magnitude_withSign (negative : Bool) (x : Binary64) :
    (x.withSign negative).magnitude = x.magnitude := by
  have hlt : x.bits.toNat % 2 ^ 63 < 2 ^ 63 := Nat.mod_lt _ (by decide)
  unfold magnitude withSign
  rw [UInt64.toNat_ofNat']
  cases negative
  · rw [if_neg Bool.false_ne_true]
    omega
  · rw [if_pos rfl]
    omega

/-- The magnitude of a rounded quotient, cut off at infinity. -/
theorem magnitude_ofRatio (negative : Bool) (num den : Nat) :
    (ofRatio negative num den).magnitude = min (rounded num den) (2047 * 2 ^ 52) := by
  have hinfinity : infinity.magnitude = 2047 * 2 ^ 52 := by decide
  unfold ofRatio rounded
  by_cases hzero : num = 0
  · rw [if_pos hzero, if_pos hzero, magnitude_withSign]
    decide
  · rw [if_neg hzero, if_neg hzero]
    simp only [magnitude_withSign]
    show Binary64.magnitude (if _ + places num den (lastPlace num den) < _ then _ else _) = _
    split
    case isTrue hlt =>
      have hlt : (lastPlace num den + 1074).toNat * 2 ^ 52 +
          places num den (lastPlace num den) < 2047 * 2 ^ 52 := hlt
      rw [Nat.min_eq_left (Nat.le_of_lt hlt), magnitude]
      show (UInt64.ofNat ((lastPlace num den + 1074).toNat * 2 ^ 52 +
        places num den (lastPlace num den))).toNat % 2 ^ 63 = _
      -- the bits below the sign are enough
      rw [UInt64.toNat_ofNat']
      omega
    case isFalse hge =>
      have hge : ¬ (lastPlace num den + 1074).toNat * 2 ^ 52 +
          places num den (lastPlace num den) < 2047 * 2 ^ 52 := hge
      rw [Nat.min_eq_right (Nat.not_lt.1 hge), hinfinity]

/-- **Rounding keeps the order.** -/
theorem magnitude_ofRatio_le (negative negative' : Bool) {num den num' den' : Nat} (hden : 0 < den)
    (hden' : 0 < den') (h : (num : ℚ) / den ≤ (num' : ℚ) / den') :
    (ofRatio negative num den).magnitude ≤ (ofRatio negative' num' den').magnitude := by
  have hmono := rounded_mono hden hden' h
  rw [magnitude_ofRatio, magnitude_ofRatio]
  omega

/-- Whatever is no greater than a finite float is finite. -/
theorem isFinite_of_magnitude_le {x y : Binary64} (h : x.magnitude ≤ y.magnitude)
    (hy : y.isFinite = true) : x.isFinite = true :=
  (isFinite_iff x).2 (h.trans_lt ((isFinite_iff y).1 hy))

/-! ## Products and quotients -/

/-- The denominator of a ratio is positive. -/
theorem asRatio_pos (m : Nat) (e : Int) : 0 < (asRatio m e).2 := by
  unfold asRatio
  split
  · exact Nat.one_pos
  · exact Nat.two_pow_pos _

/-- A significand at its place is the ratio that stands for it. -/
theorem asRatio_eq (m : Nat) (e : Int) :
    ((asRatio m e).1 : ℚ) / (asRatio m e).2 = m * 2 ^ e := by
  unfold asRatio
  split
  case isTrue he =>
    obtain ⟨n, rfl⟩ := Int.eq_ofNat_of_zero_le he
    rw [Int.toNat_natCast, zpow_natCast]
    push_cast
    rw [div_one]
  case isFalse he =>
    obtain ⟨n, hn⟩ := Int.eq_ofNat_of_zero_le (show 0 ≤ -e by omega)
    obtain rfl : e = -(n : Int) := by omega
    rw [neg_neg, Int.toNat_natCast, zpow_neg, zpow_natCast]
    push_cast
    rw [div_eq_mul_inv]

/-- A product of smaller factors is not greater. -/
theorem magnitude_mul_le {x y x' y' : Binary64} (hx : x.magnitude ≤ x'.magnitude)
    (hy : y.magnitude ≤ y'.magnitude) : (x.mul y).magnitude ≤ (x'.mul y').magnitude := by
  refine magnitude_ofRatio_le _ _ (asRatio_pos _ _) (asRatio_pos _ _) ?_
  have hsplit (x y : Binary64) : ((x.significand * y.significand : ℕ) : ℚ) *
      2 ^ (x.exponent + y.exponent) = x.size * y.size := by
    unfold size
    rw [zpow_add₀ (by norm_num)]
    push_cast
    ring
  rw [asRatio_eq, asRatio_eq, hsplit, hsplit]
  have hx' := size_nonneg x'
  have hy' := size_nonneg y
  have hsize := size_le_of_magnitude_le hx
  have hsize' := size_le_of_magnitude_le hy
  gcongr

/-- Of a smaller whole number the nearest double is not greater. -/
theorem magnitude_ofNat_le {m n : Nat} (h : m ≤ n) :
    (ofNat m).magnitude ≤ (ofNat n).magnitude := by
  refine magnitude_ofRatio_le _ _ Nat.one_pos Nat.one_pos ?_
  have hle : (m : ℚ) ≤ n := by exact_mod_cast h
  gcongr

/-- Powers of ten grow with the exponent. -/
theorem magnitude_tenTo_le {m n : Nat} (h : m ≤ n) :
    (tenTo m).magnitude ≤ (tenTo n).magnitude :=
  magnitude_ofNat_le (Nat.pow_le_pow_right (by decide) h)

/-- A power of ten is at least one. -/
theorem one_le_size_tenTo (n : Nat) : 1 ≤ (tenTo n).size := by
  have hone : (tenTo 0).size = 1 := by
    have hsig : (tenTo 0).significand = 2 ^ 52 := by decide
    have hexp : (tenTo 0).exponent = -52 := by decide
    rw [size, hsig, hexp]
    norm_num
  rw [← hone]
  exact size_le_of_magnitude_le (magnitude_tenTo_le (Nat.zero_le n))

/-- A quotient by one or more is not above a whole number that the dividend is not above. -/
theorem magnitude_div_le_ofNat {x y : Binary64} {n : Nat} (hy : 1 ≤ y.size) (hx : x.size ≤ n) :
    (x.div y).magnitude ≤ (ofNat n).magnitude := by
  have hpos : 0 < y.significand := by
    refine Nat.pos_of_ne_zero fun hzero => ?_
    rw [size, hzero, Nat.cast_zero, zero_mul] at hy
    exact absurd hy (by norm_num)
  -- the ratio that is rounded is that of the sizes
  have hsplit : ((x.significand * (asRatio 1 (x.exponent - y.exponent)).1 : ℕ) : ℚ) /
      (y.significand * (asRatio 1 (x.exponent - y.exponent)).2 : ℕ) = x.size / y.size := by
    have hratio := asRatio_eq 1 (x.exponent - y.exponent)
    rw [Nat.cast_one, one_mul, zpow_sub₀ (by norm_num)] at hratio
    rw [Nat.cast_mul, Nat.cast_mul, mul_div_mul_comm, hratio, ← mul_div_mul_comm]
    rfl
  refine magnitude_ofRatio_le _ _ (Nat.mul_pos hpos (asRatio_pos _ _)) Nat.one_pos ?_
  rw [hsplit, Nat.cast_one, div_one]
  calc x.size / y.size ≤ x.size := div_le_self (size_nonneg x) hy
    _ ≤ n := hx

end Fleet.Binary64
