import Fleet.Proofs.Binary64.Exact
import Fleet.Proofs.Json.Double

/-!
# Doubles that are read as they were written

A reader scales the digits of a double by a power of ten, and both are doubles that may be rounded
before the result is. So the double that is read need not be the one that was written. It is the
same where digits and power are not rounded (`reread_of_isShort`): then what is rounded in the end
is the decimal number itself, and this lies in the rounding interval of the double that was written.
Up to fifteen digits and powers of ten up to the twenty-second are such numbers; ten elevenths, and
one times `10 ^ -23`, are read as something else.
-/

set_option autoImplicit false

namespace Fleet

namespace Binary64

open Json

/-- The digits as a reader finds them: a whole number has its zeros behind its digits and another
one behind its point. -/
def Decimal.written (d : Decimal) : Decimal :=
  let first : Int := (Text.decimal d.digits).length + d.exponent - 1
  if layout.least ≤ first ∧ first ≤ layout.greatest ∧ 0 ≤ d.exponent then ⟨d.whole * 10, -1⟩ else d

/-- Neither the digits of the double as a reader finds them nor the power of ten behind them are
rounded. -/
structure IsShort (x : Binary64) : Prop where
  pos : 0 < x.shortest.written.digits
  digits : x.shortest.written.digits ≤ 2 ^ 53
  exponent : x.shortest.written.exponent.natAbs ≤ 22

theorem Decimal.reread?_eq (d : Decimal) :
    d.reread? = scale? d.written.digits d.written.exponent := by
  unfold Decimal.reread? Decimal.written
  simp only
  split <;> rfl

theorem Decimal.size_written (d : Decimal) : d.written.size = d.size := by
  unfold Decimal.written
  simp only
  split
  case isTrue h =>
    rw [Decimal.size_eq_whole h.2.2, Decimal.size]
    push_cast
    rw [zpow_neg_one]
    field_simp
  case isFalse => rfl

theorem Decimal.digits_ne_zero_of_written {d : Decimal} (h : 0 < d.written.digits) :
    d.digits ≠ 0 := by
  intro hzero
  unfold Decimal.written Decimal.whole at h
  simp only [hzero] at h
  split at h <;> simp_all

/-! ## Scaling without rounding -/

theorem significand_pos_of_size {x : Binary64} (h : 0 < x.size) : 0 < x.significand := by
  refine Nat.pos_of_ne_zero fun hzero => ?_
  rw [size, hzero, Nat.cast_zero, zero_mul] at h
  exact lt_irrefl 0 h

theorem isZero_eq_false_of_size {x : Binary64} (h : 0 < x.size) : x.isZero = false := by
  by_contra hzero
  have hzero : x.magnitude = 0 := isZero_iff.1 (Bool.not_eq_false _ ▸ hzero)
  have hsig := significand_pos_of_size h
  rw [magnitude_eq] at hzero
  omega

/-- Digits and a power of ten that are not rounded are scaled to the double whose interval they lie
in. -/
theorem exists_scale?_of_contains {x : Binary64} (hx : x.isFinite = true) (hzero : x.isZero = false)
    {d : Decimal} (hpos : 0 < d.digits) (hdigits : d.digits ≤ 2 ^ 53)
    (hexp : d.exponent.natAbs ≤ 22) (h : x.interval.Contains d.size) :
    ∃ y, scale? d.digits d.exponent = some y ∧ y.magnitude = x.magnitude := by
  -- both factors are exact, so there is one rounding
  have hnat : (ofNat d.digits).size = d.digits := size_ofNat (representable_natCast hdigits)
  have hten : (tenTo d.exponent.natAbs).size = 10 ^ d.exponent.natAbs := size_tenTo hexp
  have hnatPos : 0 < (ofNat d.digits).size := by
    rw [hnat]
    exact_mod_cast hpos
  unfold scale?
  simp only
  by_cases hneg : d.exponent < 0
  · -- a negative power is one to divide by, in a single step
    have htenPos : 0 < (tenTo d.exponent.natAbs).size := by
      rw [hten]
      positivity
    obtain ⟨num, den, hden, heq, hratio⟩ :=
      exists_div_eq (ofNat d.digits) (significand_pos_of_size htenPos)
    have hsize : (num : ℚ) / den = d.size := by
      rw [hratio, hnat, hten, Decimal.size, div_eq_mul_inv, ← zpow_natCast, ← zpow_neg]
      congr 2
      omega
    rw [if_pos hneg, shrink, if_pos (by omega), heq]
    exact ⟨_, rfl, magnitude_ofRatio_of_contains _ hx hzero hden (hsize ▸ h)⟩
  · obtain ⟨num, den, hden, heq, hratio⟩ := exists_mul_eq (ofNat d.digits) (tenTo d.exponent.toNat)
    have hsize : (num : ℚ) / den = d.size := by
      rw [hratio, hnat, show d.exponent.toNat = d.exponent.natAbs by omega, hten, Decimal.size,
        ← zpow_natCast]
      congr 2
      omega
    have hmagnitude := magnitude_ofRatio_of_contains ((ofNat d.digits).isNegative !=
      (tenTo d.exponent.toNat).isNegative) hx hzero hden (hsize ▸ h)
    have hfinite : ((ofNat d.digits).mul (tenTo d.exponent.toNat)).isFinite = true := by
      rw [heq]
      exact isFinite_of_magnitude_le hmagnitude.le hx
    rw [if_neg hneg, if_neg (by rw [isZero_eq_false_of_size hnatPos]; exact Bool.false_ne_true),
      if_neg (by omega), if_pos hfinite, heq]
    exact ⟨_, rfl, hmagnitude⟩

/-! ## The result -/

/-- **Short doubles are read as they were written.** -/
theorem reread_of_isShort {x : Binary64} (hx : x.isFinite = true) (h : x.IsShort) :
    x.reread = x := by
  unfold reread
  cases hzero : x.isZero with
  | true => exact if_pos rfl
  | false =>
    have hcontains : x.interval.Contains x.shortest.written.size := by
      rw [Decimal.size_written]
      exact contains_shortest (Decimal.digits_ne_zero_of_written h.pos)
    obtain ⟨y, hy, hmagnitude⟩ :=
      exists_scale?_of_contains hx hzero h.pos h.digits h.exponent hcontains
    rw [if_neg Bool.false_ne_true, Decimal.reread?_eq, hy, Option.getD_some]
    exact withSign_isNegative hmagnitude

/-- Ten elevenths, rounded. -/
def tenElevenths : Binary64 := ⟨0x3fed1745d1745d17⟩

/-- The next double above ten elevenths. -/
def aboveTenElevenths : Binary64 := ⟨0x3fed1745d1745d18⟩

/-- Ten elevenths are written as `0.9090909090909091`, and are read as the next double, which is
written as `0.9090909090909092` and stays what it is. -/
theorem reread_tenElevenths :
    tenElevenths.reread = aboveTenElevenths ∧ aboveTenElevenths.reread = aboveTenElevenths := by
  decide +kernel

theorem iterate_reread_tenElevenths (n : Nat) :
    reread^[n + 1] tenElevenths = aboveTenElevenths := by
  obtain ⟨honce, hagain⟩ := reread_tenElevenths
  rw [Function.iterate_succ_apply, honce]
  exact Function.iterate_fixed hagain n

end Binary64

end Fleet
