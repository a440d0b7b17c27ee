import Fleet.Proofs.Listing.Position
import Mathlib.Tactic.SplitIfs

/-!
# Comparing bytes and bits

Texts are compared by code points and doubles by the rank of their bits. Storage layers compare
texts byte by byte in UTF-8, and arithmetic units compare doubles as signed words of which the sign
has flipped all other bits. These are the same orders.

* A text comes before another one exactly if its bytes do (`SortValue.order_text_eq_lt`): the bytes
of a greater code point are greater at the first place where they differ (`utf8EncodeChar_lex`).
* The rank of a double is its folded word, read as a signed number (`Binary64.rank_eq_toInt_folded`).
-/

set_option autoImplicit false

namespace Fleet

/-! ## Texts -/

/-- The order of bytes one after the other. -/
abbrev BytesBefore : List UInt8 → List UInt8 → Prop := List.Lex fun a b => a.toNat < b.toNat

/-- What stands in front of both does not matter. -/
theorem BytesBefore.append_left (front : List UInt8) {us vs : List UInt8} (h : BytesBefore us vs) :
    BytesBefore (front ++ us) (front ++ vs) := by
  induction front with
  | nil => exact h
  | cons b front ih => exact .cons ih

/-- Whatever follows, the bytes of the smaller character come first. -/
theorem utf8EncodeChar_lex {c d : Char} (h : c.toNat < d.toNat) (us vs : List UInt8) :
    BytesBefore (String.utf8EncodeChar c ++ us) (String.utf8EncodeChar d ++ vs) := by
  have hcd : c.val.toNat < d.val.toNat := h
  have hd : d.val.toNat < 0x110000 := by
    rcases d.valid with h | h
    · exact Nat.lt_trans h (by decide)
    · exact h.2
  have hquotients (n : Nat) : n / 4096 = n / 64 / 64 ∧ n / 262144 = n / 64 / 64 / 64 := by omega
  simp only [String.utf8EncodeChar, hquotients]
  generalize c.val.toNat = v at hcd
  generalize d.val.toNat = w at hcd hd
  -- either the first byte tells the lengths apart, or the digits to base 64 are compared
  split_ifs <;>
    simp only [List.cons_append, List.nil_append, BytesBefore, List.cons_lex_cons_iff,
      ← UInt8.toNat_inj, UInt8.toNat_ofNat'] <;> omega

theorem toUtf8_eq_flatMap (s : String) : toUtf8 s = s.toList.flatMap String.utf8EncodeChar := by
  have hbytes : s.toByteArray = s.toList.utf8Encode := by
    rw [← String.toByteArray_ofList, String.ofList_toList]
  rw [toUtf8, String.toUTF8, hbytes, List.utf8Encode, List.data_toByteArray]

/-- Texts that come before one another do so in bytes. -/
theorem bytesBefore_flatMap {cs ds : List Char}
    (h : List.Lex (fun c d => c.toNat < d.toNat) cs ds) :
    BytesBefore (cs.flatMap String.utf8EncodeChar) (ds.flatMap String.utf8EncodeChar) := by
  induction h with
  | @nil d ds =>
    cases henc : String.utf8EncodeChar d with
    | nil =>
      have hlength := String.length_utf8EncodeChar d
      rw [henc] at hlength
      exact absurd hlength (Nat.ne_of_lt d.utf8Size_pos)
    | cons b bs =>
      rw [List.flatMap_cons, henc]
      exact .nil
  | @cons c cs ds _ ih => exact ih.append_left (String.utf8EncodeChar c)
  | @rel c cs d ds hcd => exact utf8EncodeChar_lex hcd _ _

/-- **Texts are compared as their bytes are.** -/
theorem bytesBefore_of_compare_eq_lt {s t : String} (h : compare s t = .lt) :
    BytesBefore (toUtf8 s) (toUtf8 t) := by
  rw [toUtf8_eq_flatMap, toUtf8_eq_flatMap]
  exact bytesBefore_flatMap (compareOfLessAndEq_eq_lt.1 h)

/-- **Texts are compared as their bytes are.** -/
theorem SortValue.order_text_eq_lt {s t : String} :
    order (.text s) (.text t) = .lt ↔ BytesBefore (toUtf8 s) (toUtf8 t) := by
  refine ⟨bytesBefore_of_compare_eq_lt, fun h => ?_⟩
  rcases hcompare : compare s t with _ | _ | _
  case lt => exact hcompare
  case eq =>
    obtain rfl : s = t := Std.LawfulEqOrd.eq_of_compare hcompare
    exact absurd h (List.lex_irrefl (fun b => Nat.lt_irrefl b.toNat) _)
  case gt =>
    have hswap : compare t s = .lt := by rw [Std.OrientedOrd.eq_swap, hcompare]; rfl
    exact absurd (bytesBefore_of_compare_eq_lt hswap) (List.lex_asymm (Nat.lt_asymm ·) h)

/-! ## Doubles -/

namespace Binary64

/-- The bits as a signed word, the others flipped where the sign bit is set. -/
def folded (x : Binary64) : Int64 :=
  let word := x.bits.toInt64
  word ^^^ ((word >>> 63).toUInt64 >>> 1).toInt64

theorem toBitVec_folded (x : Binary64) :
    x.folded.toBitVec = x.bits.toBitVec ^^^ x.bits.toBitVec.sshiftRight 63 >>> 1 := rfl

/-- To flip the bits under the highest one is to count from the other end. -/
theorem two_pow_add_xor {n k : Nat} (h : n < 2 ^ k) :
    (2 ^ k + n) ^^^ (2 ^ k - 1) = 2 ^ (k + 1) - (n + 1) := by
  have hn : n < 2 ^ (k + 1) := Nat.lt_trans h (Nat.pow_lt_pow_right (by decide) k.lt_succ_self)
  have hor : 2 ^ k + n = 2 ^ k ||| n := by simpa using Nat.two_pow_add_eq_or_of_lt h 1
  apply Nat.eq_of_testBit_eq
  intro i
  rw [Nat.testBit_xor, hor, Nat.testBit_or, Nat.testBit_two_pow_sub_one,
    Nat.testBit_two_pow_sub_succ hn, Nat.testBit_two_pow]
  by_cases hi : i < k
  · simp [hi, Nat.lt_succ_of_lt hi, Nat.ne_of_gt hi]
  · have hbit : n.testBit i = false :=
      Nat.testBit_lt_two_pow (Nat.lt_of_lt_of_le h (Nat.pow_le_pow_right (by decide) (by omega)))
    by_cases heq : k = i
    · subst heq
      simp [hbit]
    · simp [hi, hbit, heq, show ¬ i < k + 1 by omega]

/-- **Doubles are compared as their folded words are.** -/
theorem rank_eq_toInt_folded (x : Binary64) : x.rank = x.folded.toInt := by
  rw [rank, isNegative, Int64.toInt, toBitVec_folded, ← UInt64.toNat_toBitVec]
  generalize x.bits.toBitVec = b
  have hmsb : b.msb = decide (2 ^ 63 ≤ b.toNat) := b.msb_eq_decide
  by_cases h : 2 ^ 63 ≤ b.toNat
  · -- a sign bit that is set is shifted into all places
    obtain ⟨n, hn⟩ : ∃ n, b.toNat = 2 ^ 63 + n := ⟨b.toNat - 2 ^ 63, by omega⟩
    have hlt : n < 2 ^ 63 := by
      have hword := b.isLt
      omega
    have hshift : ~~~b >>> 63 = 0#64 := BitVec.eq_of_toNat_eq (by simp; omega)
    have hfolded : (b ^^^ ~~~(~~~b >>> 63) >>> 1).toNat = 2 ^ 64 - (n + 1) := by
      rw [hshift, BitVec.toNat_xor, hn]
      exact two_pow_add_xor hlt
    rw [BitVec.sshiftRight_eq_of_msb_true (by simpa [hmsb] using h), BitVec.toInt_eq_toNat_cond,
      hfolded, hn, if_pos (by simp), if_neg (by omega)]
    omega
  · have hshift : b >>> 63 = 0#64 := BitVec.eq_of_toNat_eq (by simp; omega)
    have hmsb : b.msb = false := by simpa [hmsb] using h
    rw [BitVec.sshiftRight_eq_of_msb_false hmsb, hshift, BitVec.zero_ushiftRight, BitVec.xor_zero,
      BitVec.toInt_eq_toNat_of_msb hmsb, if_neg (by simpa using h)]
    omega

end Binary64

end Fleet
