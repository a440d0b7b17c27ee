import Fleet.Proofs.Listing.Position
import Mathlib.Algebra.Group.Nat.Even
import Mathlib.Data.List.Induction
import Mathlib.Data.List.TakeWhile

/-!
# Cursors as a code for places

A cursor comes back from a caller, who may have written it by hand. `Position.IsCursor` says which
texts are cursors, without a word about reading: any text but the empty one if the listing is sorted
by key, and otherwise two hexadecimal texts of whole bytes on both sides of the first dash.

* Every place with a key is read back from its cursor (`Position.decode?_encode`).
* A text is read exactly if it is a cursor (`Position.isSome_decode?_iff`), so a listing refuses
  every other one.
* A text that is read is the cursor of what it is read as, up to the case of its hexadecimal digits
  (`Position.encode_of_decode?`). So the code has no two texts for one place that differ in more than
  that.
-/

set_option autoImplicit false

namespace Fleet

/-! ## Hexadecimal text of either case -/

namespace Text.Hex

/-- A hexadecimal digit of either case. -/
def IsDigit (c : Char) : Prop :=
  '0' ≤ c ∧ c ≤ '9' ∨ 'a' ≤ c ∧ c ≤ 'f' ∨ 'A' ≤ c ∧ c ≤ 'F'

instance (c : Char) : Decidable (IsDigit c) := inferInstanceAs (Decidable (_ ∨ _))

/-- Hexadecimal digits that come in pairs. -/
structure Paired (cs : List Char) : Prop where
  even : Even cs.length
  digits : ∀ c ∈ cs, IsDigit c

/-- A character has a value exactly if it is a hexadecimal digit, in either case. -/
theorem isSome_value?_iff (c : Char) : (value? c).isSome ↔ IsDigit c := by
  simp only [value?, IsDigit, Bool.and_eq_true, decide_eq_true_eq]
  split_ifs <;> simp_all

private theorem value?_of_range :
    ∀ n ∈ List.range 128, (value? (Char.ofNat n)).all fun v =>
      v < 16 && (Char.ofNat n).toLower == digit v := by
  decide +kernel

/-- A digit is the one that is written for its value, but for its case. -/
theorem toLower_of_value? {c : Char} {v : Nat} (h : value? c = some v) :
    v < 16 ∧ c.toLower = digit v := by
  have hdigit : IsDigit c := (isSome_value?_iff c).1 (by rw [h]; rfl)
  have hlt : c.toNat < 128 := by
    rcases hdigit with hd | hd | hd <;>
      exact Nat.lt_of_le_of_lt (show c.toNat ≤ _ from hd.2) (by decide)
  have hrange := value?_of_range c.toNat (List.mem_range.2 hlt)
  rw [Char.ofNat_toNat, h] at hrange
  simpa using hrange

/-- Bytes are read exactly from digits in pairs. -/
theorem isSome_decode?_iff (cs : List Char) : (decode? cs).isSome ↔ Paired cs := by
  induction cs using decode?.induct with
  | case1 => exact iff_of_true rfl ⟨Even.zero, by simp⟩
  | case2 c =>
    refine iff_of_false (by simp [decode?]) fun h => ?_
    exact absurd h.even (by simp)
  | case3 high low rest h l bs hbs hl hh ih =>
    have hrest : Paired rest := ih.1 (by rw [hbs]; rfl)
    have hhigh : IsDigit high := (isSome_value?_iff high).1 (by rw [hh]; rfl)
    have hlow : IsDigit low := (isSome_value?_iff low).1 (by rw [hl]; rfl)
    refine iff_of_true (by simp [decode?, hh, hl, hbs]) ⟨?_, ?_⟩
    · simpa [Nat.even_add] using hrest.even
    · simpa [hhigh, hlow] using hrest.digits
  | case4 high low rest hnone ih =>
    refine iff_of_false ?_ fun hpaired => ?_
    · rw [decode?]
      split
      · exact absurd ‹decode? rest = some _› (hnone _ _ _ ‹_› ‹_›)
      · simp
    -- digits in pairs would have been read
    · obtain ⟨h, hh⟩ := Option.isSome_iff_exists.1
        ((isSome_value?_iff high).2 (hpaired.digits high (by simp)))
      obtain ⟨l, hl⟩ := Option.isSome_iff_exists.1
        ((isSome_value?_iff low).2 (hpaired.digits low (by simp)))
      have hrest : Paired rest :=
        ⟨by simpa [Nat.even_add] using hpaired.even, fun c hc => hpaired.digits c (by simp [hc])⟩
      obtain ⟨bs, hbs⟩ := Option.isSome_iff_exists.1 (ih.2 hrest)
      exact hnone h l bs hh hl hbs

/-- What is read from digits is written in the same digits in lower case. -/
theorem encode_of_decode? {cs : List Char} {bytes : List UInt8} (h : decode? cs = some bytes) :
    encode bytes = cs.map Char.toLower := by
  induction cs using decode?.induct generalizing bytes with
  | case1 =>
    cases h
    rfl
  | case2 c => cases h
  | case3 high low rest h' l bs hbs hl hh ih =>
    have hbytes : UInt8.ofNat (h' * 16 + l) :: bs = bytes := by
      simpa [decode?, hh, hl, hbs] using h
    subst hbytes
    -- two digits are one byte, and the byte is written with their lower-case forms
    obtain ⟨hh', hhigh⟩ := toLower_of_value? hh
    obtain ⟨hl', hlow⟩ := toLower_of_value? hl
    have hbyte : (UInt8.ofNat (h' * 16 + l)).toNat = h' * 16 + l := by
      rw [UInt8.toNat_ofNat']
      omega
    have hdiv : (h' * 16 + l) / 16 = h' := by omega
    have hmod : (h' * 16 + l) % 16 = l := by omega
    rw [encode, hbyte, hdiv, hmod, ih hbs, List.map_cons, List.map_cons, hhigh, hlow]
  | case4 high low rest hnone ih =>
    rw [decode?] at h
    split at h
    · exact absurd ‹decode? rest = some _› (hnone _ _ _ ‹_› ‹_›)
    · cases h

end Text.Hex

/-! ## The bytes of a sort value -/

/-- Bytes are the bytes of their number. -/
theorem bigEndian_ofBigEndian (bytes : List UInt8) :
    bigEndian bytes.length (ofBigEndian bytes) = bytes := by
  induction bytes using List.reverseRecOn with
  | nil => rfl
  | append_singleton bytes b ih =>
    have hb : b.toNat < 256 := b.toNat_lt
    have hvalue : ofBigEndian (bytes ++ [b]) = ofBigEndian bytes * 256 + b.toNat := by
      simp [ofBigEndian]
    have hdiv : (ofBigEndian bytes * 256 + b.toNat) / 256 = ofBigEndian bytes := by omega
    have hmod : (ofBigEndian bytes * 256 + b.toNat) % 256 = b.toNat := by omega
    rw [List.length_append, List.length_singleton, bigEndian, hvalue, hdiv, hmod, ih,
      UInt8.ofNat_toNat]

/-- A number of some bytes has no more bytes. -/
theorem ofBigEndian_lt (bytes : List UInt8) : ofBigEndian bytes < 256 ^ bytes.length := by
  induction bytes using List.reverseRecOn with
  | nil => simp [ofBigEndian]
  | append_singleton bytes b ih =>
    have hb : b.toNat < 256 := b.toNat_lt
    have hvalue : ofBigEndian (bytes ++ [b]) = ofBigEndian bytes * 256 + b.toNat := by
      simp [ofBigEndian]
    rw [hvalue, List.length_append, List.length_singleton, Nat.pow_succ]
    omega

/-- A word of eight bytes has these bytes. -/
theorem bigEndian_word {bytes : List UInt8} (h : bytes.length = 8) :
    bigEndian 8 (UInt64.ofNat (ofBigEndian bytes)).toNat = bytes := by
  have hlt : ofBigEndian bytes < 2 ^ 64 := by
    have hlt := ofBigEndian_lt bytes
    rw [h] at hlt
    exact hlt
  rw [UInt64.toNat_ofNat_of_lt' hlt, ← h]
  exact bigEndian_ofBigEndian bytes

/-- Bytes are read as a text exactly if they are that text in UTF-8. -/
theorem ofUtf8?_eq_some_iff {bytes : List UInt8} {s : String} :
    ofUtf8? bytes = some s ↔ bytes = toUtf8 s := by
  constructor
  · intro h
    rw [ofUtf8?, String.fromUTF8?] at h
    split at h
    · obtain rfl := Option.some.inj h
      simp [toUtf8, String.fromUTF8, String.toUTF8]
    · cases h
  · rintro rfl
    exact ofUtf8?_toUtf8 s

namespace SortValue

/-- Bytes that stand for a value of a kind: those of a text, or a whole word. -/
def IsBytes (bytes : List UInt8) : ValueKind → Prop
  | .text => ∃ s, bytes = toUtf8 s
  | .int | .float => bytes.length = 8

/-- What is read has the kind and the bytes it is read from. -/
theorem kind_and_toBytes_of_ofBytes? {kind : ValueKind} {bytes : List UInt8} {v : SortValue}
    (h : ofBytes? kind bytes = some v) : v.kind = kind ∧ v.toBytes = bytes := by
  cases kind with
  | text =>
    obtain ⟨s, hs, rfl⟩ := Option.map_eq_some_iff.1 h
    exact ⟨rfl, (ofUtf8?_eq_some_iff.1 hs).symm⟩
  | int =>
    obtain ⟨hlength, hv⟩ := Option.ite_none_right_eq_some.1 h
    cases hv
    exact ⟨rfl, by simpa [toBytes] using bigEndian_word hlength⟩
  | float =>
    obtain ⟨hlength, hv⟩ := Option.ite_none_right_eq_some.1 h
    cases hv
    exact ⟨rfl, bigEndian_word hlength⟩

/-- Bytes are a value of a kind exactly if the kind has such bytes. -/
theorem isSome_ofBytes?_iff {kind : ValueKind} {bytes : List UInt8} :
    (ofBytes? kind bytes).isSome ↔ IsBytes bytes kind := by
  cases kind with
  | text => simp [ofBytes?, IsBytes, Option.isSome_iff_exists, ofUtf8?_eq_some_iff]
  | int | float => simp [ofBytes?, IsBytes]

end SortValue

/-! ## The texts that are cursors -/

namespace Position

/-- The texts that stand for a place in a listing by a field of a kind, or by key alone. -/
def IsCursor : Option ValueKind → String → Prop
  | none, c => c ≠ ""
  | some kind, c => ∃ front back valueBytes idBytes,
      c.toList = front ++ '-' :: back ∧ '-' ∉ front ∧
      Text.Hex.Paired front ∧ Text.Hex.decode? front = some valueBytes ∧
      Text.Hex.Paired back ∧ Text.Hex.decode? back = some idBytes ∧
      SortValue.IsBytes valueBytes kind ∧ ∃ id, id ≠ "" ∧ idBytes = toUtf8 id

/-- A cursor with its hexadecimal digits in lower case; a key is not hexadecimal. -/
def lowered : Option ValueKind → String → String
  | none, c => c
  | some _, c => c.map Char.toLower

/-- A cursor is split at its first dash. -/
theorem splitDash?_eq_some_iff {cs front back : List Char} :
    splitDash? cs = some (front, back) ↔ cs = front ++ '-' :: back ∧ '-' ∉ front := by
  constructor
  · intro h
    rw [splitDash?, List.span_eq_takeWhile_dropWhile] at h
    have hparts := List.takeWhile_append_dropWhile (p := (· != '-')) (l := cs)
    split at h
    case h_1 front' dash back' hspan =>
      obtain ⟨rfl, rfl⟩ := Prod.mk.inj (Option.some.inj h)
      obtain ⟨hfront, hback⟩ := Prod.mk.inj hspan
      -- the part behind the split begins with what stopped the part in front
      have hdash : dash = '-' := by
        have hstop := List.head_dropWhile_not (· != '-') (l := cs) (by rw [hback]; simp)
        simpa [hback] using hstop
      rw [hfront, hback, hdash] at hparts
      refine ⟨hparts.symm, fun hmem => ?_⟩
      rw [← hfront] at hmem
      simpa using List.mem_takeWhile_imp hmem
    case h_2 => cases h
  · rintro ⟨rfl, hfront⟩
    exact splitDash?_append hfront back

/-- Reading a cursor of a listing by a field, part by part. -/
theorem decode?_some_eq_some_iff {c : String} {kind : ValueKind} {p : Position} :
    decode? c (some kind) = some p ↔ ∃ front back valueBytes v,
      c.toList = front ++ '-' :: back ∧ '-' ∉ front ∧
      Text.Hex.decode? front = some valueBytes ∧ Text.Hex.decode? back = some (toUtf8 p.id) ∧
      p.id ≠ "" ∧ SortValue.ofBytes? kind valueBytes = some v ∧ p.value = some v := by
  obtain ⟨value, id⟩ := p
  simp only [decode?, Option.bind_eq_bind, Option.bind_eq_some_iff, Prod.exists,
    splitDash?_eq_some_iff, ofUtf8?_eq_some_iff]
  constructor
  · -- an id that is empty is refused behind everything else
    rintro ⟨front, back, ⟨hc, hdash⟩, valueBytes, hfront, idBytes, hback, id', rfl, hid⟩
    split at hid
    case isTrue => cases hid
    case isFalse hne =>
      obtain ⟨v, hv, hp⟩ := Option.bind_eq_some_iff.1 hid
      cases hp
      exact ⟨front, back, valueBytes, v, hc, hdash, hfront, hback, hne, hv, rfl⟩
  · rintro ⟨front, back, valueBytes, v, hc, hdash, hfront, hback, hne, hv, rfl⟩
    refine ⟨front, back, ⟨hc, hdash⟩, valueBytes, hfront, _, hback, id, rfl, ?_⟩
    rw [if_neg hne]
    exact Option.bind_eq_some_iff.2 ⟨v, hv, rfl⟩

/-- A text is read exactly if it is a cursor. -/
theorem isSome_decode?_iff (kind : Option ValueKind) (c : String) :
    (decode? c kind).isSome ↔ IsCursor kind c := by
  cases kind with
  | none => by_cases hc : c = "" <;> simp [decode?, IsCursor, hc]
  | some kind =>
    rw [Option.isSome_iff_exists]
    constructor
    · rintro ⟨p, hp⟩
      obtain ⟨front, back, valueBytes, v, hc, hdash, hfront, hback, hne, hv, -⟩ :=
        decode?_some_eq_some_iff.1 hp
      exact ⟨front, back, valueBytes, toUtf8 p.id, hc, hdash,
        (Text.Hex.isSome_decode?_iff front).1 (by rw [hfront]; rfl), hfront,
        (Text.Hex.isSome_decode?_iff back).1 (by rw [hback]; rfl), hback,
        SortValue.isSome_ofBytes?_iff.1 (by rw [hv]; rfl), p.id, hne, rfl⟩
    · rintro ⟨front, back, valueBytes, idBytes, hc, hdash, -, hfront, -, hback, hbytes, id, hne,
        rfl⟩
      obtain ⟨v, hv⟩ := Option.isSome_iff_exists.1 (SortValue.isSome_ofBytes?_iff.2 hbytes)
      exact ⟨⟨some v, id⟩, decode?_some_eq_some_iff.2
        ⟨front, back, valueBytes, v, hc, hdash, hfront, hback, hne, hv, rfl⟩⟩

/-- What is read is a place of the listing, and its cursor is the text, but for the case of the
hexadecimal digits. -/
theorem encode_of_decode? {kind : Option ValueKind} {c : String} {p : Position}
    (h : decode? c kind = some p) :
    p.value.map SortValue.kind = kind ∧ p.id ≠ "" ∧ p.encode = lowered kind c := by
  cases kind with
  | none =>
    obtain ⟨hne, hp⟩ := Option.ite_none_left_eq_some.1 h
    cases hp
    exact ⟨rfl, hne, rfl⟩
  | some kind =>
    obtain ⟨front, back, valueBytes, v, hc, -, hfront, hback, hne, hv, hp⟩ :=
      decode?_some_eq_some_iff.1 h
    obtain ⟨hkind, hbytes⟩ := SortValue.kind_and_toBytes_of_ofBytes? hv
    obtain ⟨value, id⟩ := p
    obtain rfl : value = some v := hp
    refine ⟨congrArg some hkind, hne, String.toList_inj.1 ?_⟩
    calc (encode ⟨some v, id⟩).toList
        = Text.Hex.encode v.toBytes ++ '-' :: Text.Hex.encode (toUtf8 id) := by
          simp [encode, hexOf]
      _ = front.map Char.toLower ++ '-' :: back.map Char.toLower := by
          rw [hbytes, Text.Hex.encode_of_decode? hfront, Text.Hex.encode_of_decode? hback]
      _ = (lowered (some kind) c).toList := by
          rw [lowered, String.toList_map, hc, List.map_append, List.map_cons]
          rfl

/-- **Cursors are a faithful code for places.** For listings by a field of any kind and for listings
by key alone: every place with a key is read back from its cursor bit for bit; the texts that are
read are exactly the cursors; what is read is a place of such a listing, and its own cursor is the
text again, with the hexadecimal digits in lower case; and a listing refuses every other text as bad
input, whatever its documents are. -/
theorem cursors_are_faithful (kind : Option ValueKind) :
    (∀ p : Position, p.value.map SortValue.kind = kind → p.id ≠ "" →
      decode? p.encode kind = some p) ∧
    ∀ c : String,
      ((decode? c kind).isSome ↔ IsCursor kind c) ∧
      (∀ p, decode? c kind = some p →
        p.value.map SortValue.kind = kind ∧ p.id ≠ "" ∧ p.encode = lowered kind c) ∧
      ∀ {S D : Type} [Document D] [SortField S D] (q : ListQuery S),
        q.sort.map SortField.kind = kind → q.cursor = some c →
        (∀ p, decode? c kind = some p → q.position = .ok (some p)) ∧
        (¬ IsCursor kind c → ∀ docs : List D,
          paginate docs q = .error (.badInput ("invalid cursor " ++ Text.quoted c))) := by
  refine ⟨fun p hkind hid => decode?_encode hkind hid, fun c => ⟨isSome_decode?_iff kind c,
    fun p hp => encode_of_decode? hp, ?_⟩⟩
  intro S D _ _ q hkind hcursor
  constructor
  · intro p hp
    rw [ListQuery.position, hcursor]
    simp only [hkind, hp]
  · intro hnot docs
    -- what is no cursor is not decoded, so the listing is refused
    have hnone : decode? c kind = none := by
      rw [← Option.not_isSome_iff_eq_none, isSome_decode?_iff]
      exact hnot
    have hposition :
        q.position = .error (.badInput ("invalid cursor " ++ Text.quoted c)) := by
      rw [ListQuery.position, hcursor]
      simp only [hkind, hnone]
    rw [paginate, hposition]
    rfl

end Position

end Fleet
