import Fleet.Proofs.Naming.Positional
import Fleet.World

/-!
# Object ids sort by time

An id is a text of twelve digits for the time and twelve for six drawn bytes, two for each byte
(`Text.Hex.word_two_mul`). Texts are compared digit by digit, so ids are compared by their first
parts and then by their second ones, and in a fixed number of places this is to compare numbers. So
ids go by the time at which they are drawn, and those of one millisecond by the drawn bytes
(`object_ids_sort_by_time`). Times that need more than forty-eight bits count as what is left of
them modulo `2 ^ 48` (`objectId_lt_iff`).
-/

set_option autoImplicit false

namespace Fleet

/-! ## Words and bytes in hexadecimal -/

namespace Text.Hex

/-- A hexadecimal digit in lower case. -/
def IsLowerDigit (c : Char) : Prop := '0' ≤ c ∧ c ≤ '9' ∨ 'a' ≤ c ∧ c ≤ 'f'

instance (c : Char) : Decidable (IsLowerDigit c) := inferInstanceAs (Decidable (_ ∨ _))

theorem isLowerDigit_digit : ∀ n < 16, IsLowerDigit (digit n) := by decide

theorem isLowerDigit_of_mem_word {width n : Nat} {c : Char} (h : c ∈ word width n) :
    IsLowerDigit c := by
  induction width generalizing n with
  | zero => cases h
  | succ width ih =>
    rcases List.mem_append.1 h with h | h
    · exact ih h
    · rw [List.mem_singleton.1 h]
      exact isLowerDigit_digit _ (Nat.mod_lt n (by decide))

/-- Bytes are encoded one after the other. -/
theorem encode_append (us vs : List UInt8) : encode (us ++ vs) = encode us ++ encode vs := by
  induction us with
  | nil => rfl
  | cons b us ih => rw [List.cons_append, encode, ih, encode, List.cons_append, List.cons_append]

/-- A word with two digits for each byte is that of the bytes. -/
theorem word_two_mul (count n : Nat) : word (2 * count) n = encode (bigEndian count n) := by
  induction count generalizing n with
  | zero => rfl
  | succ count ih =>
    have hbyte : (UInt8.ofNat (n % 256)).toNat = n % 256 :=
      UInt8.toNat_ofNat_of_lt' (Nat.mod_lt n (by decide))
    have hrest : n / 16 / 16 = n / 256 := Nat.div_div_eq_div_mul n 16 16
    have hhigh : n % 256 / 16 = n / 16 % 16 := by omega
    have hlow : n % 256 % 16 = n % 16 := by omega
    rw [Nat.mul_succ, word, word, hrest, ih, bigEndian, encode_append, encode, encode, hbyte, hhigh,
      hlow, List.append_assoc]
    rfl

end Text.Hex

/-! ## Ids -/

open Text.Hex (word encode)

/-- An id is its time and its draw, in twelve places each. -/
theorem toList_objectId (t : Millis) (draw : Nat) :
    (objectId t draw).toList = word 12 t.toNat ++ word 12 draw := by
  rw [objectId, String.toList_ofList]

theorem length_time (t t' : Millis) : (word 12 t.toNat).length = (word 12 t'.toNat).length := by
  rw [Text.Hex.length_word, Text.Hex.length_word]

/-- Ids tell apart what forty-eight bits hold of the time and of the draw. -/
theorem objectId_inj_iff {t t' : Millis} {draw draw' : Nat} :
    objectId t draw = objectId t' draw' ↔
      t.toNat % 2 ^ 48 = t'.toNat % 2 ^ 48 ∧ draw % 2 ^ 48 = draw' % 2 ^ 48 := by
  calc objectId t draw = objectId t' draw'
      ↔ word 12 t.toNat ++ word 12 draw = word 12 t'.toNat ++ word 12 draw' := by
        rw [← String.toList_inj, toList_objectId, toList_objectId]
    _ ↔ word 12 t.toNat = word 12 t'.toNat ∧ word 12 draw = word 12 draw' :=
        ⟨fun h => List.append_inj h (length_time t t'), fun ⟨htime, hdraw⟩ => by rw [htime, hdraw]⟩
    _ ↔ _ := and_congr Text.Hex.word_inj_iff Text.Hex.word_inj_iff

/-- Ids are compared by the time, and by the draw only if the time is the same. -/
theorem objectId_lt_iff {t t' : Millis} {draw draw' : Nat} :
    objectId t draw < objectId t' draw' ↔
      t.toNat % 2 ^ 48 < t'.toNat % 2 ^ 48 ∨
        t.toNat % 2 ^ 48 = t'.toNat % 2 ^ 48 ∧ draw % 2 ^ 48 < draw' % 2 ^ 48 := by
  calc objectId t draw < objectId t' draw'
      ↔ List.Lex (· < ·) (word 12 t.toNat ++ word 12 draw) (word 12 t'.toNat ++ word 12 draw') := by
        rw [← toList_objectId, ← toList_objectId]
        exact String.lt_iff
    _ ↔ word 12 t.toNat < word 12 t'.toNat ∨
          word 12 t.toNat = word 12 t'.toNat ∧ word 12 draw < word 12 draw' :=
        lex_append_iff (length_time t t')
    _ ↔ _ := or_congr Text.Hex.word_lt_iff (and_congr Text.Hex.word_inj_iff Text.Hex.word_lt_iff)

/-- After the last time of forty-eight bits the digits start again. -/
example : objectId 0x1000000000000 1 = objectId 0 1 := objectId_inj_iff.2 ⟨rfl, rfl⟩

/-! ## Drawing -/

/-- The digits behind the time are those of the drawn bytes. -/
theorem toList_objectId_ofBigEndian (t : Millis) {bytes : List UInt8} (h : bytes.length = 6) :
    (objectId t (ofBigEndian bytes)).toList = word 12 t.toNat ++ encode bytes := by
  have hbytes : bigEndian 6 (ofBigEndian bytes) = bytes := h ▸ bigEndian_ofBigEndian bytes
  rw [toList_objectId, ← hbytes, ← Text.Hex.word_two_mul, hbytes]

/-- At this time the world has these bytes to draw. -/
structure World.Draws (w : World) (t : Millis) (bytes : List UInt8) : Prop where
  now_eq : w.now = t
  bytes_eq : bigEndian 6 w.nextDraw = bytes
  draws : w.drawFailure = none

/-- A world may draw any six bytes at any time. -/
theorem World.exists_draws (t : Millis) {bytes : List UInt8} (h : bytes.length = 6) :
    ∃ w : World, w.Draws t bytes := by
  refine ⟨{ clock := t.toNat, nextDraw := ofBigEndian bytes }, ?_, ?_, rfl⟩
  · exact UInt64.ofNat_toNat
  · rw [← h]
    exact bigEndian_ofBigEndian bytes

/-- What is drawn then is the id of the time and the bytes. -/
theorem World.Draws.newId_eq {w : World} {t : Millis} {bytes : List UInt8} (h : w.Draws t bytes) :
    w.newId.1 = .ok (objectId t (ofBigEndian bytes)) := by
  obtain ⟨rfl, rfl, hdraws⟩ := h
  have hid : objectId w.now w.nextDraw = objectId w.now (ofBigEndian (bigEndian 6 w.nextDraw)) := by
    rw [← String.toList_inj, toList_objectId_ofBigEndian _ (length_bigEndian 6 _), toList_objectId,
      ← Text.Hex.word_two_mul]
  rw [← hid, newId, hdraws]

/-- The worlds at this time with these bytes to draw, of which there are some, all make this id. -/
def IsDrawn (t : Millis) (bytes : List UInt8) (id : String) : Prop :=
  (∃ w : World, w.Draws t bytes) ∧ ∀ w : World, w.Draws t bytes → w.newId.1 = .ok id

/-! ## The result -/

/-- **Object ids sort by time.** At a time of forty-eight bits, with six bytes to be drawn, there is
one id to be had: twenty-four hexadecimal digits in lower case, twelve of the time and behind them
twelve of the bytes. Two ids are the same exactly if the times and the bytes are. One comes before
the other exactly if its time is the earlier one, whatever the bytes are, or if at the same time its
bytes come first. -/
theorem object_ids_sort_by_time {t t' : Millis} {bytes bytes' : List UInt8} (ht : t.toNat < 2 ^ 48)
    (ht' : t'.toNat < 2 ^ 48) (hbytes : bytes.length = 6) (hbytes' : bytes'.length = 6) :
    ∃ id id' : String, IsDrawn t bytes id ∧ IsDrawn t' bytes' id' ∧
      id.length = 24 ∧ (∀ c ∈ id.toList, Text.Hex.IsLowerDigit c) ∧
      id.toList = word 12 t.toNat ++ encode bytes ∧
      (id = id' ↔ t = t' ∧ bytes = bytes') ∧
      (id < id' ↔ t < t' ∨ t = t' ∧ BytesBefore bytes bytes') := by
  -- six bytes fill the places of the draw
  have hdraw {bytes : List UInt8} (h : bytes.length = 6) :
      ofBigEndian bytes % 2 ^ 48 = ofBigEndian bytes :=
    Nat.mod_eq_of_lt (h ▸ ofBigEndian_lt bytes : ofBigEndian bytes < 256 ^ 6)
  have hlength : bytes.length = bytes'.length := hbytes.trans hbytes'.symm
  have htoList := toList_objectId t (ofBigEndian bytes)
  refine ⟨objectId t (ofBigEndian bytes), objectId t' (ofBigEndian bytes'),
    ⟨World.exists_draws t hbytes, fun w h => h.newId_eq⟩,
    ⟨World.exists_draws t' hbytes', fun w h => h.newId_eq⟩, ?_, ?_,
    toList_objectId_ofBigEndian t hbytes, ?_, ?_⟩
  · rw [← String.length_toList, htoList, List.length_append, Text.Hex.length_word,
      Text.Hex.length_word]
  · intro c hc
    rw [htoList] at hc
    exact (List.mem_append.1 hc).elim Text.Hex.isLowerDigit_of_mem_word
      Text.Hex.isLowerDigit_of_mem_word
  · rw [objectId_inj_iff, Nat.mod_eq_of_lt ht, Nat.mod_eq_of_lt ht', hdraw hbytes, hdraw hbytes',
      UInt64.toNat_inj, ofBigEndian_inj_iff hlength]
  · rw [objectId_lt_iff, Nat.mod_eq_of_lt ht, Nat.mod_eq_of_lt ht', hdraw hbytes, hdraw hbytes',
      UInt64.toNat_inj, ← UInt64.lt_iff_toNat_lt, bytesBefore_iff hlength]

/-- The greatest bytes of one millisecond come before the least ones of the next. -/
theorem object_ids_sort_by_time_at_next_tick :
    (1700000000000 : Millis).toNat < 2 ^ 48 ∧ (1700000000001 : Millis).toNat < 2 ^ 48 ∧
      (List.replicate 6 (255 : UInt8)).length = 6 ∧ (List.replicate 6 (0 : UInt8)).length = 6 ∧
      ∃ id id' : String, IsDrawn 1700000000000 (List.replicate 6 255) id ∧
        IsDrawn 1700000000001 (List.replicate 6 0) id' ∧ id < id' := by
  obtain ⟨id, id', hid, hid', -, -, -, -, hlt⟩ := object_ids_sort_by_time
    (show (1700000000000 : Millis).toNat < 2 ^ 48 by decide)
    (show (1700000000001 : Millis).toNat < 2 ^ 48 by decide)
    (show (List.replicate 6 (255 : UInt8)).length = 6 by rfl)
    (show (List.replicate 6 (0 : UInt8)).length = 6 by rfl)
  exact ⟨by decide, by decide, rfl, rfl, id, id', hid, hid', hlt.2 (.inl (by decide))⟩

end Fleet
