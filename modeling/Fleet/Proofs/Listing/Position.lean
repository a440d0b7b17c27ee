import Fleet.Listing.Page
import Mathlib.Data.List.TakeDrop
import Mathlib.Order.Basic

/-!
# Places in a listing

A listing is an order on places, pairs of a sort value and a key, and a cursor is the text of a
place. This module has the two facts on which paging rests.

* The order of places is total, and only equal places compare as equal (`compareDocs_eq_eq`). Values
of the three kinds are triples of kind, text and number under it; the doubles need no exception,
since they are ordered by the rank of their bits, which tells every two patterns apart.
* A cursor gives back the place that it was made of (`Position.decode?_encode`). The kind of the value
  is not part of the text; it is that of the sort field.

`sortDocs` therefore sorts strictly as soon as no two documents share a key.
-/

set_option autoImplicit false

namespace Fleet

/-! ## The order of sort values -/

/-- The rank tells bit patterns apart. -/
theorem Binary64.rank_inj {x y : Binary64} (h : x.rank = y.rank) : x = y := by
  have hx : x.bits.toNat < 2 ^ 64 := x.bits.toNat_lt
  have hy : y.bits.toNat < 2 ^ 64 := y.bits.toNat_lt
  have hbits : x.bits.toNat = y.bits.toNat := by
    unfold rank isNegative at h
    simp only [decide_eq_true_eq] at h
    split at h <;> split at h <;> omega
  cases x
  cases y
  rw [mk.injEq]
  exact UInt64.toNat_inj.1 hbits

namespace SortValue

/-- The text of a value, empty for a number. -/
def words : SortValue → String
  | .text s => s
  | _ => ""

/-- The place of a value among the numbers of its kind. -/
def place : SortValue → Int
  | .text _ => 0
  | .int n => n.toInt
  | .float x => x.rank

/-- Values are ordered as triples of kind, text and number. -/
theorem order_eq_compareLex :
    order = compareLex (compareOn rank) (compareLex (compareOn words) (compareOn place)) := by
  funext a b
  cases a <;> cases b <;>
    simp [order, Binary64.order, compareLex, compareOn, rank, words, place] <;> rfl

instance : Std.TransCmp order := by
  rw [order_eq_compareLex]
  infer_instance

instance : Std.LawfulEqCmp order where
  eq_of_compare := by
    intro a b h
    rw [order_eq_compareLex] at h
    simp only [compareLex_eq_eq, compareOn, Std.LawfulEqOrd.compare_eq_iff_eq] at h
    obtain ⟨hrank, hwords, hplace⟩ := h
    cases a <;> cases b <;> simp only [rank, words, place, reduceCtorEq] at hrank hwords hplace
    case text.text => rw [hwords]
    case int.int => rw [Int64.toInt_inj.1 hplace]
    case float.float => rw [Binary64.rank_inj hplace]
    all_goals omega

instance : Ord SortValue := ⟨order⟩

instance : Std.TransOrd SortValue := inferInstanceAs (Std.TransCmp order)

instance : Std.LawfulEqOrd SortValue := inferInstanceAs (Std.LawfulEqCmp order)

end SortValue

/-! ## The order of places -/

namespace Position

/-- Places are ordered by value and then by key. -/
instance : Ord Position := ⟨compareLex (compareOn value) (compareOn id)⟩

instance : Std.TransOrd Position :=
  inferInstanceAs (Std.TransCmp (compareLex (compareOn value) (compareOn id)))

instance : Std.LawfulEqOrd Position where
  compare_self := by
    intro p
    have hcmp : Std.ReflCmp (compareLex (compareOn value) (compareOn id)) := inferInstance
    exact hcmp.compare_self
  eq_of_compare := by
    intro p q h
    have h : compareLex (compareOn value) (compareOn id) p q = .eq := h
    simp only [compareLex_eq_eq, compareOn, Std.LawfulEqOrd.compare_eq_iff_eq] at h
    cases p
    cases q
    simp_all

/-- `p` comes before `q` in a direction. -/
def Before (direction : Direction) (p q : Position) : Prop := direction.apply (compare p q) = .lt

/-- Ascending, what is less comes before. -/
theorem before_ascending {p q : Position} : Before .ascending p q ↔ compare p q = .lt := Iff.rfl

/-- Descending, what is greater comes before. -/
theorem before_descending {p q : Position} : Before .descending p q ↔ compare q p = .lt := by
  rw [Before, Direction.apply, Ordering.swap_eq_lt, Std.OrientedOrd.eq_swap, Ordering.swap_eq_gt]

/-- Coming before is transitive. -/
theorem Before.trans {direction : Direction} {p q r : Position} (hpq : Before direction p q)
    (hqr : Before direction q r) : Before direction p r := by
  cases direction
  · rw [before_ascending] at hpq hqr ⊢
    exact Std.TransCmp.lt_trans hpq hqr
  · rw [before_descending] at hpq hqr ⊢
    exact Std.TransCmp.lt_trans hqr hpq

/-- Nothing comes before itself. -/
theorem Before.ne {direction : Direction} {p q : Position} (h : Before direction p q) : p ≠ q := by
  rintro rfl
  cases direction <;> simp [Before, Direction.apply, Std.ReflOrd.compare_self] at h

/-- Nothing comes before what comes before it. -/
theorem Before.asymm {direction : Direction} {p q : Position} (hpq : Before direction p q) :
    ¬ Before direction q p := fun hqp => (hpq.trans hqp).ne rfl

instance {direction : Direction} {p q : Position} : Decidable (Before direction p q) :=
  inferInstanceAs (Decidable (_ = _))

end Position

/-! ## Cursors -/

section Cursors

/-- Reading eight bytes, the most significant one first, undoes writing them. -/
theorem ofBigEndian_bigEndian (width : Nat) {n : Nat} (h : n < 256 ^ width) :
    ofBigEndian (bigEndian width n) = n := by
  induction width generalizing n with
  | zero =>
    have : n = 0 := by simpa using h
    subst this
    rfl
  | succ width ih =>
    -- the last byte is the remainder, and the others are the quotient
    have hq : n / 256 < 256 ^ width := by
      rw [Nat.pow_succ] at h
      exact Nat.div_lt_of_lt_mul (by rwa [Nat.mul_comm])
    have ih := ih hq
    unfold ofBigEndian at ih ⊢
    rw [bigEndian, List.foldl_append, ih]
    simp only [List.foldl_cons, List.foldl_nil, UInt8.toNat_ofNat']
    omega

/-- A number of a width has as many bytes. -/
theorem length_bigEndian (width n : Nat) : (bigEndian width n).length = width := by
  induction width generalizing n with
  | zero => rfl
  | succ width ih => simp [bigEndian, ih]

/-- The bytes of a text are read back as the text. -/
theorem ofUtf8?_toUtf8 (s : String) : ofUtf8? (toUtf8 s) = some s := by
  have hbytes : (⟨(toUtf8 s).toArray⟩ : ByteArray) = s.toByteArray := by
    simp [toUtf8, String.toUTF8]
  rw [ofUtf8?, hbytes, String.fromUTF8?, dif_pos s.isValidUTF8]
  rfl

namespace SortValue

/-- **The bytes of a value are read back as the value**, of every kind. -/
theorem ofBytes?_toBytes (v : SortValue) : ofBytes? v.kind v.toBytes = some v := by
  have hlt (n : UInt64) : n.toNat < 256 ^ 8 := n.toNat_lt
  cases v with
  | text s => simp [kind, toBytes, ofBytes?, ofUtf8?_toUtf8]
  | int n => simp [kind, toBytes, ofBytes?, length_bigEndian, ofBigEndian_bigEndian 8 (hlt _)]
  | float x => simp [kind, toBytes, ofBytes?, length_bigEndian, ofBigEndian_bigEndian 8 (hlt _)]

end SortValue

/-- No hexadecimal digit is a dash. -/
private theorem digit_ne_dash_of_range : ∀ n ∈ List.range 16, Text.Hex.digit n ≠ '-' := by decide

/-- A dash does not occur in what is encoded. -/
theorem dash_not_mem_encode (bytes : List UInt8) : '-' ∉ Text.Hex.encode bytes := by
  induction bytes with
  | nil => simp [Text.Hex.encode]
  | cons b bs ih =>
    have hb : b.toNat < 256 := b.toNat_lt
    have hhigh := digit_ne_dash_of_range (b.toNat / 16) (List.mem_range.2 (by omega))
    have hlow := digit_ne_dash_of_range (b.toNat % 16) (List.mem_range.2 (by omega))
    simp [Text.Hex.encode, ih, hhigh.symm, hlow.symm]

namespace Position

/-- So the first dash is the one between the parts. -/
theorem splitDash?_append {front : List Char} (h : '-' ∉ front) (back : List Char) :
    splitDash? (front ++ '-' :: back) = some (front, back) := by
  have hfront : ∀ c ∈ front, (c != '-') = true := fun c hc => by
    rw [bne_iff_ne]
    rintro rfl
    exact h hc
  rw [splitDash?, List.span_eq_takeWhile_dropWhile, List.takeWhile_append_of_pos hfront,
    List.dropWhile_append_of_pos hfront]
  simp

/-- **A cursor reads back as the place it was made of**, given the kind of its value. -/
theorem decode?_encode {p : Position} {kind : Option ValueKind}
    (hkind : p.value.map SortValue.kind = kind) (hid : p.id ≠ "") :
    decode? p.encode kind = some p := by
  obtain ⟨value, id⟩ := p
  subst hkind
  cases value with
  | none => exact if_neg hid
  | some v =>
    have htext : (encode ⟨some v, id⟩).toList =
        Text.Hex.encode v.toBytes ++ '-' :: Text.Hex.encode (toUtf8 id) := by
      simp [encode, hexOf]
    simp only [Option.map_some, decode?, htext, splitDash?_append (dash_not_mem_encode _),
      Text.Hex.decode_encode, ofUtf8?_toUtf8, SortValue.ofBytes?_toBytes, Option.bind_eq_bind,
      Option.bind_some]
    exact if_neg hid

end Position

end Cursors

/-! ## The order of documents is that of their places -/

section Documents

variable {S D : Type} [Document D] [SortField S D]

/-- Documents are listed by their positions. -/
theorem compareDocs_eq (sort : Option S) (direction : Direction) (a b : D) :
    compareDocs sort direction a b =
      direction.apply (compare (Position.of sort a) (Position.of sort b)) := by
  cases sort <;> rfl

/-- A position is one of a listing by this field, and a cursor can carry it. -/
structure Position.Fits (sort : Option S) (p : Position) : Prop where
  kind_eq : p.value.map SortValue.kind = sort.map SortField.kind
  id_ne : p.id ≠ ""

omit [Document D] in
/-- A position of the kind that is sorted by is read back from its cursor. -/
theorem Position.Fits.decode?_encode {sort : Option S} {p : Position} (h : p.Fits sort) :
    Position.decode? p.encode (sort.map SortField.kind) = some p :=
  Position.decode?_encode h.kind_eq h.id_ne

/-- The position of a document fits the field that is sorted by. -/
theorem Position.fits_of (sort : Option S) {d : D} (hd : Document.key d ≠ "") :
    (Position.of sort d).Fits sort where
  kind_eq := by
    cases sort with
    | none => rfl
    | some field => simp [Position.of, SortField.kind_value]
  id_ne := hd

/-- A document stands behind a position exactly when its place does. -/
theorem Position.precedes_eq {sort : Option S} {p : Position} (hp : p.Fits sort)
    (direction : Direction) (d : D) :
    p.precedes sort direction d = decide (Position.Before direction p (Position.of sort d)) := by
  obtain ⟨value, id⟩ := p
  have hkind := hp.kind_eq
  cases sort <;> cases value <;>
    simp only [Option.map_none, Option.map_some, reduceCtorEq] at hkind
  all_goals rfl

instance (sort : Option S) (direction : Direction) :
    Std.TransCmp (compareDocs (D := D) sort direction) where
  eq_swap := by
    intro a b
    rw [compareDocs_eq, compareDocs_eq, Std.OrientedOrd.eq_swap (a := Position.of sort b)]
    cases direction <;> simp [Direction.apply]
  isLE_trans := by
    intro a b c hab hbc
    rw [compareDocs_eq] at hab hbc ⊢
    cases direction
    case ascending => exact Std.TransOrd.isLE_trans hab hbc
    case descending =>
      simp only [Direction.apply, Ordering.isLE_swap, Std.OrientedCmp.isGE_iff_isLE] at hab hbc ⊢
      exact Std.TransOrd.isLE_trans hbc hab

/-- Exchanging two documents turns their order around. -/
theorem compareDocs_swap (sort : Option S) (direction : Direction) (a b : D) :
    compareDocs sort direction a b = (compareDocs sort direction b a).swap :=
      Std.OrientedCmp.eq_swap

/-- Documents that compare as equal have the same place. -/
theorem compareDocs_eq_eq {sort : Option S} {direction : Direction} {a b : D} :
    compareDocs sort direction a b = .eq ↔ Position.of sort a = Position.of sort b := by
  have hplace : compare (Position.of sort a) (Position.of sort b) = .eq ↔
      Position.of sort a = Position.of sort b := Std.LawfulEqOrd.compare_eq_iff_eq
  rw [compareDocs_eq, ← hplace]
  cases direction <;> simp [Direction.apply]

/-- Sorting loses no document and invents none. -/
theorem perm_sortDocs (sort : Option S) (direction : Direction) (docs : List D) :
    (sortDocs sort direction docs).Perm docs := List.mergeSort_perm docs _

/-- Sorting puts no document behind one that it comes before. -/
theorem pairwise_isLE_sortDocs (sort : Option S) (direction : Direction) (docs : List D) :
    (sortDocs sort direction docs).Pairwise fun a b =>
      (compareDocs sort direction a b).isLE = true := by
  have hle (a b : D) : (compareDocs sort direction a b != .gt) =
      (compareDocs sort direction a b).isLE := by
    cases compareDocs sort direction a b <;> rfl
  rw [sortDocs]
  simp only [hle]
  refine List.pairwise_mergeSort (fun a b c => Std.TransCmp.isLE_trans) (fun a b => ?_) docs
  rw [compareDocs_swap sort direction b, Bool.or_eq_true]
  cases compareDocs sort direction a b <;> simp

/-- Sorting puts every document behind all those whose places come before its own. -/
theorem pairwise_sortDocs (sort : Option S) (direction : Direction) {docs : List D}
    (hkeys : (docs.map Document.key).Nodup) :
    (sortDocs sort direction docs).Pairwise fun a b =>
      Position.Before direction (Position.of sort a) (Position.of sort b) := by
  have hnodup : ((sortDocs sort direction docs).map Document.key).Nodup :=
    ((perm_sortDocs sort direction docs).map _).nodup_iff.2 hkeys
  have hsorted := pairwise_isLE_sortDocs sort direction docs
  refine (hsorted.and (List.pairwise_map.1 hnodup)).imp fun {a b} h => ?_
  rcases Ordering.isLE_iff_eq_lt_or_eq_eq.1 h.1 with hlt | heq
  · rw [Position.Before, ← compareDocs_eq]
    exact hlt
  · exact absurd (congrArg Position.id (compareDocs_eq_eq.1 heq)) h.2

/-! ## Pages -/

/-- A page without limit and cursor holds everything. -/
theorem paginate_all (sort : Option S) (direction : Direction) (docs : List D) :
    paginate docs ({ sort, direction } : ListQuery S) =
      .ok ⟨sortDocs sort direction docs, docs.length, none⟩ := by
  simp [paginate, ListQuery.position]

/-- Every page holds documents in the order in which they were sorted. -/
theorem exists_paginate (docs : List D) {q : ListQuery S} {start : Option Position}
    (hstart : q.position = .ok start) : ∃ page : Page D, paginate docs q = .ok page ∧
      page.items.Sublist (sortDocs q.sort q.direction docs) := by
  have htake (rest : List D) : (if q.limit = 0 then rest else rest.take q.limit).Sublist rest := by
    split
    · exact .refl rest
    · exact List.take_sublist _ rest
  rw [paginate, hstart]
  cases start with
  | none => exact ⟨_, rfl, htake _⟩
  | some p => exact ⟨_, rfl, (htake _).trans List.filter_sublist⟩

end Documents

end Fleet
