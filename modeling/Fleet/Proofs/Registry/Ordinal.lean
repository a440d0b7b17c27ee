import Fleet.Registry.Registration
import Fleet.Proofs.Process.Table
import Mathlib.Data.List.Perm.Subperm

/-!
# Ordinals among peers

The least free ordinal has every smaller number in use, and there is one for as long as fewer numbers
are in use than there are ordinals. Of the peers that hold an ordinal the owner is the one with the
smallest claim, ids deciding between equal claims. What the peers say about the ordinal of a process
(`Registration.judge`) is spelled out in these terms.
-/

set_option autoImplicit false

namespace Fleet

namespace Ordinal

/-! ## The least free ordinal -/

/-- Among more numbers than are taken one is free. -/
theorem exists_mem_range'_not_mem {taken : List Nat} {count : Nat} (h : taken.length < count) :
    ∃ n ∈ List.range' 1 count, n ∉ taken := by
  by_contra hall
  have hsubset : List.range' 1 count ⊆ taken := fun n hn => by
    by_contra hmem
    exact hall ⟨n, hn, hmem⟩
  have hnodup : (List.range' 1 count).Nodup := List.nodup_range'
  have hlen := (hnodup.subperm hsubset).length_le
  rw [List.length_range'] at hlen
  omega

/-- The least free ordinal, or none where it would be too great. -/
theorem leastFree?_cases (used : List UInt32) :
    ∃ n, 0 < n ∧ n ∉ used.map UInt32.toNat ∧ (∀ m, 0 < m → m < n → m ∈ used.map UInt32.toNat) ∧
      leastFree? used = if n ≤ greatest then some (UInt32.ofNat n) else none := by
  cases hfind : (List.range' 1 ((used.map UInt32.toNat).length + 1)).find?
      fun n => !(used.map UInt32.toNat).contains n with
  | none =>
    -- among one more numbers than are used one is free
    obtain ⟨n, hn, hfree⟩ :=
      exists_mem_range'_not_mem (Nat.lt_succ_self (used.map UInt32.toNat).length)
    have := List.find?_eq_none.1 hfind n hn
    simp [hfree] at this
  | some n =>
    have heq : leastFree? used = if n ≤ greatest then some (UInt32.ofNat n) else none := by
      rw [leastFree?]
      simp only [hfind]
    rw [List.find?_range'_eq_some] at hfind
    obtain ⟨hfree, hn, hbelow⟩ := hfind
    refine ⟨n, (List.mem_range'_1.1 hn).1, by simpa using hfree, fun m hm hlt => ?_, heq⟩
    simpa using hbelow m hm hlt

/-- The least free ordinal is free, and every smaller one is in use. -/
theorem leastFree?_eq_some {used : List UInt32} {o : UInt32} (h : leastFree? used = some o) :
    0 < o.toNat ∧ o ∉ used ∧ ∀ m, 0 < m → m < o.toNat → m ∈ used.map UInt32.toNat := by
  obtain ⟨n, hpos, hfree, hbelow, heq⟩ := leastFree?_cases used
  rw [h] at heq
  split at heq
  case isTrue hle =>
    obtain rfl := Option.some.inj heq
    have hn : (UInt32.ofNat n).toNat = n :=
      UInt32.toNat_ofNat_of_lt' (Nat.lt_of_le_of_lt hle (by decide))
    rw [hn]
    exact ⟨hpos, fun hmem => hfree (hn ▸ List.mem_map_of_mem hmem), hbelow⟩
  case isFalse => cases heq

/-- Ordinals run out only if all of them are in use. -/
theorem mem_of_leastFree?_eq_none {used : List UInt32} (h : leastFree? used = none) :
    ∀ m, 0 < m → m ≤ greatest → m ∈ used.map UInt32.toNat := by
  obtain ⟨n, hpos, hfree, hbelow, heq⟩ := leastFree?_cases used
  rw [h] at heq
  split at heq
  case isTrue => cases heq
  case isFalse hlt => exact fun m hm hle => hbelow m hm (by omega)

/-- The least ordinal that no other peer holds: every smaller one is held by one of them. -/
theorem free?_eq_some {peers : List Process} {aside : Option String} {o : UInt32}
    (h : free? peers aside = some o) : 0 < o.toNat ∧
      (∀ q ∈ peers, some q.id ≠ aside → q.runningOrdinal ≠ o) ∧
      ∀ m, 0 < m → m < o.toNat →
        ∃ q ∈ peers, some q.id ≠ aside ∧ q.runningOrdinal.toNat = m := by
  obtain ⟨hpos, hfree, hbelow⟩ := leastFree?_eq_some h
  refine ⟨hpos, fun q hq hne heq => hfree ?_, fun m hm hlt => ?_⟩
  · exact List.mem_map.2 ⟨q, List.mem_filter.2 ⟨hq, by simpa using hne⟩, heq⟩
  · obtain ⟨_, hmem, rfl⟩ := List.mem_map.1 (hbelow m hm hlt)
    obtain ⟨q, hq, rfl⟩ := List.mem_map.1 hmem
    obtain ⟨hq, hne⟩ := List.mem_filter.1 hq
    exact ⟨q, hq, by simpa using hne, rfl⟩

/-- Where no ordinal is free all are held by others. -/
theorem free?_eq_none {peers : List Process} {aside : Option String}
    (h : free? peers aside = none) {m : Nat} (hm : 0 < m) (hle : m ≤ greatest) :
    ∃ q ∈ peers, some q.id ≠ aside ∧ q.runningOrdinal.toNat = m := by
  obtain ⟨_, hmem, rfl⟩ := List.mem_map.1 (mem_of_leastFree?_eq_none h m hm hle)
  obtain ⟨q, hq, rfl⟩ := List.mem_map.1 hmem
  obtain ⟨hq, hne⟩ := List.mem_filter.1 hq
  exact ⟨q, hq, by simpa using hne, rfl⟩

/-! ## Owners -/

instance : Std.TransCmp orderByClaim := inferInstanceAs (Std.TransCmp
  (compareLex (compareOn fun p : Process => p.ordinalClaim) (compareOn Process.id)))

/-- No claim comes before a smaller one. -/
theorem le_of_orderByClaim_isLE {p q : Process} (h : (orderByClaim p q).isLE) :
    p.ordinalClaim ≤ q.ordinalClaim := by
  rw [orderByClaim, Ordering.isLE_then_iff_and] at h
  exact Std.isLE_compare.1 h.1

/-- An earlier claim comes first. -/
theorem orderByClaim_isLE_of_lt {p q : Process} (h : p.ordinalClaim < q.ordinalClaim) :
    (orderByClaim p q).isLE := by
  rw [orderByClaim, Std.compare_eq_lt.2 h]
  rfl

theorem orderByClaim_isLE_self (p : Process) : (orderByClaim p p).isLE := by
  have heq : orderByClaim p p = .eq := Std.ReflCmp.compare_self
  rw [heq]
  rfl

theorem id_eq_of_isLE {p q : Process} (hpq : (orderByClaim p q).isLE)
    (hqp : (orderByClaim q p).isLE) : p.id = q.id := by
  have heq : orderByClaim p q = .eq := Std.OrientedCmp.isLE_antisymm hpq hqp
  rw [orderByClaim, Ordering.then_eq_eq] at heq
  exact Std.LawfulEqOrd.eq_of_compare heq.2

/-- The owner of an ordinal is the first that claimed it. -/
theorem owner?_eq_some {peers : List Process} {ordinal : UInt32} {o : Process}
    (h : owner? peers ordinal = some o) : o ∈ peers ∧ o.runningOrdinal = ordinal ∧
      ∀ q ∈ peers, q.runningOrdinal = ordinal → (orderByClaim o q).isLE := by
  obtain ⟨ho, hfirst⟩ := least?_spec h
  obtain ⟨hmem, hordinal⟩ := List.mem_filter.1 ho
  refine ⟨hmem, by simpa using hordinal, fun q hq hqo => hfirst q ?_⟩
  exact List.mem_filter.2 ⟨hq, by simpa using hqo⟩

/-- An ordinal that is held has an owner. -/
theorem owner?_ne_none {peers : List Process} {p : Process} (hp : p ∈ peers) :
    owner? peers p.runningOrdinal ≠ none := by
  intro h
  have hmem : p ∈ peers.filter (·.runningOrdinal == p.runningOrdinal) :=
    List.mem_filter.2 ⟨hp, by simp⟩
  rw [least?_eq_none.1 h] at hmem
  cases hmem

/-- A process owns its ordinal if among the peers with this ordinal the one with its id has the
first claim. -/
theorem isOwner_iff {peers : List Process} {p : Process} : isOwner peers p = true ↔
    ∃ o ∈ peers, o.id = p.id ∧ o.runningOrdinal = p.runningOrdinal ∧
      ∀ q ∈ peers, q.runningOrdinal = p.runningOrdinal → (orderByClaim o q).isLE := by
  have howner : isOwner peers p = true ↔
      ∃ o, owner? peers p.runningOrdinal = some o ∧ o.id = p.id := by
    simp [isOwner]
  rw [howner]
  constructor
  · rintro ⟨o, ho, hid⟩
    obtain ⟨hmem, hordinal, hfirst⟩ := owner?_eq_some ho
    exact ⟨o, hmem, hid, hordinal, hfirst⟩
  · rintro ⟨o, ho, hid, hordinal, hfirst⟩
    obtain ⟨o', ho'⟩ := Option.ne_none_iff_exists'.1 (hordinal ▸ owner?_ne_none ho)
    obtain ⟨hmem, hordinal', hfirst'⟩ := owner?_eq_some ho'
    refine ⟨o', ho', ?_⟩
    rw [← hid, id_eq_of_isLE (hfirst' o ho hordinal) (hfirst o' hmem hordinal')]

end Ordinal

/-! ## Judgements -/

namespace Registration

open Fleet.Ordinal

/-- A process is accepted exactly if it owns its ordinal. -/
theorem judge_eq_accepted {peers : List Process} {p q : Process} :
    judge peers p = .accepted q ↔ q = p ∧ isOwner peers p = true := by
  unfold judge
  split
  case isTrue hany =>
    -- the owner of an ordinal is one of the peers
    have hnot : isOwner peers p ≠ true := by
      intro howner
      obtain ⟨o, ho, hid, -⟩ := isOwner_iff.1 howner
      simp only [Bool.not_eq_true', List.any_eq_false, beq_iff_eq] at hany
      exact hany o ho hid
    simp [hnot]
  case isFalse =>
    split
    case isTrue howner => simp [howner, eq_comm]
    case isFalse howner => cases free? peers (some p.id) <;> simp [howner]

/-- A process that is among its peers is accepted, or it is to claim the least ordinal that no other
peer holds, unless there is none. -/
theorem judge_cases {peers : List Process} {p r : Process} (hr : r ∈ peers) (hid : r.id = p.id) :
    (isOwner peers p = true ∧ judge peers p = .accepted p) ∨
      (¬ isOwner peers p = true ∧ ((∃ o, free? peers (some p.id) = some o ∧
        judge peers p = .claiming p o) ∨ free? peers (some p.id) = none)) := by
  have hany : peers.any (·.id == p.id) = true := List.any_eq_true.2 ⟨r, hr, by simp [hid]⟩
  unfold judge
  rw [hany]
  by_cases howner : isOwner peers p = true
  · exact .inl ⟨howner, by simp [howner]⟩
  · refine .inr ⟨howner, ?_⟩
    cases hfree : free? peers (some p.id) with
    | none => exact .inr rfl
    | some o => exact .inl ⟨o, rfl, by simp [howner]⟩

end Registration

/-! ## Fresh ids -/

theorem World.newId_of_none {w : World} (hdraw : w.drawFailure = none) :
    w.newId = (.ok (objectId w.now w.nextDraw), { w with nextDraw := w.nextDraw + 1 }) := by
  rw [newId, hdraw]

end Fleet
