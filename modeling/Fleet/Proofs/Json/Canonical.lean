import Fleet.Dict
import Fleet.Proofs.Json.Finite

/-!
# Trees and their canonical form

Three ways of looking at a tree of JSON: how deep its containers stand inside one another
(`Tree.depth`), what it is with other numbers in place of its own (`Tree.mapNumbers`), and what it
is with the members of every object in order and each name once (`Value.canonical`). All three go by
the containers, so they are proved by one induction (`Tree.induct`).

The canonical form is what two readings of a value can be compared in (`Parses`): it is the same
again (`canonical_canonical`), is no deeper than the value, has no other numbers, and it does not
matter whether numbers are replaced before or after.
-/

set_option autoImplicit false

namespace Fleet.Json

/-- A list is mapped to itself if each of its items is. -/
theorem map_eq_self_iff {α : Type} {f : α → α} {as : List α} :
    as.map f = as ↔ ∀ a ∈ as, f a = a := by
  have h : as.map f = as.map id ↔ ∀ a ∈ as, f a = id a := List.map_inj_left
  rwa [List.map_id] at h

namespace Tree

variable {ν ν' τ : Type}

/-- What holds of the leaves, and of a container if it holds of all that is in it, holds of every
tree. -/
@[elab_as_elim]
theorem induct {motive : Tree ν τ → Prop} (null : motive .null) (boolean : ∀ b, motive (.boolean b))
    (number : ∀ n, motive (.number n)) (text : ∀ s, motive (.text s))
    (array : ∀ items, (∀ v ∈ items, motive v) → motive (.array items))
    (object : ∀ members, (∀ m ∈ members, motive m.2) → motive (.object members)) :
    ∀ v, motive v
  | .null => null
  | .boolean b => boolean b
  | .number n => number n
  | .text s => text s
  | .array items => array items fun v _ => induct null boolean number text array object v
  | .object members => object members fun m hm =>
    -- the value of a member is smaller than the member, and that than the list of all of them
    have hmem := List.sizeOf_lt_of_mem hm
    have hvalue : sizeOf m.2 < sizeOf m := by
      cases m
      simp
    induct null boolean number text array object m.2

/-! ## Depth -/

mutual

/-- How many containers stand inside one another. -/
def depth : Tree ν τ → Nat
  | .array items => itemDepth items + 1
  | .object members => memberDepth members + 1
  | _ => 0

def itemDepth : List (Tree ν τ) → Nat
  | [] => 0
  | v :: vs => max (depth v) (itemDepth vs)

def memberDepth : List (τ × Tree ν τ) → Nat
  | [] => 0
  | (_, v) :: ms => max (depth v) (memberDepth ms)

end

/-- Items are no deeper than a bound if each one is not. -/
theorem itemDepth_le_iff {items : List (Tree ν τ)} {n : Nat} :
    itemDepth items ≤ n ↔ ∀ v ∈ items, v.depth ≤ n := by
  induction items with
  | nil => simp [itemDepth]
  | cons v vs ih => rw [itemDepth, max_le_iff, ih, List.forall_mem_cons]

/-- Members are no deeper than a bound if each one is not. -/
theorem memberDepth_le_iff {members : List (τ × Tree ν τ)} {n : Nat} :
    memberDepth members ≤ n ↔ ∀ m ∈ members, m.2.depth ≤ n := by
  induction members with
  | nil => simp [memberDepth]
  | cons m ms ih =>
    obtain ⟨name, v⟩ := m
    rw [memberDepth, max_le_iff, ih, List.forall_mem_cons]

/-- An array is one level deeper than its items. -/
theorem depth_array_le_iff {items : List (Tree ν τ)} {n : Nat} :
    (array items).depth ≤ n + 1 ↔ ∀ v ∈ items, v.depth ≤ n := by
  rw [depth, Nat.add_le_add_iff_right, itemDepth_le_iff]

/-- An object is one level deeper than its members. -/
theorem depth_object_le_iff {members : List (τ × Tree ν τ)} {n : Nat} :
    (object members).depth ≤ n + 1 ↔ ∀ m ∈ members, m.2.depth ≤ n := by
  rw [depth, Nat.add_le_add_iff_right, memberDepth_le_iff]

/-! ## Other numbers -/

mutual

/-- The tree with other numbers in place of its own. -/
def mapNumbers (f : ν → ν') : Tree ν τ → Tree ν' τ
  | .null => .null
  | .boolean b => .boolean b
  | .number n => .number (f n)
  | .text s => .text s
  | .array items => .array (mapItems f items)
  | .object members => .object (mapMembers f members)

def mapItems (f : ν → ν') : List (Tree ν τ) → List (Tree ν' τ)
  | [] => []
  | v :: vs => mapNumbers f v :: mapItems f vs

def mapMembers (f : ν → ν') : List (τ × Tree ν τ) → List (τ × Tree ν' τ)
  | [] => []
  | (name, v) :: ms => (name, mapNumbers f v) :: mapMembers f ms

end

/-- Items are mapped one by one. -/
theorem mapItems_eq_map (f : ν → ν') (items : List (Tree ν τ)) :
    mapItems f items = items.map (mapNumbers f) := by
  induction items with
  | nil => rfl
  | cons v vs ih => rw [mapItems, ih, List.map_cons]

/-- Members are mapped one by one, and keep their names. -/
theorem mapMembers_eq_map (f : ν → ν') (members : List (τ × Tree ν τ)) :
    mapMembers f members = members.map fun m => (m.1, m.2.mapNumbers f) := by
  induction members with
  | nil => rfl
  | cons m ms ih =>
    obtain ⟨name, v⟩ := m
    rw [mapMembers, ih, List.map_cons]

/-- A tree stays as it is if all its numbers do. -/
theorem mapNumbers_eq_self_iff {f : ν → ν} {v : Tree ν τ} :
    v.mapNumbers f = v ↔ v.Numbers fun n => f n = n := by
  induction v using induct with
  | null => exact ⟨fun _ => .null, fun _ => rfl⟩
  | boolean b => exact ⟨fun _ => .boolean b, fun _ => rfl⟩
  | text s => exact ⟨fun _ => .text s, fun _ => rfl⟩
  | number n =>
    rw [mapNumbers, number.injEq]
    constructor
    · exact fun h => .number h
    · rintro ⟨⟩
      assumption
  | array items ih =>
    -- along the tree: a number is its own case, and the others ask it of their parts
    rw [mapNumbers, array.injEq, mapItems_eq_map, map_eq_self_iff]
    constructor
    · exact fun h => .array fun v hv => (ih v hv).1 (h v hv)
    · intro h v hv
      cases h with
      | array h => exact (ih v hv).2 (h v hv)
  | object members ih =>
    rw [mapNumbers, object.injEq, mapMembers_eq_map, map_eq_self_iff]
    constructor
    · exact fun h => .object fun m hm => (ih m hm).1 (congrArg Prod.snd (h m hm))
    · intro h m hm
      cases h with
      | object h => exact Prod.ext rfl ((ih m hm).2 (h m hm))

/-- The numbers do not matter to the depth. -/
theorem depth_mapNumbers (f : ν → ν') (v : Tree ν τ) : (v.mapNumbers f).depth = v.depth := by
  induction v using induct with
  | array items ih =>
    rw [mapNumbers, depth, depth, mapItems_eq_map, Nat.add_right_cancel_iff]
    -- two depths are the same if they have the same bounds, and a bound is one of every item
    refine eq_of_forall_ge_iff fun n => ?_
    rw [itemDepth_le_iff, itemDepth_le_iff, List.forall_mem_map]
    exact forall₂_congr fun v hv => by rw [ih v hv]
  | object members ih =>
    rw [mapNumbers, depth, depth, mapMembers_eq_map, Nat.add_right_cancel_iff]
    refine eq_of_forall_ge_iff fun n => ?_
    rw [memberDepth_le_iff, memberDepth_le_iff, List.forall_mem_map]
    exact forall₂_congr fun m hm => by rw [ih m hm]
  | _ => rfl

end Tree

/-! ## The canonical form -/

namespace Value

variable {name : String} {v : Value} {ms : List (String × Value)} {m : String × Value}

/-- A member is the inserted one, or was there. -/
theorem mem_insertMember (h : m ∈ insertMember name v ms) : m = (name, v) ∨ m ∈ ms := by
  induction ms with
  | nil => exact .inl (List.mem_singleton.1 h)
  | cons a ms ih =>
    rw [insertMember] at h
    split at h
    · exact List.mem_cons.1 h
    · split at h
      · exact .inr h
      · rcases List.mem_cons.1 h with rfl | h
        · exact .inr List.mem_cons_self
        · exact (ih h).imp_right (List.mem_cons_of_mem a)

/-- Inserting keeps the members sorted by name. -/
theorem pairwise_insertMember (hms : ms.Pairwise fun a b => a.1 < b.1) :
    (insertMember name v ms).Pairwise fun a b => a.1 < b.1 := by
  induction ms with
  | nil => exact List.pairwise_singleton _ _
  | cons a ms ih =>
    obtain ⟨ha, hrest⟩ := List.pairwise_cons.1 hms
    rw [insertMember]
    split
    case isTrue hlt =>
      refine List.pairwise_cons.2 ⟨fun b hb => ?_, hms⟩
      rcases List.mem_cons.1 hb with rfl | hb
      · exact hlt
      · exact String.lt_trans hlt (ha b hb)
    case isFalse hlt =>
      split
      case isTrue => exact hms
      case isFalse hne =>
        refine List.pairwise_cons.2 ⟨fun b hb => ?_, ih hrest⟩
        rcases mem_insertMember hb with rfl | hb
        · exact Dict.lt_of_not_lt_of_ne hlt hne
        · exact ha b hb

/-- A member before all others is put at the front. -/
theorem insertMember_of_lt (h : ∀ m ∈ ms, name < m.1) :
    insertMember name v ms = (name, v) :: ms := by
  cases ms with
  | nil => rfl
  | cons a ms => rw [insertMember, if_pos (h a List.mem_cons_self)]

/-- Inserting looks at the names only. -/
theorem insertMember_map (f : Value → Value) :
    insertMember name (f v) (ms.map fun m => (m.1, f m.2)) =
      (insertMember name v ms).map fun m => (m.1, f m.2) := by
  induction ms with
  | nil => rfl
  | cons a ms ih =>
    rw [List.map_cons, insertMember, insertMember, ih]
    split
    · rfl
    · split <;> rfl

/-- Items are made canonical one by one. -/
theorem canonicalItems_eq_map (vs : List Value) : canonicalItems vs = vs.map canonical := by
  induction vs with
  | nil => rfl
  | cons v vs ih => rw [canonicalItems, ih, List.map_cons]

/-- A member of a canonical object is a member made canonical. -/
theorem mem_canonicalMembers (h : m ∈ canonicalMembers ms) :
    ∃ m' ∈ ms, m = (m'.1, m'.2.canonical) := by
  induction ms with
  | nil => cases h
  | cons a ms ih =>
    rcases mem_insertMember h with rfl | h
    · exact ⟨a, List.mem_cons_self, rfl⟩
    · obtain ⟨m', hm', heq⟩ := ih h
      exact ⟨m', List.mem_cons_of_mem a hm', heq⟩

/-- The members of a canonical object are sorted by name. -/
theorem pairwise_canonicalMembers (ms : List (String × Value)) :
    (canonicalMembers ms).Pairwise fun a b => a.1 < b.1 := by
  induction ms with
  | nil => exact .nil
  | cons a ms ih => exact pairwise_insertMember ih

/-- Members in order, and canonical themselves, are left as they are. -/
theorem canonicalMembers_eq_self (hms : ms.Pairwise fun a b => a.1 < b.1)
    (hcanonical : ∀ m ∈ ms, m.2.canonical = m.2) : canonicalMembers ms = ms := by
  induction ms with
  | nil => rfl
  | cons a ms ih =>
    obtain ⟨ha, hrest⟩ := List.pairwise_cons.1 hms
    obtain ⟨hvalue, hvalues⟩ := List.forall_mem_cons.1 hcanonical
    obtain ⟨name, v⟩ := a
    rw [canonicalMembers, ih hrest hvalues, insertMember_of_lt ha, hvalue]

/-- What is canonical is so already. -/
theorem canonical_canonical (v : Value) : v.canonical.canonical = v.canonical := by
  induction v using Tree.induct with
  | array items ih =>
    rw [canonical, canonical, Tree.array.injEq, canonicalItems_eq_map, canonicalItems_eq_map,
      List.map_map]
    exact List.map_congr_left ih
  | object members ih =>
    rw [canonical, canonical, Tree.object.injEq]
    refine canonicalMembers_eq_self (pairwise_canonicalMembers members) fun m hm => ?_
    obtain ⟨m', hm', rfl⟩ := mem_canonicalMembers hm
    exact ih m' hm'
  | _ => rfl

/-- Numbers do not matter to the order of members. -/
theorem canonical_mapNumbers (f : Number → Number) (v : Value) :
    canonical (v.mapNumbers f) = v.canonical.mapNumbers f := by
  induction v using Tree.induct with
  | array items ih =>
    rw [Tree.mapNumbers, canonical, canonical, Tree.mapNumbers, Tree.array.injEq,
      Tree.mapItems_eq_map, Tree.mapItems_eq_map, canonicalItems_eq_map, canonicalItems_eq_map,
      List.map_map, List.map_map]
    exact List.map_congr_left ih
  | object members ih =>
    rw [Tree.mapNumbers, canonical, canonical, Tree.mapNumbers, Tree.object.injEq,
      Tree.mapMembers_eq_map, Tree.mapMembers_eq_map]
    -- the canonical members are inserted one after another, so they are looked at that way
    induction members with
    | nil => rfl
    | cons m ms ihms =>
      obtain ⟨hm, hms⟩ := List.forall_mem_cons.1 ih
      rw [List.map_cons, canonicalMembers, canonicalMembers, ihms hms, ← insertMember_map, hm]
  | _ => rfl

/-- Making a value canonical does not make it deeper. -/
theorem depth_canonical_le (v : Value) : v.canonical.depth ≤ v.depth := by
  induction v using Tree.induct with
  | array items ih =>
    refine Tree.depth_array_le_iff.2 fun v hv => ?_
    rw [canonicalItems_eq_map] at hv
    obtain ⟨w, hw, rfl⟩ := List.mem_map.1 hv
    exact (ih w hw).trans (Tree.itemDepth_le_iff.1 le_rfl w hw)
  | object members ih =>
    refine Tree.depth_object_le_iff.2 fun m hm => ?_
    obtain ⟨m', hm', rfl⟩ := mem_canonicalMembers hm
    exact (ih m' hm').trans (Tree.memberDepth_le_iff.1 le_rfl m' hm')
  | _ => exact le_rfl

/-- Nor does it bring in numbers. -/
theorem numbers_canonical {P : Number → Prop} (h : v.Numbers P) : v.canonical.Numbers P := by
  induction h with
  | null => exact .null
  | boolean b => exact .boolean b
  | number hn => exact .number hn
  | text s => exact .text s
  | array _ ih =>
    refine .array fun v hv => ?_
    rw [canonicalItems_eq_map] at hv
    obtain ⟨w, hw, rfl⟩ := List.mem_map.1 hv
    exact ih w hw
  | object _ ih =>
    refine .object fun m hm => ?_
    obtain ⟨m', hm', rfl⟩ := mem_canonicalMembers hm
    exact ih m' hm'

end Value

end Fleet.Json
