/-!
# Dictionaries

A finite map from texts to values, kept as its entries in strictly increasing order of their keys.
Tables of the store are dictionaries, since they are read in key order, and so are the overrides of
a job, since that is the order in which they are written. The order is part of the type, so reading
one never needs to sort.

`find?_insert` is all that a user of `insert` needs to know.
-/

set_option autoImplicit false

namespace Fleet

/-- Entries in strictly increasing key order. -/
structure Dict (β : Type) where
  entries : List (String × β)
  sorted : entries.Pairwise fun a b => a.1 < b.1
deriving DecidableEq, Repr

namespace Dict

variable {β : Type}

theorem ext {d e : Dict β} (h : d.entries = e.entries) : d = e := by
  cases d; cases e; cases h; rfl

def empty : Dict β := ⟨[], .nil⟩

instance : Inhabited (Dict β) := ⟨empty⟩

def keys (d : Dict β) : List String := d.entries.map (·.1)

def values (d : Dict β) : List β := d.entries.map (·.2)

/-! ## Look-up -/

def lookUp? (key : String) : List (String × β) → Option β
  | [] => none
  | (k, v) :: rest => if k = key then some v else lookUp? key rest

def find? (d : Dict β) (key : String) : Option β := lookUp? key d.entries

/-! ## Insertion -/

/-- Puts an entry at its place, instead of one with the same key. -/
def insertEntry (key : String) (value : β) : List (String × β) → List (String × β)
  | [] => [(key, value)]
  | (k, v) :: rest =>
    if key < k then (key, value) :: (k, v) :: rest
    else if key = k then (key, value) :: rest
    else (k, v) :: insertEntry key value rest

theorem mem_insertEntry {key : String} {value : β} {e : String × β} {es : List (String × β)}
    (h : e ∈ insertEntry key value es) : e = (key, value) ∨ e ∈ es := by
  induction es with
  | nil => simpa [insertEntry] using h
  | cons a rest ih =>
    simp only [insertEntry] at h
    split at h
    · simpa using h
    · split at h
      · rcases List.mem_cons.1 h with h | h
        · exact .inl h
        · exact .inr (List.mem_cons_of_mem _ h)
      · rcases List.mem_cons.1 h with h | h
        · exact .inr (h ▸ List.mem_cons_self)
        · rcases ih h with h | h
          · exact .inl h
          · exact .inr (List.mem_cons_of_mem _ h)

theorem lt_of_not_lt_of_ne {a b : String} (h : ¬ a < b) (hne : a ≠ b) : b < a := by
  have hle := String.not_lt.1 h
  rcases String.le_total a b with hab | hab
  · exact absurd (String.le_antisymm hab hle) hne
  · exact String.not_le.1 fun hab' => hne (String.le_antisymm hab' hle)

theorem pairwise_insertEntry (key : String) (value : β) {es : List (String × β)}
    (h : es.Pairwise fun a b => a.1 < b.1) :
    (insertEntry key value es).Pairwise fun a b => a.1 < b.1 := by
  induction es with
  | nil => exact List.pairwise_singleton _ _
  | cons a rest ih =>
    obtain ⟨ha, hrest⟩ := List.pairwise_cons.1 h
    simp only [insertEntry]
    split
    case isTrue hlt =>
      refine List.pairwise_cons.2 ⟨fun b hb => ?_, h⟩
      rcases List.mem_cons.1 hb with rfl | hb
      · exact hlt
      · exact String.lt_trans hlt (ha b hb)
    case isFalse hlt =>
      split
      case isTrue heq =>
        exact List.pairwise_cons.2 ⟨fun b hb => heq ▸ ha b hb, hrest⟩
      case isFalse hne =>
        refine List.pairwise_cons.2 ⟨fun b hb => ?_, ih hrest⟩
        rcases mem_insertEntry hb with rfl | hb
        · exact lt_of_not_lt_of_ne hlt hne
        · exact ha b hb

def insert (d : Dict β) (key : String) (value : β) : Dict β :=
  ⟨insertEntry key value d.entries, pairwise_insertEntry key value d.sorted⟩

/-- The dictionary of a list of entries in any order, the last one of a key counting. -/
def ofList (entries : List (String × β)) : Dict β :=
  entries.foldl (fun d e => d.insert e.1 e.2) empty

/-! ## Laws -/

theorem lookUp?_insertEntry (key key' : String) (value : β) (es : List (String × β)) :
    lookUp? key' (insertEntry key value es) =
      if key = key' then some value else lookUp? key' es := by
  induction es with
  | nil => simp [insertEntry, lookUp?]
  | cons a rest ih =>
    obtain ⟨k, v⟩ := a
    simp only [insertEntry]
    split
    · simp [lookUp?]
    · split
      case isTrue heq => subst heq; simp only [lookUp?]; split <;> rfl
      case isFalse hne =>
        simp only [lookUp?, ih]
        grind

/-- Insertion changes the look-up of its own key and of no other. -/
theorem find?_insert (d : Dict β) (key key' : String) (value : β) :
    (d.insert key value).find? key' = if key = key' then some value else d.find? key' :=
  lookUp?_insertEntry key key' value d.entries

/-- An entry is in the dictionary exactly when its key looks its value up. -/
theorem find?_eq_some_iff {d : Dict β} {key : String} {value : β} :
    d.find? key = some value ↔ (key, value) ∈ d.entries := by
  obtain ⟨es, hs⟩ := d
  simp only [find?]
  induction es with
  | nil => simp [lookUp?]
  | cons a rest ih =>
    obtain ⟨k, v⟩ := a
    obtain ⟨ha, hrest⟩ := List.pairwise_cons.1 hs
    simp only [lookUp?, List.mem_cons, Prod.mk.injEq]
    split
    case isTrue heq =>
      subst heq
      constructor
      · intro h; exact .inl ⟨rfl, (Option.some.inj h).symm⟩
      · rintro (⟨-, rfl⟩ | h)
        · rfl
        · exact absurd (ha _ h) (String.lt_irrefl k)
    case isFalse hne =>
      rw [ih hrest]
      constructor
      · exact .inr
      · rintro (⟨rfl, -⟩ | h)
        · exact absurd rfl hne
        · exact h

end Dict

end Fleet
