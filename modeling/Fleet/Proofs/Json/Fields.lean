import Fleet.Json.Record
import Fleet.Named
import Fleet.Proofs.Json.Reading

/-!
# Reading fields back

A field is written by one function and read by another one. `Undoes read write` says that reading
undoes writing whatever outline the text of the written value has; it holds of the shapes that
documents are made of, one after the other. Of a double that is not so: where it is finite, the double
is read that its text rounds to (`float?_of_skimmed`), and where it is not, nothing is.

`SkimmedMembers.fields?` finds the fields of a structure in the outline of a printed object.
-/

set_option autoImplicit false

namespace Fleet

namespace Json

open Outline

/-! ## Outlines of given values -/

section

variable {o : Outline}

/-- A null is skimmed to a null. -/
@[simp] theorem skimmed_null_iff : Skimmed .null o ↔ o = .null :=
  ⟨fun h => by cases h; rfl, fun h => h ▸ .null⟩

/-- A boolean is skimmed to itself. -/
@[simp] theorem skimmed_boolean_iff {b : Bool} : Skimmed (.boolean b) o ↔ o = .boolean b :=
  ⟨fun h => by cases h; rfl, fun h => h ▸ .boolean b⟩

/-- A text is skimmed to itself. -/
@[simp] theorem skimmed_text_iff {s : String} : Skimmed (.text s) o ↔ o = .text (.ok s) :=
  ⟨fun h => by cases h; rfl, fun h => h ▸ .text s⟩

/-- A natural number is skimmed to itself: it is printed without loss. -/
theorem Skimmed.of_natural {n : UInt64} (h : Skimmed (.number (.natural n)) o) :
    o = .number (.ok (.natural n)) := by
  cases h with
  | number _ hr => rw [Number.scanned_natural hr]
  | lost hn => exact absurd trivial hn

/-- An array is skimmed item by item. -/
theorem skimmed_array_iff {vs : List Value} :
    Skimmed (.array vs) o ↔ ∃ os, o = .array os ∧ SkimmedItems vs os :=
  ⟨fun h => by cases h with | array h => exact ⟨_, rfl, h⟩,
    fun ⟨_, ho, h⟩ => ho ▸ .array h⟩

/-- An object is skimmed member by member. -/
theorem skimmed_object_iff {vs : List (String × Value)} :
    Skimmed (.object vs) o ↔ ∃ os, o = .object os ∧ SkimmedMembers vs os :=
  ⟨fun h => by cases h with | object h => exact ⟨_, rfl, h⟩,
    fun ⟨_, ho, h⟩ => ho ▸ .object h⟩

/-- An empty object is skimmed to an empty one. -/
theorem SkimmedMembers.eq_nil {os : List (Except Fault String × Outline)}
    (h : SkimmedMembers [] os) : os = [] := by
  cases h
  rfl

/-- The first member is skimmed first, under its own name. -/
theorem SkimmedMembers.uncons {name : String} {v : Value} {vs : List (String × Value)}
    {os : List (Except Fault String × Outline)} (h : SkimmedMembers ((name, v) :: vs) os) :
    ∃ o rest, os = (.ok name, o) :: rest ∧ Skimmed v o ∧ SkimmedMembers vs rest := by
  cases h with
  | cons _ ho hos => exact ⟨_, _, rfl, ho, hos⟩

end

/-! ## Structures -/

/-- The names of a skimmed object are those of the object. -/
theorem SkimmedMembers.members? {vs : List (String × Value)}
    {os : List (Except Fault String × Outline)} (h : SkimmedMembers vs os) :
    Outline.members? (.object os) = some ((vs.map Prod.fst).zip (os.map Prod.snd)) := by
  unfold Outline.members?
  match vs, os, h with
  | _, _, .nil => rfl
  | _, _, .cons name ho hos =>
    have ih := hos.members?
    unfold Outline.members? at ih
    simp only [List.mapM_cons, ih]
    rfl

/-- Skimming loses no member. -/
theorem SkimmedMembers.length_eq {vs : List (String × Value)}
    {os : List (Except Fault String × Outline)} (h : SkimmedMembers vs os) :
    vs.length = os.length := by
  match vs, os, h with
  | _, _, .nil => rfl
  | _, _, .cons _ _ hos => simp [hos.length_eq]

/-- A member of another name does not matter to a field. -/
theorem only?_cons_of_ne {name other : String} (h : other ≠ name) (o : Outline)
    (members : List (String × Outline)) :
    only? ((other, o) :: members) name = only? members name := by
  simp [only?, h]

/-- A field that occurs once is found. -/
theorem only?_cons_self {name : String} (o : Outline) {members : List (String × Outline)}
    (h : ∀ m ∈ members, m.1 ≠ name) : only? ((name, o) :: members) name = some (some o) := by
  have hfilter : members.filter (·.1 == name) = [] := by simpa using h
  simp [only?, hfilter]

/-- Functions that agree on the items of a list read the same list. -/
theorem mapM_congr_mem {α β : Type} {f g : α → Option β} {xs : List α}
    (h : ∀ x ∈ xs, f x = g x) : xs.mapM f = xs.mapM g := by
  induction xs with
  | nil => rfl
  | cons x xs ih =>
    rw [List.mapM_cons, List.mapM_cons, h x List.mem_cons_self,
      ih fun y hy => h y (List.mem_cons_of_mem x hy)]

/-- Of members with distinct names every name has its own one. -/
theorem mapM_only? {names : List String} {os : List Outline} (hnames : names.Nodup)
    (hlen : names.length = os.length) : names.mapM (only? (names.zip os)) = some (os.map some) := by
  induction names generalizing os with
  | nil =>
    obtain rfl := List.length_eq_zero_iff.1 hlen.symm
    rfl
  | cons name names ih =>
    match os, hlen with
    | o :: os, hlen =>
      obtain ⟨hname, hnames⟩ := List.nodup_cons.1 hnames
      -- the first name finds its own member, and the others do not see it
      have hself : only? ((name, o) :: names.zip os) name = some (some o) := by
        refine only?_cons_self o ?_
        rintro ⟨_, _⟩ hm rfl
        exact hname (List.of_mem_zip hm).1
      have hrest : names.mapM (only? ((name, o) :: names.zip os)) =
          names.mapM (only? (names.zip os)) :=
        mapM_congr_mem fun other hother =>
          only?_cons_of_ne (fun heq : name = other => hname (heq ▸ hother)) o _
      rw [List.zip_cons_cons, List.mapM_cons, hself, hrest, ih hnames (Nat.succ.inj hlen)]
      rfl

/-- The fields of a printed object are its members in the order of the object. -/
theorem SkimmedMembers.fields? {vs : List (String × Value)}
    {os : List (Except Fault String × Outline)} (h : SkimmedMembers vs os)
    (hnames : (vs.map Prod.fst).Nodup) :
    Outline.fields? (vs.map Prod.fst) (.object os) =
      some ((os.map Prod.snd).map some) := by
  rw [Outline.fields?]
  · rw [h.members?, Option.bind_some]
    exact mapM_only? hnames (by simp [h.length_eq])
  · intro items heq
    cases heq

/-! ## Shapes -/

/-- Reading undoes writing, whatever outline the written value has. -/
def Undoes {α : Type} (read : Outline → Option α) (write : α → Value) : Prop :=
  ∀ a o, Skimmed (write a) o → read o = some a

/-- Texts are read back. -/
theorem undoes_text : Undoes text? .text := fun _ _ ho => by rw [skimmed_text_iff.1 ho]; rfl

/-- Booleans are read back. -/
theorem undoes_boolean : Undoes boolean? .boolean := fun _ _ ho => by
  rw [skimmed_boolean_iff.1 ho]
  rfl

/-- Natural numbers are read back. -/
theorem undoes_natural : Undoes natural? ofUInt64 := fun _ _ ho => by rw [ho.of_natural]; rfl

/-- So are those of half the width. -/
theorem undoes_natural32 : Undoes natural32? ofUInt32 := by
  intro n o ho
  have hlt : n.toUInt64.toNat < 2 ^ 32 := by
    rw [UInt32.toNat_toUInt64]
    exact n.toNat_lt
  rw [natural32?, undoes_natural _ _ ho, Option.bind_some, if_pos hlt, UInt32.toUInt32_toUInt64]

/-- A finite float comes back as it is reread. -/
theorem float?_of_skimmed {x : Binary64} (hx : x.isFinite = true) {o : Outline}
    (ho : Skimmed (ofFloat x) o) : float? o = some x.reread := by
  cases ho with
  | number _ hr =>
    rw [Number.scanned_float hx hr]
    rfl
  | lost hn => exact absurd hx hn

/-- A float that is not finite is written as a null, and a null is no float. -/
theorem float?_eq_none {x : Binary64} (hx : x.isFinite = false) {o : Outline}
    (ho : Skimmed (ofFloat x) o) : float? o = none := by
  cases ho with
  | number hfinite =>
    have hfinite : x.isFinite = true := hfinite
    rw [hx] at hfinite
    cases hfinite
  | lost => rfl

/-- What reads an optional value needs to tell `null` from the values. -/
theorem Undoes.option {α : Type} {read : Outline → Option α} {write : α → Value}
    (h : Undoes read write) (hnull : read .null = none) :
    Undoes (optional? read) (ofOption write) := by
  intro a o ho
  cases a with
  | none =>
    rw [skimmed_null_iff.1 ho]
    rfl
  | some a =>
    have hread := h a o ho
    -- nothing that is written is read from a null
    have hne : o ≠ .null := fun heq => by rw [heq, hnull] at hread; cases hread
    rw [optional?]
    · rw [hread]
      rfl
    · exact hne

/-- A list that is written item by item is read item by item. -/
theorem SkimmedItems.mapM_read {α : Type} {read : Outline → Option α} {write : α → Value}
    (h : Undoes read write) {as : List α} {os : List Outline}
    (hos : SkimmedItems (as.map write) os) : os.mapM read = some as := by
  induction as generalizing os with
  | nil => cases hos; rfl
  | cons a as ih =>
    cases hos with
    | cons ho hos => rw [List.mapM_cons, h a _ ho, ih hos]; rfl

/-- Lists of what is read back are read back. -/
theorem Undoes.list {α : Type} {read : Outline → Option α} {write : α → Value}
    (h : Undoes read write) : Undoes (list? read) (ofList write) := by
  intro as o ho
  obtain ⟨os, rfl, hos⟩ := skimmed_array_iff.1 ho
  exact hos.mapM_read h

/-- Lists of texts are read back. -/
theorem undoes_texts : Undoes texts? ofTexts := undoes_text.list

/-- Intervals of time are read back. -/
theorem undoes_interval : Undoes interval? ofInterval := by
  intro i o ho
  obtain ⟨os, rfl, hos⟩ := skimmed_object_iff.1 ho
  have hfields := hos.fields? (show ["start", "end"].Nodup by decide)
  obtain ⟨start, _, rfl, hstart, hos⟩ := hos.uncons
  obtain ⟨stop, _, rfl, hstop, hos⟩ := hos.uncons
  obtain rfl := hos.eq_nil
  have hopt := undoes_natural.option rfl
  simp only [List.map_cons, List.map_nil] at hfields
  simp [interval?, hfields, omissible, hopt _ _ hstart, hopt _ _ hstop]

end Json

/-! ## Names -/

/-- A closed set of names in which no name stands for two values. -/
class LawfulNamed (α : Type) [Named α] : Prop where
  ofName?_name : ∀ a : α, Named.ofName? (Named.name a) = some a

namespace Named

variable {α : Type} [Named α] [LawfulNamed α]

/-- What has a reader that undoes its writer is read back. -/
theorem undoes : Json.Undoes (ofJson? : Json.Outline → Option α) toJson := by
  intro a o ho
  rw [Json.skimmed_text_iff.1 ho]
  exact LawfulNamed.ofName?_name a

end Named

end Fleet
