import Fleet.World
import Fleet.Proofs.Store.Stored
import Mathlib.Data.List.Forall2

/-!
# Stores that differ in derived fields at most

How long a job ran and paused, and how long a task ran and was in its stages, is stored next to the
stamps from which it is derived. What is stored there may be wrong: it may be old, or somebody may
have put something else there. Two documents are akin if they are the same in all other fields
(`Document.Akin`), and two stores if they have akin texts under the same keys (`Store.Akin`).

From akin stores akin documents are read, or none for the same reason (`Concur`); and if akin
documents are put into akin stores, these stay akin. The texts are compared by what is read from
them or by what was written into them, since not every task that is written can be read.
-/

set_option autoImplicit false

namespace Fleet

open Document (collection key encode decode refresh)

/-! ## Ends -/

/-- Two attempts end well with related results, or fail for the same reason. -/
inductive Concur {ε α β : Type} (R : α → β → Prop) : Except ε α → Except ε β → Prop where
  | ok {a : α} {b : β} (h : R a b) : Concur R (.ok a) (.ok b)
  | error (e : ε) : Concur R (.error e) (.error e)

namespace Concur

variable {ε α β γ δ : Type} {R : α → β → Prop} {Q : γ → δ → Prop}

/-- An outcome concurs with itself where each value is related to itself. -/
theorem refl {R : α → α → Prop} (hR : ∀ a, R a a) (r : Except ε α) : Concur R r r := by
  cases r with
  | error e => exact .error e
  | ok a => exact .ok (hR a)

/-- What follows on related values concurs, and what fails first fails in both. -/
theorem bind {r : Except ε α} {r' : Except ε β} (h : Concur R r r') {f : α → Except ε γ}
    {g : β → Except ε δ} (hf : ∀ a b, R a b → Concur Q (f a) (g b)) :
    Concur Q (r >>= f) (r' >>= g) := by
  cases h with
  | error e => exact .error e
  | ok h => exact hf _ _ h

/-- What is made of related values is related. -/
theorem map {r : Except ε α} {r' : Except ε β} (h : Concur R r r') {f : α → γ} {g : β → δ}
    (hf : ∀ a b, R a b → Q (f a) (g b)) : Concur Q (r.map f) (r'.map g) := by
  cases h with
  | error e => exact .error e
  | ok h => exact .ok (hf _ _ h)

/-- Lists of related elements fail at the same element with the same error, or end in related lists. -/
theorem mapM {f : α → Except ε γ} {g : β → Except ε δ} (hf : ∀ a b, R a b → Concur Q (f a) (g b))
    {as : List α} {bs : List β} (h : List.Forall₂ R as bs) :
    Concur (List.Forall₂ Q) (as.mapM f) (bs.mapM g) := by
  induction h with
  | nil => exact .ok .nil
  | cons hab _ ih =>
    rw [List.mapM_cons, List.mapM_cons]
    refine (hf _ _ hab).bind fun c d hcd => ih.bind fun cs ds hcds => ?_
    exact .ok (.cons hcd hcds)

end Concur

/-! ## Documents -/

/-- What is derived of a document, and what is left of the document without it. -/
class Bare (D : Type) [Document D] where
  /-- The document with nothing in its derived fields. -/
  bare : D → D
  key_bare : ∀ d, key (bare d) = key d
  /-- Nothing is derived from what was derived before. -/
  refresh_bare : ∀ now d, refresh now (bare d) = refresh now d

instance : Bare Process := ⟨fun p => p, fun _ => rfl, fun _ _ => rfl⟩

instance : Bare Dataset := ⟨fun d => d, fun _ => rfl, fun _ _ => rfl⟩

instance : Bare Module := ⟨fun m => m, fun _ => rfl, fun _ _ => rfl⟩

instance : Bare Job where
  bare j := { j with runningDuration := 0, pauseDuration := 0 }
  key_bare _ := rfl
  refresh_bare _ _ := rfl

instance : Bare Task where
  bare t := { t with stageDurations := {}, runningDuration := 0 }
  key_bare _ := rfl
  refresh_bare _ _ := rfl

namespace Document

variable {D α : Type} [Document D] [Bare D] {d e : D}

/-- Two documents differ in derived fields at most. -/
def Akin (d e : D) : Prop := Bare.bare d = Bare.bare e

/-- A store is akin to itself. -/
theorem Akin.refl (d : D) : Akin d d := rfl

/-- What a function says of a document does not depend on derived fields. -/
def Ignores (f : D → α) : Prop := ∀ d, f (Bare.bare d) = f d

/-- What ignores derived fields is the same of akin documents. -/
theorem Ignores.eq {f : D → α} (hf : Ignores f) (h : Akin d e) : f d = f e := by
  have h : Bare.bare d = Bare.bare e := h
  rw [← hf d, h, hf e]

/-- A change that makes the same of a document but for derived fields. -/
theorem Ignores.akin {f : D → D} (hf : Ignores fun d => Bare.bare (f d)) (h : Akin d e) :
    Akin (f d) (f e) := by
  have hbare := hf.eq h
  exact hbare

/-- The key of a document is not derived. -/
theorem Akin.key_eq (h : Akin d e) : key d = key e := Ignores.eq Bare.key_bare h

/-- Akin documents are the same once their derived fields are as they should be. -/
theorem Akin.refresh_eq (h : Akin d e) (now : Millis) : refresh now d = refresh now e :=
  Ignores.eq (Bare.refresh_bare now) h

end Document

open Document (Akin Ignores)

/-! ## Texts -/

/-- Two texts are the same, or akin documents are read from them, or they were written for akin
documents. -/
inductive TextsAkin (D : Type) [Document D] [Bare D] : String → String → Prop where
  | same (text : String) : TextsAkin D text text
  | read {x y : String} {d e : D} (hx : decode x = .ok d) (hy : decode y = .ok e) (h : Akin d e) :
    TextsAkin D x y
  | written {d e : D} (h : Akin d e) : TextsAkin D (encode d) (encode e)

/-- Two texts of a collection differ in derived fields at most; only jobs and tasks have any. -/
def Collection.Akin : Collection → String → String → Prop
  | .jobs => TextsAkin Job
  | .tasks => TextsAkin Task
  | .processes | .datasets | .modules => Eq

theorem Collection.akin_refl (c : Collection) (text : String) : c.Akin text text := by
  cases c with
  | jobs => exact .same text
  | tasks => exact .same text
  | _ => rfl

/-- Akin documents are written as akin texts, and akin texts are read as akin documents. -/
class LawfulBare (D : Type) [Document D] [Bare D] : Prop where
  akin_encode : ∀ {d e : D}, Akin d e → (collection D).Akin (encode d) (encode e)
  concur_decode : ∀ {x y : String}, (collection D).Akin x y →
    Concur (Akin (D := D)) (decode x) (decode y)

section

variable {D : Type} [Document D] [Bare D]

/-- Akin texts are read as akin documents, or fail to be read with the same error. -/
theorem TextsAkin.concur_decode
    (hwritten : ∀ d e : D, Akin d e →
      Concur Akin (decode (D := D) (encode d)) (decode (D := D) (encode e)))
    {x y : String} (h : TextsAkin D x y) : Concur (Akin (D := D)) (decode x) (decode y) := by
  cases h with
  | same => exact .refl Akin.refl _
  | read hx hy h =>
    rw [hx, hy]
    exact .ok h
  | written h => exact hwritten _ _ h

/-- Where nothing is derived, akin documents are the same, and so are akin texts. -/
theorem LawfulBare.of_eq (hbare : ∀ d : D, Bare.bare d = d) (hc : (collection D).Akin = Eq) :
    LawfulBare D where
  akin_encode {d e} h := by
    have h : Bare.bare d = Bare.bare e := h
    rw [hbare, hbare] at h
    rw [hc, h]
  concur_decode h := by
    rw [hc] at h
    rw [h]
    exact .refl Akin.refl _

end

instance : LawfulBare Process := .of_eq (fun _ => rfl) rfl

instance : LawfulBare Dataset := .of_eq (fun _ => rfl) rfl

instance : LawfulBare Module := .of_eq (fun _ => rfl) rfl

instance : LawfulBare Job where
  akin_encode h := .written h
  concur_decode h := by
    refine TextsAkin.concur_decode (fun d e hde => ?_) h
    rw [LawfulDocument.decode_encode, LawfulDocument.decode_encode]
    exact .ok hde

instance : LawfulBare Task where
  akin_encode h := .written h
  concur_decode h := by
    refine TextsAkin.concur_decode (fun t u htu => ?_) h
    -- whether a task is read depends on its qualities, and these are not derived
    have hqualities : t.qualities = u.qualities := Ignores.eq (fun _ => rfl) htu
    rw [Task.decode_encode, Task.decode_encode, hqualities]
    split
    · exact .ok (congrArg Task.reread htu)
    · exact .error _

/-! ## Dictionaries -/

namespace Dict

variable {β : Type} {R : β → β → Prop}

/-- The same keys, with related values. -/
def Akin (R : β → β → Prop) (d e : Dict β) : Prop :=
  List.Forall₂ (fun a b => a.1 = b.1 ∧ R a.2 b.2) d.entries e.entries

/-- Related values that are put under the same key go to the same place. -/
theorem akin_insertEntry {es fs : List (String × β)}
    (h : List.Forall₂ (fun a b => a.1 = b.1 ∧ R a.2 b.2) es fs) (k : String) {v w : β}
    (hvw : R v w) :
    List.Forall₂ (fun a b => a.1 = b.1 ∧ R a.2 b.2) (insertEntry k v es) (insertEntry k w fs) := by
  induction h with
  | nil => exact .cons ⟨rfl, hvw⟩ .nil
  | @cons a b es fs hab hrest ih =>
    -- the two entries have one key, so both insertions go the same way
    have hkey : a.1 = b.1 := hab.1
    simp only [insertEntry, hkey]
    by_cases hlt : k < b.1
    · rw [if_pos hlt, if_pos hlt]
      exact .cons ⟨rfl, hvw⟩ (.cons ⟨rfl, hab.2⟩ hrest)
    · rw [if_neg hlt, if_neg hlt]
      by_cases heq : k = b.1
      · rw [if_pos heq, if_pos heq]
        exact .cons ⟨rfl, hvw⟩ hrest
      · rw [if_neg heq, if_neg heq]
        exact .cons ⟨rfl, hab.2⟩ ih

/-- Related values may be put under the same key. -/
theorem Akin.insert {d e : Dict β} (h : d.Akin R e) (k : String) {v w : β} (hvw : R v w) :
    (d.insert k v).Akin R (e.insert k w) := akin_insertEntry h k hvw

/-- Looking up finds related values, or nothing in both. -/
theorem akin_lookUp? {es fs : List (String × β)}
    (h : List.Forall₂ (fun a b => a.1 = b.1 ∧ R a.2 b.2) es fs) (k : String) :
    Option.Rel R (lookUp? k es) (lookUp? k fs) := by
  induction h with
  | nil => exact .none
  | @cons a b es fs hab _ ih =>
    have hkey : a.1 = b.1 := hab.1
    simp only [lookUp?, hkey]
    by_cases hk : b.1 = k
    · rw [if_pos hk, if_pos hk]
      exact .some hab.2
    · rw [if_neg hk, if_neg hk]
      exact ih

theorem Akin.find? {d e : Dict β} (h : d.Akin R e) (k : String) :
    Option.Rel R (d.find? k) (e.find? k) := akin_lookUp? h k

/-- The values of akin dictionaries are related one by one, in the order of their keys. -/
theorem Akin.values {d e : Dict β} (h : d.Akin R e) : List.Forall₂ R d.values e.values := by
  rw [Dict.values, Dict.values, List.forall₂_map_left_iff, List.forall₂_map_right_iff]
  exact h.imp fun _ _ hab => hab.2

theorem akin_refl (hR : ∀ v, R v v) (d : Dict β) : d.Akin R d :=
  List.forall₂_same.2 fun a _ => ⟨rfl, hR a.2⟩

end Dict

/-! ## Stores -/

namespace Store

variable {D : Type} [Document D] [Bare D] [LawfulBare D] {s t : Store}

/-- Two stores differ at most in the derived fields of jobs and tasks. -/
structure Akin (s t : Store) : Prop where
  tables : ∀ c, (s.table c).Akin c.Akin (t.table c)
  claims : s.ordinalClaims = t.ordinalClaims

theorem Akin.refl (s : Store) : s.Akin s := ⟨fun c => Dict.akin_refl c.akin_refl _, rfl⟩

/-! ### Reading -/

/-- Looking up a document finds akin ones, or fails in both with the same error. -/
theorem Akin.document? (h : s.Akin t) (k : String) :
    Concur (Option.Rel (Document.Akin (D := D))) (s.document? k) (t.document? k) := by
  have hfind := (h.tables (collection D)).find? k
  rw [Store.document?, Store.document?]
  generalize (s.table (collection D)).find? k = x at hfind ⊢
  generalize (t.table (collection D)).find? k = y at hfind ⊢
  cases hfind with
  | none => exact .ok .none
  | some hxy => exact (LawfulBare.concur_decode hxy).map fun _ _ hde => .some hde

/-- All documents of a type are akin one by one. -/
theorem Akin.documents (h : s.Akin t) :
    Concur (List.Forall₂ (Document.Akin (D := D))) (s.documents D) (t.documents D) :=
  Concur.mapM (fun _ _ hxy => LawfulBare.concur_decode hxy) (h.tables (collection D)).values

/-! ### Writing -/

/-- Akin documents are written under the same key. -/
theorem Akin.put (h : s.Akin t) {d e : D} (hde : Document.Akin d e) : (s.put d).Akin (t.put e) := by
  refine ⟨fun c => ?_, ?_⟩
  · rw [Store.put, Store.put, table_insert, table_insert, hde.key_eq]
    split
    case isTrue hc =>
      subst hc
      exact (h.tables _).insert _ (LawfulBare.akin_encode hde)
    case isFalse => exact h.tables c
  · rw [ordinalClaims_put, ordinalClaims_put, h.claims]

/-- Documents that are akin one by one may be written. -/
theorem Akin.putAll (h : s.Akin t) {ds es : List D} (hdes : List.Forall₂ Document.Akin ds es) :
    (s.putAll ds).Akin (t.putAll es) := by
  induction hdes generalizing s t with
  | nil => exact h
  | cons hde _ ih => exact ih (h.put hde)

end Store

/-! ## Worlds -/

/-- Two worlds show the same time, draw the same random numbers and have akin stores. -/
structure World.Akin (w v : World) : Prop where
  store : w.store.Akin v.store
  clock : w.clock = v.clock
  nextDraw : w.nextDraw = v.nextDraw
  drawFailure : w.drawFailure = v.drawFailure

end Fleet
