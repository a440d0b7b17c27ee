import Fleet.Proofs.Store.Steps

/-!
# Bulk changes

A store is known by the texts that are found in it (`ext_find?`), and that is how stores are
compared here. A bulk change rewrites the text under each key of one collection by itself
(`retext`), so what it does is known key by key (`find?_of_updateAll`), in whatever order it writes.
-/

set_option autoImplicit false

namespace Fleet

open Document (collection key encode decode)
open Transaction (updateAll updateAll_eq_ok)

/-- Dictionaries that look up the same are the same. -/
theorem Dict.ext_find? {β : Type} {d e : Dict β} (h : ∀ k, d.find? k = e.find? k) : d = e := by
  have hmem : ∀ a : String × β, a ∈ d.entries ↔ a ∈ e.entries := by
    intro a
    rw [← Dict.find?_eq_some_iff (d := d), ← Dict.find?_eq_some_iff (d := e), h]
  have hnodup (f : Dict β) : f.entries.Nodup := by
    refine f.sorted.imp fun hlt heq => ?_
    rw [heq] at hlt
    exact String.lt_irrefl _ hlt
  have hperm : d.entries.Perm e.entries :=
    (List.perm_ext_iff_of_nodup (hnodup d) (hnodup e)).2 hmem
  -- of the orders of the same entries only one is sorted
  refine Dict.ext (hperm.eq_of_pairwise (fun a b _ _ hab hba => ?_) d.sorted e.sorted)
  exact absurd hba (String.lt_asymm hab)

/-- The later entry counts. -/
theorem Dict.insert_insert {β : Type} (d : Dict β) (key : String) (value value' : β) :
    (d.insert key value).insert key value' = d.insert key value' := by
  refine Dict.ext_find? fun k => ?_
  simp only [Dict.find?_insert]
  split <;> rfl

namespace Store

variable {D : Type} [Document D] {s s' t : Store}

/-! ## Stores by their texts -/

/-- Two stores in which the same texts are found, and with the same last claim, are the same. -/
theorem ext_find? (h : ∀ c k, (s.table c).find? k = (t.table c).find? k)
    (hclaims : s.ordinalClaims = t.ordinalClaims) : s = t :=
  ext_table (fun c => Dict.ext_find? (h c)) hclaims

/-- Writing documents leaves the counter of claims alone. -/
@[simp] theorem ordinalClaims_putAll (s : Store) (ds : List D) :
    (s.putAll ds).ordinalClaims = s.ordinalClaims := by
  induction ds generalizing s with
  | nil => rfl
  | cons d ds ih => rw [putAll_cons, ih, ordinalClaims_put]

/-- Documents are written into the collection of their type. -/
theorem table_putAll_of_ne (s : Store) (ds : List D) {c : Collection} (hc : collection D ≠ c) :
    (s.putAll ds).table c = s.table c := by
  induction ds generalizing s with
  | nil => rfl
  | cons d ds ih => rw [putAll_cons, ih, table_put_of_ne s d hc]

/-- Under a key that none of the documents has nothing changes. -/
theorem find?_putAll_of_forall_ne (s : Store) {ds : List D} (c : Collection) {k : String}
    (h : ∀ d ∈ ds, key d ≠ k) : ((s.putAll ds).table c).find? k = (s.table c).find? k := by
  induction ds generalizing s with
  | nil => rfl
  | cons d ds ih =>
    have hd := h d List.mem_cons_self
    rw [putAll_cons, ih _ fun e he => h e (List.mem_cons_of_mem d he), find?_put,
      if_neg fun hplace => hd hplace.2]

/-- Of documents with different keys each is written. -/
theorem find?_putAll_of_mem (s : Store) {ds : List D} {d : D} (hd : d ∈ ds)
    (hone : ∀ e ∈ ds, key e = key d → e = d) :
    ((s.putAll ds).table (collection D)).find? (key d) = some (encode d) := by
  induction ds generalizing s with
  | nil => cases hd
  | cons e es ih =>
    have hrest : ∀ e' ∈ es, key e' = key d → e' = d :=
      fun e' he' => hone e' (List.mem_cons_of_mem e he')
    rw [putAll_cons]
    by_cases hmem : d ∈ es
    · exact ih _ hmem hrest
    · -- then `d` is written first, and nothing over it
      obtain rfl := (List.mem_cons.1 hd).resolve_right hmem
      have hne : ∀ e' ∈ es, key e' ≠ key d := fun e' he' heq => hmem (hrest e' he' heq ▸ he')
      rw [find?_putAll_of_forall_ne _ _ hne]
      exact has_put_self s d

/-! ## Bulk changes -/

/-- Where all documents are read each text is. -/
theorem exists_decode_of_documents {ds : List D} (h : s.documents D = .ok ds) {k text : String}
    (hfind : (s.table (collection D)).find? k = some text) : ∃ d : D, decode text = .ok d := by
  have hmem : text ∈ (s.table (collection D)).values := Dict.mem_values.2 ⟨k, hfind⟩
  rw [documents] at h
  generalize (s.table (collection D)).values = texts at h hmem
  induction texts generalizing ds with
  | nil => cases hmem
  | cons first rest ih =>
    rw [List.mapM_cons] at h
    cases hfirst : (decode first : Except StateError D) with
    | error e =>
      rw [hfirst] at h
      cases h
    | ok d =>
      -- reading all succeeded, so the first and the rest did
      cases hrest : rest.mapM (decode : String → Except StateError D) with
      | error e =>
        rw [hfirst, hrest] at h
        cases h
      | ok ds' =>
        rcases List.mem_cons.1 hmem with rfl | hmem
        · exact ⟨d, hfirst⟩
        · exact ih hrest hmem

/-- The text that a bulk change makes of a text. -/
def retext (test : D → Bool) (change : D → D) (text : String) : String :=
  match (decode text : Except StateError D) with
  | .ok d => if test d then encode (change d) else text
  | .error _ => text

/-- A text is written anew where its document passes the test. -/
theorem retext_of_decode {test : D → Bool} {change : D → D} {text : String} {d : D}
    (h : decode text = .ok d) :
    retext test change text = if test d then encode (change d) else text := by
  rw [retext, h]

/-- A bulk change rewrites the texts of its collection, each under its key. -/
theorem WellFormed.find?_of_updateAll [Filed D] [LawfulKey D] (hs : s.WellFormed)
    {test : D → Bool} {change : D → D} (hkey : ∀ d, key (change d) = key d) {n : Nat}
    (h : updateAll test change s = .ok (n, s')) (c : Collection) (k : String) :
    (s'.table c).find? k =
      if collection D = c then ((s.table c).find? k).map (retext test change)
      else (s.table c).find? k := by
  obtain ⟨ds, hds, -, rfl⟩ := updateAll_eq_ok.1 h
  split
  case isFalse hc => rw [table_putAll_of_ne s _ hc]
  case isTrue hc =>
  subst hc
  -- what is written under a key is the change of what is read under it
  have hwritten : ∀ e ∈ (ds.filter test).map change, key e = k →
      ∃ d, s.document? k = .ok (some d) ∧ test d = true ∧ change d = e := by
    intro e he hek
    obtain ⟨d, hd, rfl⟩ := List.mem_map.1 he
    obtain ⟨hmem, htest⟩ := List.mem_filter.1 hd
    obtain ⟨k', hk'⟩ := (Store.mem_documents hds).1 hmem
    have hk : k' = k := by rw [← hs.key_eq_of_document? hk', ← hkey, hek]
    exact ⟨d, hk ▸ hk', htest, rfl⟩
  cases hfind : (s.table (collection D)).find? k with
  | none =>
    have hnone : s.document? (D := D) k = .ok none := document?_eq_ok_none.2 hfind
    refine (find?_putAll_of_forall_ne s _ fun e he hek => ?_).trans hfind
    obtain ⟨d, hd, -⟩ := hwritten e he hek
    rw [hnone] at hd
    cases hd
  | some text =>
    obtain ⟨d, hdecode⟩ := exists_decode_of_documents hds hfind
    have hd : s.document? k = .ok (some d) := Store.document?_eq_ok_some.2 ⟨text, hfind, hdecode⟩
    have hdk : key d = k := hs.key_eq_of_document? hd
    rw [Option.map_some, retext_of_decode hdecode]
    split
    case isTrue htest =>
      have hmem : change d ∈ (ds.filter test).map change :=
        List.mem_map_of_mem (List.mem_filter.2 ⟨(Store.mem_documents hds).2 ⟨k, hd⟩, htest⟩)
      have hk : key (change d) = k := (hkey d).trans hdk
      rw [← hk]
      refine find?_putAll_of_mem s hmem fun e he hek => ?_
      obtain ⟨d', hd', -, rfl⟩ := hwritten e he (hek.trans hk)
      rw [hd] at hd'
      cases hd'
      rfl
    case isFalse htest =>
      refine (find?_putAll_of_forall_ne s _ fun e he hek => ?_).trans hfind
      obtain ⟨d', hd', htest', -⟩ := hwritten e he hek
      rw [hd] at hd'
      cases hd'
      exact htest htest'

end Store

end Fleet
