import Fleet.Store.Basic
import Fleet.Proofs.Store.Codec

/-!
# Stored documents

A store that only ever got documents by `put` is well-formed: every text in a table was written for a
document that has the text's key. `Store.Has s d` says that a document is stored as it is written;
`find?_put` says what a `put` does to every table, and all else here follows from it.

Documents that are read back as they were written can be spoken of without their texts: in a
well-formed store the documents that are read are exactly the stored ones (`mem_documents`,
`document?_eq_ok_some`).
-/

set_option autoImplicit false

namespace Fleet

open Document (collection key encode decode exists_of_decode_eq_error)

/-- The text is one that is written for the document of a collection with a key. -/
def Collection.Writes : Collection → (key text : String) → Prop
  | .processes, key, text => ∃ p : Process, p.id = key ∧ encode p = text
  | .jobs, key, text => ∃ j : Job, j.id = key ∧ encode j = text
  | .tasks, key, text => ∃ t : Task, t.id = key ∧ encode t = text
  | .datasets, key, text => ∃ d : Dataset, d.id = key ∧ encode d = text
  | .modules, key, text => ∃ m : Module, m.id = key ∧ encode m = text

/-- The documents of a type are those of its collection. -/
class Filed (D : Type) [Document D] : Prop where
  writes_iff : ∀ key text, (collection D).Writes key text ↔
    ∃ d : D, Document.key d = key ∧ encode d = text

instance : Filed Process := ⟨fun _ _ => Iff.rfl⟩

instance : Filed Job := ⟨fun _ _ => Iff.rfl⟩

instance : Filed Task := ⟨fun _ _ => Iff.rfl⟩

instance : Filed Dataset := ⟨fun _ _ => Iff.rfl⟩

instance : Filed Module := ⟨fun _ _ => Iff.rfl⟩

/-- Documents without doubles have different texts. -/
theorem LawfulDocument.encode_inj {D : Type} [Document D] [LawfulDocument D] {d e : D}
    (h : encode d = encode e) : d = e := by
  have hdecode := decode_encode d
  rw [h, decode_encode e] at hdecode
  exact (Except.ok.inj hdecode).symm

/-- The values are what is found under the keys. -/
theorem Dict.mem_values {β : Type} {d : Dict β} {value : β} :
    value ∈ d.values ↔ ∃ key, d.find? key = some value := by
  constructor
  · intro h
    obtain ⟨⟨key, value⟩, hmem, rfl⟩ := List.mem_map.1 h
    exact ⟨key, Dict.find?_eq_some_iff.2 hmem⟩
  · rintro ⟨key, h⟩
    exact List.mem_map.2 ⟨_, Dict.find?_eq_some_iff.1 h, rfl⟩

/-- No key comes twice. -/
theorem Dict.nodup_keys {β : Type} (d : Dict β) : d.keys.Nodup := by
  rw [Dict.keys, List.Nodup, List.pairwise_map]
  refine d.sorted.imp fun hlt heq => ?_
  rw [heq] at hlt
  exact String.lt_irrefl _ hlt

namespace Store

variable {D : Type} [Document D] {s : Store}

/-! ## Putting -/

/-- A text that is put into one collection leaves the others alone. -/
theorem table_insert (s : Store) (c c' : Collection) (k text : String) :
    (s.insert c k text).table c' = if c = c' then (s.table c').insert k text else s.table c' := by
  rw [insert, table_withTable]
  split
  case isTrue h => rw [h]
  case isFalse => rfl

/-- Putting a document changes the text under its key of its collection and no other. -/
theorem find?_put (s : Store) (d : D) (c : Collection) (k : String) :
    ((s.put d).table c).find? k =
      if collection D = c ∧ key d = k then some (encode d) else (s.table c).find? k := by
  rw [put, table_insert]
  by_cases hc : collection D = c
  · rw [if_pos hc, Dict.find?_insert]
    simp [hc]
  · rw [if_neg hc, if_neg fun h => hc h.1]

/-- Writing a document leaves the counter of claims alone. -/
@[simp] theorem ordinalClaims_put (s : Store) (d : D) :
    (s.put d).ordinalClaims = s.ordinalClaims := ordinalClaims_withTable s _ _

/-- A document is written into the collection of its type. -/
theorem table_put_of_ne (s : Store) (d : D) {c : Collection} (hc : collection D ≠ c) :
    (s.put d).table c = s.table c := by
  rw [put, table_insert, if_neg hc]

/-- The first document is written first. -/
theorem putAll_cons (s : Store) (d : D) (ds : List D) : s.putAll (d :: ds) = (s.put d).putAll ds :=
  rfl

/-! ## Well-formed stores -/

/-- Every text was written for a document that has its key. -/
def WellFormed (s : Store) : Prop :=
  ∀ c k text, (s.table c).find? k = some text → c.Writes k text

theorem wellFormed_empty : WellFormed .empty := by
  intro c k text h
  cases c <;> cases h

/-- What is written lies under its own key. -/
theorem WellFormed.put [Filed D] (hs : s.WellFormed) (d : D) : (s.put d).WellFormed := by
  intro c k text h
  rw [find?_put] at h
  split at h
  case isTrue hkey =>
    obtain ⟨rfl, rfl⟩ := hkey
    cases h
    exact (Filed.writes_iff _ _).2 ⟨d, rfl, rfl⟩
  case isFalse => exact hs c k text h

/-- Well-formedness is a matter of the tables alone. -/
theorem WellFormed.of_table {s' : Store} (hs : s.WellFormed) (h : ∀ c, s'.table c = s.table c) :
    s'.WellFormed := by
  intro c k text hfind
  rw [h c] at hfind
  exact hs c k text hfind

/-! ## Stored documents -/

/-- The document is stored, under its key and as it is written. -/
def Has (s : Store) (d : D) : Prop := (s.table (collection D)).find? (key d) = some (encode d)

/-- A document that was written is there. -/
theorem has_put_self (s : Store) (d : D) : (s.put d).Has d := by
  rw [Has, find?_put, if_pos ⟨rfl, rfl⟩]

/-- Where nothing is there is no document either. -/
theorem Has.key_ne {d : D} (h : s.Has d) {k : String}
    (hnone : (s.table (collection D)).find? k = none) :
    key d ≠ k := by
  rintro rfl
  cases hnone.symm.trans h

/-- Documents with other keys are there as before. -/
theorem has_put_of_ne {d e : D} (h : key e ≠ key d) : (s.put d).Has e ↔ s.Has e := by
  rw [Has, find?_put, if_neg fun hkey => h hkey.2.symm, Has]

/-- Putting a document of another collection leaves the stored documents alone. -/
theorem has_put_of_collection_ne {E : Type} [Document E] (d : D) {e : E}
    (h : collection D ≠ collection E) : (s.put d).Has e ↔ s.Has e := by
  rw [Has, table_put_of_ne s d h, Has]

/-- Each text is the text of a document. -/
theorem WellFormed.exists_has [Filed D] (hs : s.WellFormed) {k text : String}
    (h : (s.table (collection D)).find? k = some text) :
    ∃ d : D, key d = k ∧ encode d = text ∧ s.Has d := by
  obtain ⟨d, rfl, rfl⟩ := (Filed.writes_iff k text).1 (hs _ _ _ h)
  exact ⟨d, rfl, rfl, h⟩

/-! ## Reading -/

/-- A document is read where a text lies that can be read. -/
theorem document?_eq_ok_some {k : String} {d : D} : s.document? k = .ok (some d) ↔
    ∃ text, (s.table (collection D)).find? k = some text ∧ decode text = .ok d := by
  unfold document?
  cases (s.table (collection D)).find? k with
  | none => simp
  | some text => cases hdecode : (decode text : Except StateError D) <;> simp [Except.map, hdecode]

/-- Under one key there is one document. -/
theorem eq_of_document? {k : String} {d d' : D} (h : s.document? k = .ok (some d))
    (h' : s.document? k = .ok (some d')) : d = d' :=
  Option.some.inj (Except.ok.inj (h.symm.trans h'))

/-- No document is read exactly where no text lies. -/
theorem document?_eq_ok_none {k : String} : s.document? (D := D) k = .ok none ↔
    (s.table (collection D)).find? k = none := by
  unfold document?
  cases (s.table (collection D)).find? k with
  | none => simp
  | some text => cases hdecode : (decode text : Except StateError D) <;> simp [Except.map, hdecode]

/-- Looking for a document fails for a text that cannot be read only. -/
theorem exists_of_document?_eq_error {k : String} {e : StateError}
    (h : s.document? (D := D) k = .error e) : ∃ message, e = .deserialize message := by
  unfold document? at h
  cases hfind : (s.table (collection D)).find? k with
  | none =>
    rw [hfind] at h
    cases h
  | some text =>
    cases hdecode : (decode text : Except StateError D) with
    | ok d => simp [hfind, hdecode, Except.map] at h
    | error e' =>
      simp only [hfind, hdecode, Except.map, Except.error.injEq] at h
      exact h ▸ exists_of_decode_eq_error hdecode

/-- What is read under a key depends on the text there alone. -/
theorem document?_eq_of_find? {t : Store} {k : String}
    (h : (s.table (collection D)).find? k = (t.table (collection D)).find? k) :
    s.document? (D := D) k = t.document? k := by
  rw [document?, document?, h]

/-- What is read depends on the collection only. -/
theorem document?_eq_of_table {t : Store} (h : s.table (collection D) = t.table (collection D))
    (k : String) : s.document? (D := D) k = t.document? k :=
  document?_eq_of_find? (congrArg (Dict.find? · k) h)

/-- The document that was written is read as its text is read, which need not be as it was. -/
theorem document?_put (s : Store) (d : D) (k : String) :
    (s.put d).document? (D := D) k =
      if key d = k then (decode (encode d)).map some else s.document? k := by
  rw [document?, find?_put]
  by_cases hk : key d = k
  · rw [if_pos ⟨rfl, hk⟩, if_pos hk]
  · rw [if_neg fun h => hk h.2, if_neg hk]
    rfl

/-- Reading every item of a list yields exactly what reading some item of it yields. -/
theorem mem_of_mapM_eq_ok {ε α β : Type} {f : α → Except ε β} {as : List α} {bs : List β}
    (h : as.mapM f = .ok bs) {b : β} : b ∈ bs ↔ ∃ a ∈ as, f a = .ok b := by
  induction as generalizing bs with
  | nil =>
    cases h
    simp
  | cons a as ih =>
    rw [List.mapM_cons] at h
    cases ha : f a with
    | error e => simp [ha, bind, Except.bind] at h
    | ok c =>
      cases has : as.mapM f with
      | error e => simp [ha, has, bind, Except.bind] at h
      | ok cs =>
        simp only [ha, has, bind, Except.bind, pure, Except.pure, Except.ok.injEq] at h
        subst h
        simp [ih has, ha, eq_comm]

/-- Where no element fails the list does not fail. -/
theorem exists_mapM_eq_ok {ε α β : Type} {f : α → Except ε β} {as : List α}
    (h : ∀ a ∈ as, ∃ b, f a = .ok b) : ∃ bs, as.mapM f = .ok bs := by
  induction as with
  | nil => exact ⟨[], rfl⟩
  | cons a as ih =>
    obtain ⟨b, hb⟩ := h a List.mem_cons_self
    obtain ⟨bs, hbs⟩ := ih fun c hc => h c (List.mem_cons_of_mem a hc)
    exact ⟨b :: bs, by rw [List.mapM_cons, hb, hbs]; rfl⟩

/-- A list fails for one of its elements, with the same error. -/
theorem exists_of_mapM_eq_error {ε α β : Type} {f : α → Except ε β} {as : List α} {e : ε}
    (h : as.mapM f = .error e) : ∃ a ∈ as, f a = .error e := by
  induction as with
  | nil => cases h
  | cons a as ih =>
    rw [List.mapM_cons] at h
    cases ha : f a with
    | error e' =>
      rw [ha] at h
      cases h
      exact ⟨a, List.mem_cons_self, ha⟩
    | ok b =>
      -- the first element is fine, so it was one of the others
      cases has : as.mapM f with
      | error e' =>
        rw [ha, has] at h
        cases h
        obtain ⟨c, hc, hfault⟩ := ih has
        exact ⟨c, List.mem_cons_of_mem a hc, hfault⟩
      | ok bs =>
        rw [ha, has] at h
        cases h

/-- Reading all documents fails only where reading one of them does. -/
theorem exists_of_documents_eq_error {e : StateError} (h : s.documents D = .error e) :
    ∃ k, s.document? (D := D) k = .error e := by
  obtain ⟨text, htext, hdecode⟩ := exists_of_mapM_eq_error h
  obtain ⟨k, hk⟩ := Dict.mem_values.1 htext
  refine ⟨k, ?_⟩
  rw [document?, hk]
  simp only [hdecode]
  rfl

/-- All documents are those that can be looked up. -/
theorem mem_documents {ds : List D} (h : s.documents D = .ok ds) {d : D} :
    d ∈ ds ↔ ∃ k, s.document? k = .ok (some d) := by
  rw [mem_of_mapM_eq_ok h]
  -- the texts of a table are those under its keys
  constructor
  · rintro ⟨text, htext, hdecode⟩
    obtain ⟨k, hk⟩ := Dict.mem_values.1 htext
    exact ⟨k, document?_eq_ok_some.2 ⟨text, hk, hdecode⟩⟩
  · rintro ⟨k, hk⟩
    obtain ⟨text, hk, hdecode⟩ := document?_eq_ok_some.1 hk
    exact ⟨text, Dict.mem_values.2 ⟨k, hk⟩, hdecode⟩

/-- What is read under a key has this key. -/
theorem WellFormed.key_eq_of_document? [Filed D] [LawfulKey D] (hs : s.WellFormed) {k : String}
    {d : D} (h : s.document? k = .ok (some d)) : key d = k := by
  obtain ⟨text, hfind, hdecode⟩ := Store.document?_eq_ok_some.1 h
  obtain ⟨e, rfl, rfl, -⟩ := hs.exists_has (D := D) hfind
  exact LawfulKey.key_of_decode e d hdecode

/-- Where each document is read with the key of its place, the documents that are read have the keys
of the table, in its order. -/
theorem map_key_documents (hread : ∀ k (d : D), s.document? k = .ok (some d) → key d = k)
    {ds : List D} (h : s.documents D = .ok ds) : ds.map key = (s.table (collection D)).keys := by
  have hkey : ∀ e ∈ (s.table (collection D)).entries, ∀ d : D, decode e.2 = .ok d →
      key d = e.1 := by
    intro e he d hd
    have hfind := Dict.find?_eq_some_iff.2 he
    exact hread e.1 d (Store.document?_eq_ok_some.2 ⟨e.2, hfind, hd⟩)
  rw [documents, Dict.values] at h
  rw [Dict.keys]
  -- One entry after the other; each is read as one document with its key.
  generalize (s.table (collection D)).entries = es at h hkey
  induction es generalizing ds with
  | nil =>
    cases h
    rfl
  | cons e es ih =>
    rw [List.map_cons, List.mapM_cons] at h
    cases hdecode : (decode e.2 : Except StateError D) with
    | error _ =>
      rw [hdecode] at h
      cases h
    | ok d =>
      cases hrest : (es.map Prod.snd).mapM (decode : String → Except StateError D) with
      | error _ =>
        rw [hdecode, hrest] at h
        cases h
      | ok ds' =>
        rw [hdecode, hrest] at h
        cases h
        rw [List.map_cons, List.map_cons, hkey e List.mem_cons_self d hdecode,
          ih hrest fun e' he' => hkey e' (List.mem_cons_of_mem e he')]

/-- The documents are read in strictly increasing order of their keys. -/
theorem pairwise_documents (hread : ∀ k (d : D), s.document? k = .ok (some d) → key d = k)
    {ds : List D} (h : s.documents D = .ok ds) : ds.Pairwise fun d e => key d < key e := by
  rw [← List.pairwise_map (R := (· < ·)), map_key_documents hread h]
  exact List.pairwise_map.2 (s.table (collection D)).sorted

/-- In a well-formed store the documents come with the keys under which they lie. -/
theorem WellFormed.map_key_documents [Filed D] [LawfulKey D] (hs : s.WellFormed) {ds : List D}
    (h : s.documents D = .ok ds) : ds.map key = (s.table (collection D)).keys :=
  Store.map_key_documents (fun _ _ => hs.key_eq_of_document?) h

/-- In a well-formed store the documents come in the order of their keys. -/
theorem WellFormed.pairwise_documents [Filed D] [LawfulKey D] (hs : s.WellFormed) {ds : List D}
    (h : s.documents D = .ok ds) : ds.Pairwise fun d e => key d < key e :=
  Store.pairwise_documents (fun _ _ => hs.key_eq_of_document?) h

/-- In a well-formed store no two documents have the same key. -/
theorem WellFormed.nodup_map_key_documents [Filed D] [LawfulKey D] (hs : s.WellFormed) {ds : List D}
    (h : s.documents D = .ok ds) : (ds.map key).Nodup := by
  rw [hs.map_key_documents h]
  exact Dict.nodup_keys _

/-- In a well-formed store no document comes twice. -/
theorem WellFormed.nodup_documents [Filed D] [LawfulKey D] (hs : s.WellFormed) {ds : List D}
    (h : s.documents D = .ok ds) : ds.Nodup :=
  List.Pairwise.of_map key (fun _ _ hne heq => hne (heq ▸ rfl)) (hs.nodup_map_key_documents h)

/-! ### Documents in their places -/

variable (D) in
/-- Each text of a type of documents is read, as a document with the key of its place. -/
def Keyed (s : Store) : Prop :=
  ∀ k text, (s.table (collection D)).find? k = some text → ∃ d : D, decode text = .ok d ∧ key d = k

variable (D) in
/-- Each document of a type that is read lies under its own key. -/
def Homes (s : Store) : Prop := ∀ k (d : D), s.document? k = .ok (some d) → key d = k

/-- Whether documents lie under their keys depends on their collection only. -/
theorem Homes.of_table {t : Store} (hs : s.Homes D)
    (h : t.table (collection D) = s.table (collection D)) : t.Homes D := by
  intro k d hd
  rw [document?, h] at hd
  exact hs k d hd

/-- Whether all texts can be read depends on their collection only. -/
theorem Keyed.of_table {t : Store} (hs : s.Keyed D)
    (h : t.table (collection D) = s.table (collection D)) : t.Keyed D := by
  rw [Keyed, h]
  exact hs

/-- Looking up a document does not fail. -/
theorem Keyed.exists_document? (hs : s.Keyed D) (k : String) :
    ∃ found : Option D, s.document? k = .ok found := by
  cases hfind : (s.table (collection D)).find? k with
  | none => exact ⟨none, document?_eq_ok_none.2 hfind⟩
  | some text =>
    obtain ⟨d, hd, -⟩ := hs k text hfind
    exact ⟨some d, document?_eq_ok_some.2 ⟨text, hfind, hd⟩⟩

/-- What is read under a key has this key. -/
theorem Keyed.key_eq (hs : s.Keyed D) {k : String} {d : D} (h : s.document? k = .ok (some d)) :
    key d = k := by
  obtain ⟨text, hfind, hd⟩ := document?_eq_ok_some.1 h
  obtain ⟨d', hd', hkey⟩ := hs k text hfind
  obtain rfl : d = d' := Except.ok.inj (hd.symm.trans hd')
  exact hkey

theorem Keyed.homes (hs : s.Keyed D) : s.Homes D := fun _ _ h => hs.key_eq h

/-- Reading all documents does not fail. -/
theorem Keyed.exists_documents (hs : s.Keyed D) : ∃ ds : List D, s.documents D = .ok ds := by
  refine exists_mapM_eq_ok fun text htext => ?_
  obtain ⟨k, hfind⟩ := Dict.mem_values.1 htext
  obtain ⟨d, hd, -⟩ := hs k text hfind
  exact ⟨d, hd⟩

section

variable [LawfulDocument D]

/-- A document that is read as it was written is found under its key. -/
theorem Has.document? {d : D} (h : s.Has d) : s.document? (key d) = .ok (some d) :=
  document?_eq_ok_some.2 ⟨_, h, LawfulDocument.decode_encode d⟩

/-- Under one key there is one document. -/
theorem Has.eq_of_key_eq {d e : D} (hd : s.Has d) (he : s.Has e) (hkey : key d = key e) :
    d = e := by
  have htext : (s.table (collection D)).find? (key d) = some (encode d) := hd
  rw [hkey, show (s.table (collection D)).find? (key e) = some (encode e) from he] at htext
  exact LawfulDocument.encode_inj (Option.some.inj htext).symm

/-- Behind a write there are the new document and those with other keys. -/
theorem has_put_iff {d e : D} : (s.put d).Has e ↔ e = d ∨ key e ≠ key d ∧ s.Has e := by
  by_cases hkey : key e = key d
  · -- under the key there is but one text now, that of `d`
    constructor
    · intro he
      exact .inl (he.eq_of_key_eq (has_put_self s d) hkey)
    · rintro (rfl | ⟨hne, -⟩)
      · exact has_put_self s _
      · exact absurd hkey hne
  · rw [has_put_of_ne hkey]
    constructor
    · intro he
      exact .inr ⟨hkey, he⟩
    · rintro (rfl | ⟨-, he⟩)
      · exact absurd rfl hkey
      · exact he

/-- A document that is read as it was written may be written. -/
theorem Keyed.put (hs : s.Keyed D) (d : D) : (s.put d).Keyed D := by
  intro k text hfind
  rw [find?_put] at hfind
  split at hfind
  case isTrue hplace =>
    cases hfind
    exact ⟨d, LawfulDocument.decode_encode d, hplace.2⟩
  case isFalse => exact hs k text hfind

/-- Whatever is written lies under its own key. -/
theorem Homes.put (hs : s.Homes D) (d : D) : (s.put d).Homes D := by
  intro k e he
  rw [document?_put, LawfulDocument.decode_encode] at he
  split at he
  case isTrue hkey =>
    cases he
    exact hkey
  case isFalse => exact hs k e he

/-- Documents that are read as they were written may be written. -/
theorem Keyed.putAll (hs : s.Keyed D) (ds : List D) : (s.putAll ds).Keyed D := by
  induction ds generalizing s with
  | nil => exact hs
  | cons d ds ih => exact ih (hs.put d)

/-- Texts of documents that are read as they were written can all be read. -/
theorem WellFormed.keyed [Filed D] (hs : s.WellFormed) : s.Keyed D := by
  intro k text hfind
  obtain ⟨d, hkey, rfl, -⟩ := hs.exists_has hfind
  exact ⟨d, LawfulDocument.decode_encode d, hkey⟩

/-- In a well-formed store reading under a key finds the stored document with this key. -/
theorem WellFormed.document?_eq_ok_some [Filed D] (hs : s.WellFormed) {k : String} {d : D} :
    s.document? k = .ok (some d) ↔ s.Has d ∧ key d = k := by
  constructor
  · intro h
    obtain ⟨text, hfind, hdecode⟩ := Store.document?_eq_ok_some.1 h
    obtain ⟨e, rfl, rfl, he⟩ := hs.exists_has (D := D) hfind
    rw [LawfulDocument.decode_encode, Except.ok.injEq] at hdecode
    subst hdecode
    exact ⟨he, rfl⟩
  · rintro ⟨hd, rfl⟩
    exact hd.document?

/-- All documents are those that are there. -/
theorem WellFormed.mem_documents [Filed D] (hs : s.WellFormed) {ds : List D}
    (h : s.documents D = .ok ds) {d : D} : d ∈ ds ↔ s.Has d := by
  rw [Store.mem_documents h]
  constructor
  · rintro ⟨k, hk⟩
    exact (hs.document?_eq_ok_some.1 hk).1
  · intro hd
    exact ⟨key d, hd.document?⟩

/-- Looking up a document does not fail. -/
theorem WellFormed.exists_document? [Filed D] (hs : s.WellFormed) (k : String) :
    ∃ found : Option D, s.document? k = .ok found := by
  cases hfind : (s.table (collection D)).find? k with
  | none => exact ⟨none, document?_eq_ok_none.2 hfind⟩
  | some text =>
    obtain ⟨d, rfl, rfl, hd⟩ := hs.exists_has (D := D) hfind
    exact ⟨some d, hd.document?⟩

variable (D) in
/-- In a well-formed store every document can be read. -/
theorem WellFormed.exists_documents [Filed D] (hs : s.WellFormed) :
    ∃ ds : List D, s.documents D = .ok ds := by
  refine exists_mapM_eq_ok fun text htext => ?_
  obtain ⟨k, hk⟩ := Dict.mem_values.1 htext
  obtain ⟨d, -, rfl, -⟩ := hs.exists_has (D := D) hk
  exact ⟨d, LawfulDocument.decode_encode d⟩

/-- Documents are read where their texts are all that there is. -/
theorem documents_of_values {ds : List D} (h : (s.table (collection D)).values = ds.map encode) :
    s.documents D = .ok ds := by
  have hread : (fun d : D => decode (encode d) : D → Except StateError D) = fun d => pure d :=
    funext LawfulDocument.decode_encode
  rw [documents, h, List.mapM_map, Function.comp_def, hread, List.mapM_pure, List.map_id']
  rfl

/-- Where there was nothing there is one document now. -/
theorem documents_put_of_empty (hnone : s.table (collection D) = .empty) (d : D) :
    (s.put d).documents D = .ok [d] := by
  have htable : (s.put d).table (collection D) = Dict.empty.insert (key d) (encode d) := by
    rw [put, table_insert, if_pos rfl, hnone]
  refine documents_of_values ?_
  rw [htable]
  rfl

end

end Store

end Fleet
