import Fleet.Proofs.Store.Rewriting

/-!
# Stores that can be read

A store that was written document by document can be read but for its tasks
(`Collection.Writes.reads`), and a task can be read exactly if its qualities are finite. If all of
them can, the store is *clear* (`Store.Clear`). Nothing that reads a clear store fails for it, so a
transaction that fails on one refuses what is asked for and says why. This is proved along the
functions that transactions are made of (`Transaction.ReadsOn`).
-/

set_option autoImplicit false

namespace Fleet

open Document (collection key encode decode)

/-! ## Texts -/

/-- A text of a collection can be read. -/
def Collection.Reads : Collection → (text : String) → Prop
  | .processes, text => ∃ p : Process, decode text = .ok p
  | .jobs, text => ∃ j : Job, decode text = .ok j
  | .tasks, text => ∃ t : Task, decode text = .ok t
  | .datasets, text => ∃ d : Dataset, decode text = .ok d
  | .modules, text => ∃ m : Module, decode text = .ok m

/-- The texts of a type are read as documents of the type. -/
class Decoded (D : Type) [Document D] : Prop where
  reads_iff : ∀ text, (collection D).Reads text ↔ ∃ d : D, decode text = .ok d

instance : Decoded Process := ⟨fun _ => Iff.rfl⟩

instance : Decoded Job := ⟨fun _ => Iff.rfl⟩

instance : Decoded Task := ⟨fun _ => Iff.rfl⟩

instance : Decoded Dataset := ⟨fun _ => Iff.rfl⟩

instance : Decoded Module := ⟨fun _ => Iff.rfl⟩

/-- Only what was written for a task may not be readable. -/
theorem Collection.Writes.reads {c : Collection} {k text : String} (h : c.Writes k text)
    (hc : c ≠ .tasks) : c.Reads text := by
  cases c with
  | processes =>
    obtain ⟨p, -, rfl⟩ := h
    exact ⟨p, LawfulDocument.decode_encode p⟩
  | jobs =>
    obtain ⟨j, -, rfl⟩ := h
    exact ⟨j, LawfulDocument.decode_encode j⟩
  | tasks => exact absurd rfl hc
  | datasets =>
    obtain ⟨d, -, rfl⟩ := h
    exact ⟨d, LawfulDocument.decode_encode d⟩
  | modules =>
    obtain ⟨m, -, rfl⟩ := h
    exact ⟨m, LawfulDocument.decode_encode m⟩

/-! ## Stores -/

namespace Store

variable {s s' : Store} {c : Collection} {k : String}

/-- Every text of the collection can be read. -/
def Readable (s : Store) (c : Collection) : Prop :=
  ∀ k text, (s.table c).find? k = some text → c.Reads text

/-- Where nothing lies there is nothing that cannot be read. -/
theorem readable_empty (c : Collection) : Readable .empty c := by
  intro k text h
  cases c <;> cases h

/-- A text that can be read may be put anywhere. -/
theorem Readable.insert (hs : s.Readable c) {c' : Collection} {text : String}
    (htext : c'.Reads text) (k : String) : (s.insert c' k text).Readable c := by
  intro k' text' h
  rw [table_insert] at h
  split at h
  case isTrue hc =>
    subst hc
    rw [Dict.find?_insert] at h
    split at h
    case isTrue =>
      obtain rfl := Option.some.inj h
      exact htext
    case isFalse => exact hs k' text' h
  case isFalse => exact hs k' text' h

section

variable {D : Type} [Document D] [Decoded D]

/-- A document that is read as it was written may be written. -/
theorem Readable.put [LawfulDocument D] (hs : s.Readable c) (d : D) : (s.put d).Readable c :=
  hs.insert ((Decoded.reads_iff _).2 ⟨d, LawfulDocument.decode_encode d⟩) _

/-- Looking up a document does not fail. -/
theorem Readable.exists_document? (h : s.Readable (collection D)) (k : String) :
    ∃ found : Option D, s.document? k = .ok found := by
  cases hfind : (s.table (collection D)).find? k with
  | none => exact ⟨none, document?_eq_ok_none.2 hfind⟩
  | some text =>
    obtain ⟨d, hd⟩ := (Decoded.reads_iff (D := D) text).1 (h k text hfind)
    exact ⟨some d, document?_eq_ok_some.2 ⟨text, hfind, hd⟩⟩

/-- Texts that are read under their own keys can be read. -/
theorem Keyed.readable (h : s.Keyed D) : s.Readable (collection D) := by
  intro k text hfind
  obtain ⟨d, hd, -⟩ := h k text hfind
  exact (Decoded.reads_iff text).2 ⟨d, hd⟩

/-- Reading all documents does not fail. -/
theorem Readable.exists_documents (h : s.Readable (collection D)) :
    ∃ ds : List D, s.documents D = .ok ds := by
  refine exists_mapM_eq_ok fun text htext => ?_
  obtain ⟨k, hk⟩ := Dict.mem_values.1 htext
  exact (Decoded.reads_iff (D := D) text).1 (h k text hk)

end

/-! ### Tasks -/

/-- The task that is stored under a key, if one is, has finite qualities. -/
def Legible (s : Store) (key : String) : Prop :=
  ∀ t : Task, s.Has t → t.id = key → ∀ x ∈ t.qualities, x.isFinite = true

/-- A task whose qualities are all finite can be read. -/
theorem WellFormed.exists_document?_of_legible (hs : s.WellFormed) (h : s.Legible k) :
    ∃ found : Option Task, s.document? k = .ok found := by
  cases hfind : (s.table (Document.collection Task)).find? k with
  | none => exact ⟨none, document?_eq_ok_none.2 hfind⟩
  | some text =>
    obtain ⟨t, hkey, rfl, ht⟩ := hs.exists_has (D := Task) hfind
    exact ⟨_, Store.document?_eq_ok_some.2 ⟨_, hfind, Task.decode_encode_of_isFinite (h t ht hkey)⟩⟩

/-- A quality that is not finite is written as nothing, which no task is read from. -/
theorem document?_of_not_legible (h : ¬ s.Legible k) :
    s.document? (D := Task) k = .error (.deserialize "not a task") := by
  simp only [Legible, not_forall] at h
  obtain ⟨t, ht, rfl, x, hmem, hx⟩ := h
  have hfind : (s.table (Document.collection Task)).find? t.id = some (encode t) := ht
  rw [document?, hfind]
  simp only [Task.decode_encode_of_not_isFinite hmem (Bool.not_eq_true _ ▸ hx)]
  rfl

/-- Then not all tasks can be read either. -/
theorem WellFormed.documents_of_not_legible (hs : s.WellFormed) (h : ¬ s.Legible k) :
    s.documents Task = .error (.deserialize "not a task") := by
  cases hts : s.documents Task with
  | ok ts =>
    -- where all tasks are read the one under the key is
    have hk := document?_of_not_legible h
    have hread : s.Readable (collection Task) := fun k text hfind =>
      exists_decode_of_documents hts hfind
    obtain ⟨found, hfound⟩ := hread.exists_document? (D := Task) k
    rw [hk] at hfound
    cases hfound
  | error e =>
    obtain ⟨k', hk'⟩ := exists_of_documents_eq_error hts
    by_cases hlegible : s.Legible k'
    · obtain ⟨found, hfound⟩ := hs.exists_document?_of_legible hlegible
      rw [hfound] at hk'
      cases hk'
    · rw [document?_of_not_legible hlegible] at hk'
      rw [Except.error.inj hk']

/-- Of a store that was written document by document only tasks may not be readable. -/
theorem WellFormed.readable (hs : s.WellFormed) (htasks : ∀ k, s.Legible k) (c : Collection) :
    s.Readable c := by
  intro k text hfind
  have hwrites := hs c k text hfind
  by_cases hc : c = .tasks
  · subst hc
    obtain ⟨t, rfl, rfl⟩ := hwrites
    exact ⟨_, Task.decode_encode_of_isFinite (htasks t.id t hfind rfl)⟩
  · exact hwrites.reads hc

/-! ### Clear stores -/

/-- The store was written document by document, and its tasks can be read. -/
structure Clear (s : Store) : Prop where
  wellFormed : s.WellFormed
  tasks : s.Readable .tasks

theorem clear_empty : Clear .empty := ⟨wellFormed_empty, nofun⟩

/-- Where every quality is finite everything can be read. -/
theorem Clear.readable (hs : s.Clear) (c : Collection) : s.Readable c := by
  by_cases hc : c = .tasks
  · rw [hc]
    exact hs.tasks
  · exact fun k text hfind => (hs.wellFormed c k text hfind).reads hc

/-- Looking up a document does not fail. -/
theorem Clear.exists_document? {D : Type} [Document D] [Decoded D] (hs : s.Clear) (k : String) :
    ∃ found : Option D, s.document? k = .ok found := (hs.readable _).exists_document? k

variable (D : Type) [Document D] [Decoded D] in
/-- Reading all documents does not fail. -/
theorem Clear.exists_documents (hs : s.Clear) : ∃ ds : List D, s.documents D = .ok ds :=
  (hs.readable _).exists_documents

/-- Where the tasks are as they were the store stays clear. -/
theorem Clear.of_table (hs : s.Clear) (hs' : s'.WellFormed) (h : s'.table .tasks = s.table .tasks) :
    s'.Clear := by
  refine ⟨hs', fun k text hfind => ?_⟩
  rw [h] at hfind
  exact hs.tasks k text hfind

/-- A task with finite qualities may be written. -/
theorem Clear.put_task (hs : s.Clear) {t : Task} (ht : ∀ x ∈ t.qualities, x.isFinite = true) :
    (s.put t).Clear := by
  refine ⟨hs.wellFormed.put t, fun k text hfind => ?_⟩
  rw [find?_put] at hfind
  split at hfind
  case isTrue =>
    cases hfind
    exact ⟨_, Task.decode_encode_of_isFinite ht⟩
  case isFalse => exact hs.tasks k text hfind

/-- The qualities of a task that was read are finite: others have no text. -/
theorem WellFormed.isFinite_of_document? (hs : s.WellFormed) {t : Task}
    (h : s.document? k = .ok (some t)) : ∀ x ∈ t.qualities, x.isFinite = true := by
  obtain ⟨text, hfind, hdecode⟩ := Store.document?_eq_ok_some.1 h
  obtain ⟨t₀, -, rfl, -⟩ := hs.exists_has (D := Task) hfind
  rw [Task.decode_encode] at hdecode
  split at hdecode
  case isFalse => cases hdecode
  case isTrue hfinite =>
    cases hdecode
    intro x hx
    obtain ⟨y, hy, rfl⟩ : ∃ y ∈ t₀.qualities, Binary64.reread y = x := by
      simpa [Task.qualities, Task.reread, eq_comm] using hx
    exact Json.isFinite_reread (hfinite y hy)

end Store

/-! ## Transactions -/

namespace Transaction

variable {α β : Type} {s : Store}

/-- The transaction does not fail on the store for a text that cannot be read. -/
def ReadsOn (t : Transaction α) (s : Store) : Prop := ∀ text, t s ≠ .error (.deserialize text)

/-- What comes to an end has read all that it asked for. -/
theorem readsOn_of_ok {t : Transaction α} {r : α × Store} (h : t s = .ok r) : t.ReadsOn s := by
  intro text
  rw [h]
  nofun

theorem readsOn_pure (a : α) : (pure a : Transaction α).ReadsOn s := nofun

/-- Giving up for another reason than a text that cannot be read. -/
theorem readsOn_throw {e : StateError} (he : ∀ text, e ≠ .deserialize text) :
    (throw e : Transaction α).ReadsOn s := by
  intro text h
  have herror : (throw e : Transaction α) s = .error e := rfl
  rw [herror] at h
  exact he text (Except.error.inj h)

/-- An outcome that is no failure to read. -/
theorem readsOn_liftM {r : Except StateError α} (hr : ∀ text, r ≠ .error (.deserialize text)) :
    (liftM r : Transaction α).ReadsOn s := by
  intro text h
  cases r with
  | ok a => cases h
  | error e =>
    have herror : (liftM (Except.error e : Except StateError α) : Transaction α) s = .error e := rfl
    rw [herror] at h
    exact hr text (congrArg Except.error (Except.error.inj h))

theorem readsOn_modify (f : Store → Store) : (modify f : Transaction PUnit).ReadsOn s := nofun

/-- One transaction behind another one runs on the store that this leaves. -/
theorem ReadsOn.bind {t : Transaction α} {f : α → Transaction β} (ht : t.ReadsOn s)
    (hf : ∀ a s', t s = .ok (a, s') → (f a).ReadsOn s') : (t >>= f).ReadsOn s := by
  intro text h
  rcases bind_eq_error.1 h with h | ⟨a, s', hok, h⟩
  · exact ht text h
  · exact hf a s' hok text h

/-- What is made of the answer does not matter. -/
theorem ReadsOn.map {t : Transaction α} (ht : t.ReadsOn s) (f : α → β) : (f <$> t).ReadsOn s := by
  rw [← bind_pure_comp]
  exact ht.bind fun a _ _ => readsOn_pure (f a)

/-- One for each element of a list, where none writes. -/
theorem ReadsOn.mapM {f : α → Transaction β} (honly : ∀ a, ReadsOnly (f a))
    (hf : ∀ a, (f a).ReadsOn s) (as : List α) : (as.mapM f).ReadsOn s := by
  induction as with
  | nil => exact readsOn_pure []
  | cons a as ih =>
    rw [List.mapM_cons]
    refine (hf a).bind fun b s' hb => ?_
    rw [honly a s b s' hb]
    exact ih.bind fun bs _ _ => readsOn_pure (b :: bs)

/-- Behind a transaction that only reads the store is the same. -/
theorem ReadsOn.bind_readsOnly {t : Transaction α} {f : α → Transaction β} (ht : t.ReadsOn s)
    (honly : ReadsOnly t) (hf : ∀ a, t s = .ok (a, s) → (f a).ReadsOn s) : (t >>= f).ReadsOn s := by
  refine ht.bind fun a s' ha => ?_
  obtain rfl := honly s a s' ha
  exact hf a ha

section

variable {D : Type} [Document D] [Decoded D]

/-- Looking for a document. -/
theorem readsOn_find? (hs : s.Clear) (k : String) : (find? (D := D) k).ReadsOn s := by
  obtain ⟨found, hfound⟩ := hs.exists_document? (D := D) k
  exact readsOn_of_ok (find?_eq_ok.2 ⟨hfound, rfl⟩)

/-- Looking for the documents that pass a test. -/
theorem readsOn_matching (hs : s.Clear) (test : D → Bool) : (matching test).ReadsOn s := by
  obtain ⟨ds, hds⟩ := hs.exists_documents D
  exact readsOn_of_ok (matching_eq_ok.2 ⟨ds, hds, rfl, rfl⟩)

/-- That a document is missing is no failure to read it. -/
theorem readsOn_require (hs : s.Clear) (k : String) : (require (D := D) k).ReadsOn s := by
  refine (readsOn_find? hs k).bind fun found s' _ => ?_
  cases found with
  | none => exact readsOn_throw nofun
  | some d => exact readsOn_pure d

theorem readsOn_fetch? (hs : s.Clear) (now : Millis) (k : String) :
    (fetch? (D := D) now k).ReadsOn s := (readsOn_find? hs k).bind fun _ _ _ => readsOn_pure _

theorem readsOn_fetch (hs : s.Clear) (now : Millis) (k : String) :
    (fetch (D := D) now k).ReadsOn s := (readsOn_require hs k).bind fun _ _ _ => readsOn_pure _

/-- Telling all documents that pass a test. -/
theorem readsOn_scan (hs : s.Clear) (now : Millis) (test : D → Bool) : (scan now test).ReadsOn s :=
  (readsOn_matching hs test).bind fun _ _ _ => readsOn_pure _

/-- Counting documents. -/
theorem readsOn_count (hs : s.Clear) (test : D → Bool) : (count test).ReadsOn s :=
  (readsOn_matching hs test).bind fun _ _ _ => readsOn_pure _

/-- A new document is written without looking at what lies under its key. -/
theorem readsOn_insertNew (hs : s.Clear) (d : D) : (insertNew d).ReadsOn s := by
  refine (readsOn_find? hs _).bind fun found s' _ => ?_
  cases found with
  | none => exact readsOn_modify _
  | some e => exact readsOn_throw nofun

/-- The counter is no text. -/
theorem readsOn_nextClaim : nextClaim.ReadsOn s :=
  ReadsOn.bind (t := get) (readsOn_of_ok rfl) fun _ _ _ =>
    (readsOn_modify _).bind fun _ _ _ => readsOn_pure _

/-- A change of a document, where the change itself reads what it asks for. -/
theorem readsOn_update (hs : s.Clear) {now : Millis} {k : String} {change : D → Transaction D}
    (hchange : ∀ d, (change d).ReadsOn s) : (update now k change).ReadsOn s := by
  refine (readsOn_require hs k).bind_readsOnly (readsOnly_require k) fun d _ => ?_
  exact (hchange d).bind fun d' _ _ => (readsOn_modify _).bind fun _ _ _ => readsOn_pure _

/-- A change of the first document in an order. -/
theorem readsOn_updateFirst (hs : s.Clear) (now : Millis) (test : D → Bool)
    (order : D → D → Ordering) (change : D → D) :
    (updateFirst now test order change).ReadsOn s := by
  refine (readsOn_matching hs test).bind fun ds s' _ => ?_
  split
  · exact readsOn_pure none
  · exact (readsOn_modify _).bind fun _ _ _ => readsOn_pure _

/-- A change of all documents that pass a test. -/
theorem readsOn_updateAll (hs : s.Clear) (test : D → Bool) (change : D → D) :
    (updateAll test change).ReadsOn s :=
  (readsOn_matching hs test).bind fun _ _ _ => (readsOn_modify _).bind fun _ _ _ => readsOn_pure _

end

/-- That the holder is another one is no failure to read. -/
theorem readsOn_release {D : Type} [Leasable D] [Decoded D] (hs : s.Clear) (k process : String) :
    (release D k process).ReadsOn s := by
  refine (readsOn_find? hs k).bind fun found s' _ => ?_
  cases found with
  | none => exact readsOn_throw nofun
  | some d =>
    simp only
    split
    · exact readsOn_modify _
    · exact readsOn_throw nofun

end Transaction

end Fleet
