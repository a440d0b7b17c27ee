import Fleet.Caller
import Fleet.Proofs.Store.Readable

/-!
# What a caller sees of a store

Jobs and tasks have owners, and a caller sees some of them and not the others. Two stores are alike
to a caller (`Store.Alike`) if the caller sees the same jobs and tasks in both, and the other
tables, which everyone sees, are the same. Of what is hidden nothing is said: there may be more of
it in one store than in the other, and other things under the same keys.

Two facts about this carry all that follows. A selection of documents that the caller sees is the
same list in both stores, in the same order (`SeesSame.filter_documents_eq`). And a document that
the caller sees may be written to both stores; they are alike behind it, and if nothing hidden was
in its place what is hidden stays as it is (`Alike.put`, `KeepsHidden.put`).
-/

set_option autoImplicit false

namespace Fleet

open Document (collection key encode decode)

/-! ## Owners -/

/-- Documents that belong to a user, also when they are read back. -/
class Owned (D : Type) [Document D] where
  owner : D → String
  owner_of_decode : ∀ d e : D, decode (encode d) = .ok e → owner e = owner d

instance : Owned Job where
  owner := Job.user
  owner_of_decode j i h := by
    rw [LawfulDocument.decode_encode, Except.ok.injEq] at h
    rw [h]

instance : Owned Task where
  owner := Task.user
  owner_of_decode t u h := by
    obtain ⟨_, _, _, _, rfl⟩ := Task.of_decode_encode h
    rfl

/-- The caller sees the document. -/
def Caller.sees {D : Type} [Document D] [Owned D] (c : Caller) (d : D) : Bool :=
  c.canSee (Owned.owner d)

namespace Store

/-! ## One kind of documents -/

section

variable {D : Type} [Document D] [Owned D] {caller : Caller} {s s' t : Store}

variable (D) in
/-- The caller sees the same documents of the type in both stores. -/
def SeesSame (caller : Caller) (s t : Store) : Prop :=
  ∀ k (d : D), caller.sees d = true → (s.document? k = .ok (some d) ↔ t.document? k = .ok (some d))

variable (D) in
/-- Where a document is read that the caller does not see, be it before or after, the text is the same
before and after. -/
def HiddenStays (caller : Caller) (s s' : Store) : Prop :=
  ∀ k (d : D), caller.sees d = false →
    s.document? k = .ok (some d) ∨ s'.document? k = .ok (some d) →
    (s'.table (collection D)).find? k = (s.table (collection D)).find? k

/-- What a caller sees of a collection depends on it only. -/
theorem SeesSame.of_table {t' : Store} (h : SeesSame D caller s t)
    (hs : s'.table (collection D) = s.table (collection D))
    (ht : t'.table (collection D) = t.table (collection D)) : SeesSame D caller s' t' := by
  intro k d hd
  rw [document?_eq_of_table hs, document?_eq_of_table ht]
  exact h k d hd

/-- Putting one document into both keeps what is seen the same. -/
theorem SeesSame.put (h : SeesSame D caller s t) (d : D) :
    SeesSame D caller (s.put d) (t.put d) := by
  intro k e he
  rw [document?_put, document?_put]
  split
  · exact Iff.rfl
  · exact h k e he

/-- What is read back of a document has its owner, though perhaps other qualities. -/
theorem sees_of_document?_put {d e : D} (h : (s.put d).document? (key d) = .ok (some e)) :
    caller.sees e = caller.sees d := by
  rw [document?_put, if_pos rfl] at h
  cases hdecode : (decode (encode d) : Except StateError D) with
  | error _ =>
    rw [hdecode] at h
    cases h
  | ok d' =>
    rw [hdecode] at h
    cases h
    rw [Caller.sees, Owned.owner_of_decode d _ hdecode, Caller.sees]

/-- Putting a hidden document into one of them does so too. -/
theorem SeesSame.put_hidden (h : SeesSame D caller s t) {d : D} (hd : caller.sees d = false)
    (hnone : (t.table (collection D)).find? (key d) = none) : SeesSame D caller s (t.put d) := by
  intro k e he
  by_cases hk : key d = k
  case neg =>
    rw [document?_put, if_neg hk]
    exact h k e he
  case pos =>
    subst hk
    -- the caller sees nothing there, neither before nor after
    constructor
    · intro hs
      have ht := (h _ e he).1 hs
      rw [document?_eq_ok_none.2 hnone] at ht
      cases ht
    · intro ht
      rw [sees_of_document?_put ht, hd] at he
      cases he

/-- What stays twice stays. -/
theorem HiddenStays.trans {s'' : Store} (h : HiddenStays D caller s s')
    (h' : HiddenStays D caller s' s'') : HiddenStays D caller s s'' := by
  intro k d hd hread
  -- what is read at either end is also read in the middle, so both parts keep the text
  rcases hread with hread | hread
  · have hkept := h k d hd (.inl hread)
    exact (h' k d hd (.inl ((document?_eq_of_find? hkept).trans hread))).trans hkept
  · have hkept := h' k d hd (.inr hread)
    exact hkept.trans (h k d hd (.inr ((document?_eq_of_find? hkept).symm.trans hread)))

/-- Nothing hidden is changed where the collection stays. -/
theorem HiddenStays.of_table (h : s'.table (collection D) = s.table (collection D)) :
    HiddenStays D caller s s' := fun k _ _ _ => congrArg (Dict.find? · k) h

/-- Nothing is written over what is hidden, and nothing hidden is written. -/
theorem HiddenStays.put {d : D} (hd : caller.sees d = true)
    (hs : ∀ e : D, s.document? (key d) = .ok (some e) → caller.sees e = true) :
    HiddenStays D caller s (s.put d) := by
  intro k e he hread
  by_cases hk : key d = k
  case neg => rw [find?_put, if_neg fun h => hk h.2]
  case pos =>
    subst hk
    -- what is read under the key is the document, or what it has replaced
    have hsees : caller.sees e = true := by
      rcases hread with hread | hread
      · exact hs e hread
      · rw [sees_of_document?_put hread]
        exact hd
    rw [hsees] at he
    cases he

/-- **A selection of what the caller sees is the same in both stores.** -/
theorem SeesSame.filter_documents_eq [Filed D] [LawfulKey D] (h : SeesSame D caller s t)
    (hs : s.WellFormed) (ht : t.WellFormed) {ds es : List D} (hds : s.documents D = .ok ds)
    (hes : t.documents D = .ok es) {test : D → Bool}
    (hseen : ∀ d ∈ ds, test d = true → caller.sees d = true)
    (hseen' : ∀ e ∈ es, test e = true → caller.sees e = true) :
    ds.filter test = es.filter test := by
  -- what is selected is seen, and what is seen is in both stores
  have hmem : ∀ d, d ∈ ds.filter test ↔ d ∈ es.filter test := by
    intro d
    rw [List.mem_filter, List.mem_filter]
    constructor
    · rintro ⟨hd, htest⟩
      obtain ⟨k, hk⟩ := (mem_documents hds).1 hd
      exact ⟨(mem_documents hes).2 ⟨k, (h k d (hseen d hd htest)).1 hk⟩, htest⟩
    · rintro ⟨hd, htest⟩
      obtain ⟨k, hk⟩ := (mem_documents hes).1 hd
      exact ⟨(mem_documents hds).2 ⟨k, (h k d (hseen' d hd htest)).2 hk⟩, htest⟩
  have hperm : (ds.filter test).Perm (es.filter test) :=
    (List.perm_ext_iff_of_nodup ((hs.nodup_documents hds).filter _)
      ((ht.nodup_documents hes).filter _)).2 hmem
  -- both are in the order of the keys, and of the orders of the same documents only one is
  refine hperm.eq_of_pairwise (fun a b _ _ hab hba => ?_) ((hs.pairwise_documents hds).filter _)
    ((ht.pairwise_documents hes).filter _)
  exact absurd hba (String.lt_asymm hab)

end

/-! ## All documents -/

variable {caller : Caller} {s s' t : Store}

/-- To the caller the stores are alike: what everyone sees is the same in both, and so are the jobs
and the tasks that the caller sees. -/
structure Alike (caller : Caller) (s t : Store) : Prop where
  processes : s.table .processes = t.table .processes
  datasets : s.table .datasets = t.table .datasets
  modules : s.table .modules = t.table .modules
  jobs : SeesSame Job caller s t
  tasks : SeesSame Task caller s t

/-- What the caller does not see is the same before and after, and so is what everyone sees. -/
structure KeepsHidden (caller : Caller) (s s' : Store) : Prop where
  table_of_ne : ∀ c, c ≠ .jobs → c ≠ .tasks → s'.table c = s.table c
  jobs : HiddenStays Job caller s s'
  tasks : HiddenStays Task caller s s'

/-- Nothing hidden is changed where nothing happens. -/
theorem KeepsHidden.refl (caller : Caller) (s : Store) : s.KeepsHidden caller s :=
  ⟨fun _ _ _ => rfl, .of_table rfl, .of_table rfl⟩

/-- What stays twice stays, in each collection. -/
theorem KeepsHidden.trans {s'' : Store} (h : s.KeepsHidden caller s')
    (h' : s'.KeepsHidden caller s'') :
    s.KeepsHidden caller s'' where
  table_of_ne c hjobs htasks := (h'.table_of_ne c hjobs htasks).trans (h.table_of_ne c hjobs htasks)
  jobs := h.jobs.trans h'.jobs
  tasks := h.tasks.trans h'.tasks

/-- The documents of the type are those of which callers do not see all. -/
class Private (D : Type) [Document D] [Owned D] : Prop where
  seesSame : ∀ {caller s t}, Alike caller s t → SeesSame D caller s t
  /-- Where nothing but documents of the type was written they alone are to be compared. -/
  alike_of : ∀ {caller s s' t t'}, Alike caller s t →
    (∀ c, collection D ≠ c → s'.table c = s.table c) →
    (∀ c, collection D ≠ c → t'.table c = t.table c) → SeesSame D caller s' t' → Alike caller s' t'
  keepsHidden_of : ∀ {caller s s'}, (∀ c, collection D ≠ c → s'.table c = s.table c) →
    HiddenStays D caller s s' → KeepsHidden caller s s'

instance : Private Job where
  seesSame h := h.jobs
  alike_of h hs ht hjobs := {
    processes := (hs .processes nofun).trans (h.processes.trans (ht .processes nofun).symm)
    datasets := (hs .datasets nofun).trans (h.datasets.trans (ht .datasets nofun).symm)
    modules := (hs .modules nofun).trans (h.modules.trans (ht .modules nofun).symm)
    jobs := hjobs
    tasks := h.tasks.of_table (hs .tasks nofun) (ht .tasks nofun) }
  keepsHidden_of hs hjobs :=
    ⟨fun c hc _ => hs c hc.symm, hjobs, .of_table (hs .tasks nofun)⟩

instance : Private Task where
  seesSame h := h.tasks
  alike_of h hs ht htasks := {
    processes := (hs .processes nofun).trans (h.processes.trans (ht .processes nofun).symm)
    datasets := (hs .datasets nofun).trans (h.datasets.trans (ht .datasets nofun).symm)
    modules := (hs .modules nofun).trans (h.modules.trans (ht .modules nofun).symm)
    jobs := h.jobs.of_table (hs .jobs nofun) (ht .jobs nofun)
    tasks := htasks }
  keepsHidden_of hs htasks :=
    ⟨fun c _ hc => hs c hc.symm, .of_table (hs .jobs nofun), htasks⟩

section

variable {D : Type} [Document D] [Owned D] [Private D]

/-- Stores that are alike show the same of each collection. -/
theorem Alike.seesSame (h : s.Alike caller t) : SeesSame D caller s t := Private.seesSame h

/-- Putting one document into both keeps them alike. -/
theorem Alike.put (h : s.Alike caller t) (d : D) : (s.put d).Alike caller (t.put d) :=
  Private.alike_of h (fun _ => table_put_of_ne s d) (fun _ => table_put_of_ne t d)
    (h.seesSame.put d)

/-- Where nothing was there may be something hidden. -/
theorem Alike.put_hidden (h : s.Alike caller t) {d : D} (hd : caller.sees d = false)
    (hnone : (t.table (collection D)).find? (key d) = none) : s.Alike caller (t.put d) :=
  Private.alike_of h (fun _ _ => rfl) (fun _ => table_put_of_ne t d)
    (h.seesSame.put_hidden hd hnone)

/-- Under a key the caller sees the same document in both stores, or nothing in either of them. -/
theorem Alike.document?_cases [Filed D] [LawfulKey D] [Decoded D] (h : s.Alike caller t)
    (hs : s.Clear) (ht : t.Clear) (k : String) :
    (∃ d : D, caller.sees d = true ∧ s.document? k = .ok (some d) ∧ t.document? k = .ok (some d)) ∨
      ∃ found found' : Option D, s.document? k = .ok found ∧ t.document? k = .ok found' ∧
        ∀ d, found = some d ∨ found' = some d → key d = k ∧ caller.sees d = false := by
  obtain ⟨found, hfound⟩ := hs.exists_document? (D := D) k
  obtain ⟨found', hfound'⟩ := ht.exists_document? (D := D) k
  -- a document that is seen is the same in both, and one that is hidden may be there or not
  by_cases hsees : ∃ d : D, caller.sees d = true ∧ s.document? k = .ok (some d)
  case pos =>
    obtain ⟨d, hd, hds⟩ := hsees
    exact .inl ⟨d, hd, hds, (h.seesSame k d hd).1 hds⟩
  case neg =>
    refine .inr ⟨found, found', hfound, hfound', ?_⟩
    rintro d (rfl | rfl)
    · refine ⟨hs.wellFormed.key_eq_of_document? hfound, ?_⟩
      exact Bool.eq_false_of_not_eq_true fun hd => hsees ⟨d, hd, hfound⟩
    · refine ⟨ht.wellFormed.key_eq_of_document? hfound', ?_⟩
      exact Bool.eq_false_of_not_eq_true fun hd => hsees ⟨d, hd, (h.seesSame k d hd).2 hfound'⟩

/-- Putting a document that is seen changes nothing hidden, if nothing hidden was there. -/
theorem KeepsHidden.put {d : D} (hd : caller.sees d = true)
    (hs : ∀ e : D, s.document? (key d) = .ok (some e) → caller.sees e = true) :
    s.KeepsHidden caller (s.put d) :=
  Private.keepsHidden_of (fun _ => table_put_of_ne s d) (.put hd hs)

end

end Store

end Fleet
