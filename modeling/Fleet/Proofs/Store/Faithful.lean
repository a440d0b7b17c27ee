import Fleet.Proofs.Store.Rewriting

/-!
# Faithful stores

A store is *regular* if each of its texts is read as a document that is written as this text again.
That says nothing of where the text lies. A document that does not lie under its own key is found by
a scan and missed by its key, and what is written for it goes to another place than it was read
from, so a store of which more is to be said has every document at home, too (`Store.Homed`).

A faithful store with every document at home is *regular* (`Store.regular_iff`). There a text and
its document are as good as each other, so what a transaction does is known from what it makes of
the documents (`Store.Maps`), each by itself. Only the qualities of a task may be at odds with its
text, and no change below touches them, so a regular store stays one.
-/

set_option autoImplicit false

namespace Fleet

open Document (collection key encode decode)
open Transaction (updateAll lease release releaseHeld commit_eq_ok)

/-! ## Documents that are read as they are -/

/-- The document is read from its text as it is. -/
def Document.Sound {D : Type} [Document D] (d : D) : Prop := decode (encode d) = .ok d

open Document (Sound)

/-- A task is read as it is exactly if each of its qualities is finite and comes back from its
numeral as it was. -/
theorem Task.sound_iff {t : Task} :
    Sound t ↔ ∀ x ∈ t.qualities, x.isFinite = true ∧ x.reread = x := by
  rw [Sound, Task.decode_encode]
  constructor
  · intro h
    split at h
    case isFalse => cases h
    case isTrue hfinite =>
      have hreread : t.reread = t := Except.ok.inj h
      -- the tasks are the same, so their qualities are the same one by one
      have hqualities : t.qualities.map Binary64.reread = t.qualities :=
        congrArg Task.qualities hreread
      rw [← List.map_id t.qualities, List.map_map, List.map_inj_left] at hqualities
      exact fun x hx => ⟨hfinite x hx, hqualities x hx⟩
  · intro h
    rw [if_pos fun x hx => (h x hx).1]
    simp only [Task.qualities, List.forall_mem_cons] at h
    obtain ⟨hquality, hqualityTrain, hqualityExpected, haltQualities⟩ := h
    have halt : t.altQualities.map Binary64.reread = t.altQualities :=
      (List.map_congr_left fun x hx => (haltQualities x hx).2).trans (List.map_id t.altQualities)
    rw [Task.reread, hquality.2, hqualityTrain.2, hqualityExpected.2, halt]

/-- Only the qualities of a task matter. -/
theorem Task.sound_of_qualities_eq {t t' : Task} (ht : Sound t) (h : t'.qualities = t.qualities) :
    Sound t' := by
  rw [Task.sound_iff, h]
  exact Task.sound_iff.1 ht

namespace Store

variable {s s' s'' : Store}

section

variable {D : Type} [Document D]

variable (D) in
/-- Each text of a type of documents is read as a document that is written as this text again, under
the same key. -/
def RegularOn (s : Store) : Prop :=
  ∀ k text, (s.table (collection D)).find? k = some text →
    ∃ d : D, decode text = .ok d ∧ key d = k ∧ encode d = text

/-- Only the collection counts. -/
theorem RegularOn.of_table (hs : s.RegularOn D)
    (h : s'.table (collection D) = s.table (collection D)) :
    s'.RegularOn D := by
  rw [RegularOn, h]
  exact hs

/-- A regular collection can be read, and each document lies under its key. -/
theorem RegularOn.keyed (hs : s.RegularOn D) : s.Keyed D := by
  intro k text hfind
  obtain ⟨d, hd, hkey, -⟩ := hs k text hfind
  exact ⟨d, hd, hkey⟩

/-- Looking up a document does not fail. -/
theorem RegularOn.exists_document? (hs : s.RegularOn D) (k : String) :
    ∃ found : Option D, s.document? k = .ok found := hs.keyed.exists_document? k

/-- The text is the one that is written for what is read. -/
theorem RegularOn.find?_eq (hs : s.RegularOn D) {k : String} {found : Option D}
    (h : s.document? k = .ok found) :
    (s.table (collection D)).find? k = found.map encode := by
  cases found with
  | none => exact document?_eq_ok_none.1 h
  | some d =>
    obtain ⟨text, hfind, hd⟩ := document?_eq_ok_some.1 h
    obtain ⟨d', hd', -, htext⟩ := hs k text hfind
    obtain rfl : d = d' := Except.ok.inj (hd.symm.trans hd')
    rw [hfind, Option.map_some, htext]

theorem RegularOn.key_eq (hs : s.RegularOn D) {k : String} {d : D}
    (h : s.document? k = .ok (some d)) :
    key d = k := hs.keyed.key_eq h

/-- What is read was written as it is. -/
theorem RegularOn.sound (hs : s.RegularOn D) {k : String} {d : D}
    (h : s.document? k = .ok (some d)) :
    Sound d := by
  obtain ⟨text, hfind, hd⟩ := document?_eq_ok_some.1 h
  obtain ⟨d', hd', -, rfl⟩ := hs k text hfind
  obtain rfl : d = d' := Except.ok.inj (hd.symm.trans hd')
  exact hd

/-- Reading all documents does not fail. -/
theorem RegularOn.exists_documents (hs : s.RegularOn D) : ∃ ds : List D, s.documents D = .ok ds :=
  hs.keyed.exists_documents

/-- Texts of documents that are read as they are are read as these documents, in whatever places
they lie. -/
theorem documents_of_sound {ds : List D} (hds : ∀ d ∈ ds, Sound d)
    (h : (s.table (collection D)).values = ds.map encode) : s.documents D = .ok ds := by
  rw [documents, h]
  clear h
  induction ds with
  | nil => rfl
  | cons d ds ih =>
    obtain ⟨hd, hds⟩ := List.forall_mem_cons.1 hds
    rw [List.map_cons, List.mapM_cons, show decode (encode d) = .ok d from hd, ih hds]
    rfl

/-- Where each document is written as a function says, it is read so. -/
theorem RegularOn.of_find? (hs : s.RegularOn D) {f : D → D} (hkey : ∀ d, key (f d) = key d)
    (hsound : ∀ d, Sound d → Sound (f d))
    (hfind : ∀ k (d : Option D), s.document? k = .ok d →
      (s'.table (collection D)).find? k = d.map fun d => encode (f d)) :
    s'.RegularOn D ∧
      ∀ k (d : Option D), s.document? k = .ok d → s'.document? k = .ok (d.map f) := by
  refine ⟨fun k text htext => ?_, fun k found hfound => ?_⟩
  · obtain ⟨found, hfound⟩ := hs.exists_document? k
    rw [hfind k found hfound] at htext
    obtain ⟨d, rfl, rfl⟩ := Option.map_eq_some_iff.1 htext
    exact ⟨f d, hsound d (hs.sound hfound), (hkey d).trans (hs.key_eq hfound), rfl⟩
  · have htext := hfind k found hfound
    cases found with
    | none => exact document?_eq_ok_none.2 htext
    | some d => exact document?_eq_ok_some.2 ⟨_, htext, hsound d (hs.sound hfound)⟩

/-! ## What becomes of the documents of a type -/

/-- Each document of a type was changed as a function says, and nothing else. -/
structure Maps (f : D → D) (s s' : Store) : Prop where
  regularOn : s'.RegularOn D
  documents : ∀ k (found : Option D), s.document? k = .ok found → s'.document? k = .ok (found.map f)
  table : ∀ c, c ≠ collection D → s'.table c = s.table c
  claims : s'.ordinalClaims = s.ordinalClaims

/-- Nothing was changed. -/
theorem Maps.refl (hs : s.RegularOn D) : Maps (fun d : D => d) s s where
  regularOn := hs
  documents k found h := by rw [Option.map_id']; exact h
  table _ _ := rfl
  claims := rfl

/-- One change behind the other. -/
theorem Maps.trans {f g : D → D} (h : Maps f s s') (h' : Maps g s' s'') :
    Maps (fun d => g (f d)) s s'' where
  regularOn := h'.regularOn
  documents k found hfound := by
    rw [h'.documents k _ (h.documents k found hfound), Option.map_map]
    rfl
  table c hc := (h'.table c hc).trans (h.table c hc)
  claims := h'.claims.trans h.claims

/-- Only the documents that are stored count. -/
theorem Maps.congr {f g : D → D} (h : Maps f s s')
    (hfg : ∀ k d, s.document? k = .ok (some d) → f d = g d) : Maps g s s' := by
  refine ⟨h.regularOn, fun k found hfound => ?_, h.table, h.claims⟩
  rw [h.documents k found hfound]
  cases found with
  | none => rfl
  | some d => rw [Option.map_some, Option.map_some, hfg k d hfound]

/-- What is read afterwards was made of what was read before. -/
theorem Maps.exists_of_document? {f : D → D} (h : Maps f s s') (hs : s.RegularOn D) {k : String}
    {d' : D}
    (hd' : s'.document? k = .ok (some d')) : ∃ d : D, s.document? k = .ok (some d) ∧ f d = d' := by
  obtain ⟨found, hfound⟩ := hs.exists_document? k
  rw [h.documents k found hfound] at hd'
  obtain ⟨d, rfl, hd⟩ := Option.map_eq_some_iff.1 (Except.ok.inj hd')
  exact ⟨d, hfound, hd⟩

/-- A change of the document under a key. -/
def changeAt (k : String) (f : D → D) (d : D) : D := if key d = k then f d else d

theorem changeAt_of_eq {k : String} {f : D → D} {d : D} (h : key d = k) : changeAt k f d = f d :=
  if_pos h

theorem changeAt_of_ne {k : String} {f : D → D} {d : D} (h : key d ≠ k) : changeAt k f d = d :=
  if_neg h

/-- A change of one document that keeps its key keeps all keys. -/
theorem key_changeAt {k : String} {f : D → D} (hf : ∀ d, key (f d) = key d) (d : D) :
    key (changeAt k f d) = key d := by
  by_cases h : key d = k
  · rw [changeAt_of_eq h, hf]
  · rw [changeAt_of_ne h]

/-- Two changes under one key are one change. -/
theorem changeAt_changeAt {k : String} {f g : D → D} (hf : ∀ d, key (f d) = key d) (d : D) :
    changeAt k g (changeAt k f d) = changeAt k (fun d => g (f d)) d := by
  by_cases h : key d = k
  · rw [changeAt_of_eq h, changeAt_of_eq h, changeAt_of_eq ((hf d).trans h)]
  · rw [changeAt_of_ne h, changeAt_of_ne h, changeAt_of_ne h]

/-- Of a change under a key only the document that lies there counts. -/
theorem Maps.congr_at {k : String} {f g : D → D} (h : Maps (changeAt k f) s s') (hs : s.RegularOn D)
    (hfg : ∀ d, s.document? k = .ok (some d) → f d = g d) : Maps (changeAt k g) s s' := by
  refine h.congr fun k' d hd => ?_
  by_cases hk : key d = k
  · rw [changeAt_of_eq hk, changeAt_of_eq hk]
    rw [← hs.key_eq hd, hk] at hd
    exact hfg d hd
  · rw [changeAt_of_ne hk, changeAt_of_ne hk]

/-- A change that changes nothing. -/
theorem maps_changeAt_of_eq (hs : s.RegularOn D) {k : String} {f : D → D}
    (hf : ∀ d, s.document? k = .ok (some d) → f d = d) : Maps (changeAt k f) s s := by
  have hid : Maps (changeAt k fun d : D => d) s s :=
    (Maps.refl hs).congr fun _ d _ => (ite_self d).symm
  exact hid.congr_at hs fun d hd => (hf d hd).symm

/-- A document that is read as it is may be written. -/
theorem RegularOn.put (hs : s.RegularOn D) {d : D} (hd : Sound d) : (s.put d).RegularOn D := by
  intro k text hfind
  rw [find?_put] at hfind
  split at hfind
  case isTrue hplace =>
    cases hfind
    exact ⟨d, hd, hplace.2, rfl⟩
  case isFalse => exact hs k text hfind

/-- Writing over a document that was read changes this document. -/
theorem maps_put (hs : s.RegularOn D) {k : String} {d d' : D} (hd : s.document? k = .ok (some d))
    (hkey : key d' = k) (hsound : Sound d') : Maps (changeAt k fun _ => d') s (s.put d') := by
  -- under the key lies the new document, and under the other keys what lay there
  have hread {k' : String} {found : Option D} (h : s.document? k' = .ok found) :
      (s.put d').document? k' = .ok (found.map (changeAt k fun _ => d')) := by
    by_cases hk : k' = k
    · subst hk
      obtain rfl : found = some d := Except.ok.inj (h.symm.trans hd)
      rw [Option.map_some, changeAt_of_eq (hs.key_eq hd)]
      refine document?_eq_ok_some.2 ⟨encode d', ?_, hsound⟩
      rw [find?_put, if_pos ⟨rfl, hkey⟩]
    · have hfind : ((s.put d').table (collection D)).find? k' =
          (s.table (collection D)).find? k' := by
        rw [find?_put, if_neg fun hplace => hk (hplace.2.symm.trans hkey)]
      have hsame : (s.put d').document? k' = .ok found := by
        rw [document?, hfind]
        exact h
      rw [hsame]
      cases found with
      | none => rfl
      | some e =>
        have hne : key e ≠ k := fun he => hk ((hs.key_eq h).symm.trans he)
        rw [Option.map_some, changeAt_of_ne hne]
  exact ⟨hs.put hsound, fun k' found h => hread h, fun c hc => table_put_of_ne s d' hc.symm,
    ordinalClaims_put s d'⟩

/-- A bulk change changes the documents that pass its test. -/
theorem maps_of_updateAll [Filed D] [LawfulKey D] (hwf : s.WellFormed) (hs : s.RegularOn D)
    {test : D → Bool} {change : D → D} (hkey : ∀ d, key (change d) = key d)
    (hsound : ∀ d, Sound d → Sound (change d)) {n : Nat}
    (h : updateAll test change s = .ok (n, s')) :
    Maps (fun d => if test d then change d else d) s s' := by
  have hfind := hwf.find?_of_updateAll hkey h
  have hchanged : ∀ d : D, Sound d → Sound (if test d then change d else d) := by
    intro d hd
    split
    · exact hsound d hd
    · exact hd
  have hkept : ∀ d : D, key (if test d then change d else d) = key d := by
    intro d
    split
    · exact hkey d
    · rfl
  -- what lies under a key is written anew where the document passes, and as it was else
  have htexts (k : String) (found : Option D) (hfound : s.document? k = .ok found) :
      (s'.table (collection D)).find? k =
        found.map fun d => encode (if test d then change d else d) := by
    rw [hfind, if_pos rfl, hs.find?_eq hfound]
    cases found with
    | none => rfl
    | some d =>
      rw [Option.map_some, Option.map_some, Option.map_some, retext_of_decode (hs.sound hfound)]
      split <;> rfl
  obtain ⟨hregularOn, hdocuments⟩ := hs.of_find? hkept hchanged htexts
  refine ⟨hregularOn, hdocuments, fun c hc => ?_, ?_⟩
  · refine Dict.ext_find? fun k => ?_
    rw [hfind, if_neg hc.symm]
  · obtain ⟨ds, -, -, rfl⟩ := Transaction.updateAll_eq_ok.1 h
    exact ordinalClaims_putAll s _

end

end Store

/-! ## Faithful stores -/

/-- The text is read as a document that is written as this text again. -/
def Collection.Restores : Collection → (text : String) → Prop
  | .processes, text => ∃ p : Process, decode text = .ok p ∧ encode p = text
  | .jobs, text => ∃ j : Job, decode text = .ok j ∧ encode j = text
  | .tasks, text => ∃ t : Task, decode text = .ok t ∧ encode t = text
  | .datasets, text => ∃ d : Dataset, decode text = .ok d ∧ encode d = text
  | .modules, text => ∃ m : Module, decode text = .ok m ∧ encode m = text

namespace Store

variable {s s' : Store}

/-- Every text is read as a document that is written as this text again, whatever its place. -/
def Faithful (s : Store) : Prop :=
  ∀ c k text, (s.table c).find? k = some text → c.Restores text

/-- Where nothing lies there is nothing that would be written otherwise. -/
theorem faithful_empty : Faithful .empty := by
  intro c k text h
  cases c <;> cases h

/-- A text may be put under any key. -/
theorem Faithful.insert (hs : s.Faithful) {c : Collection} {text : String} (htext : c.Restores text)
    (k : String) : (s.insert c k text).Faithful := by
  intro c' k' text' h
  rw [table_insert] at h
  split at h
  case isTrue hc =>
    subst hc
    rw [Dict.find?_insert] at h
    split at h
    case isTrue =>
      obtain rfl := Option.some.inj h
      exact htext
    case isFalse => exact hs c k' text' h
  case isFalse => exact hs c' k' text' h

/-- Every document that is read lies under its own key. -/
structure Homed (s : Store) : Prop where
  processes : s.Homes Process
  jobs : s.Homes Job
  tasks : s.Homes Task
  datasets : s.Homes Dataset
  modules : s.Homes Module

/-- Where every document was written under its own key, none has strayed. In particular no access to
a store makes one stray (`Reachable.wellFormed`). -/
theorem WellFormed.homed (hs : s.WellFormed) : s.Homed where
  processes _ _ h := hs.key_eq_of_document? h
  jobs _ _ h := hs.key_eq_of_document? h
  tasks _ _ h := hs.key_eq_of_document? h
  datasets _ _ h := hs.key_eq_of_document? h
  modules _ _ h := hs.key_eq_of_document? h

/-- Every text is read as a document that is written as this text again, in the same place. -/
structure Regular (s : Store) : Prop where
  processes : s.RegularOn Process
  jobs : s.RegularOn Job
  tasks : s.RegularOn Task
  datasets : s.RegularOn Dataset
  modules : s.RegularOn Module

/-- A collection is regular exactly if its texts are written again as they are and its documents
have not strayed. -/
theorem regularOn_iff {D : Type} [Document D] : s.RegularOn D ↔
    (∀ k text, (s.table (collection D)).find? k = some text →
      ∃ d : D, decode text = .ok d ∧ encode d = text) ∧ s.Homes D := by
  constructor
  · intro hs
    refine ⟨fun k text hfind => ?_, hs.keyed.homes⟩
    obtain ⟨d, hd, -, htext⟩ := hs k text hfind
    exact ⟨d, hd, htext⟩
  · rintro ⟨hrestores, hhome⟩ k text hfind
    obtain ⟨d, hd, htext⟩ := hrestores k text hfind
    exact ⟨d, hd, hhome k d (document?_eq_ok_some.2 ⟨text, hfind, hd⟩), htext⟩

/-- A regular store is a faithful one in which no document has strayed. -/
theorem regular_iff : s.Regular ↔ s.Faithful ∧ s.Homed := by
  constructor
  · rintro ⟨hprocesses, hjobs, htasks, hdatasets, hmodules⟩
    simp only [regularOn_iff] at hprocesses hjobs htasks hdatasets hmodules
    refine ⟨fun c k text hfind => ?_,
      ⟨hprocesses.2, hjobs.2, htasks.2, hdatasets.2, hmodules.2⟩⟩
    cases c with
    | processes => exact hprocesses.1 k text hfind
    | jobs => exact hjobs.1 k text hfind
    | tasks => exact htasks.1 k text hfind
    | datasets => exact hdatasets.1 k text hfind
    | modules => exact hmodules.1 k text hfind
  · rintro ⟨hs, hhome⟩
    exact ⟨regularOn_iff.2 ⟨hs .processes, hhome.processes⟩, regularOn_iff.2 ⟨hs .jobs, hhome.jobs⟩,
      regularOn_iff.2 ⟨hs .tasks, hhome.tasks⟩, regularOn_iff.2 ⟨hs .datasets, hhome.datasets⟩,
      regularOn_iff.2 ⟨hs .modules, hhome.modules⟩⟩

/-- This is how the results below take up their two assumptions. -/
theorem Faithful.regular (hs : s.Faithful) (hhome : s.Homed) : s.Regular :=
  regular_iff.2 ⟨hs, hhome⟩

theorem Regular.faithful (hs : s.Regular) : s.Faithful := (regular_iff.1 hs).1

theorem Regular.homed (hs : s.Regular) : s.Homed := (regular_iff.1 hs).2

/-- Each text is one that is written for a document with the key of its place. -/
theorem RegularOn.writes {D : Type} [Document D] [Filed D] (hs : s.RegularOn D) {k text : String}
    (h : (s.table (collection D)).find? k = some text) : (collection D).Writes k text := by
  obtain ⟨d, -, hkey, htext⟩ := hs k text h
  exact (Filed.writes_iff k text).2 ⟨d, hkey, htext⟩

/-- In a regular store every text was written as it is, under its own key. -/
theorem Regular.wellFormed (hs : s.Regular) : s.WellFormed := by
  intro c k text h
  cases c with
  | processes => exact hs.processes.writes h
  | jobs => exact hs.jobs.writes h
  | tasks => exact hs.tasks.writes h
  | datasets => exact hs.datasets.writes h
  | modules => exact hs.modules.writes h

theorem regular_empty : Regular .empty := by
  have hnone {D : Type} [Document D] : RegularOn D .empty := by
    intro k text hfind
    have hempty : (Store.empty.table (collection D)).find? k = none := by
      cases collection D <;> rfl
    rw [hempty] at hfind
    cases hfind
  exact ⟨hnone, hnone, hnone, hnone, hnone⟩

end Store

open Store

/-- Documents that have a holder, which may change without harm to the rest. -/
class Workable (D : Type) [Leasable D] : Prop extends LawfulLeasable D, Filed D, LawfulKey D where
  regularOn : ∀ {s : Store}, s.Regular → s.RegularOn D
  regular : ∀ {s s' : Store}, s.Regular → s'.RegularOn D →
    (∀ c, c ≠ collection D → s'.table c = s.table c) → s'.Regular
  sound_withHolder : ∀ (holder : Option String) (d : D), Sound d →
    Sound (Leasable.withHolder holder d)

instance : Workable Job where
  regularOn hs := hs.jobs
  regular hs hjobs htable :=
    { processes := hs.processes.of_table (htable .processes nofun)
      jobs := hjobs
      tasks := hs.tasks.of_table (htable .tasks nofun)
      datasets := hs.datasets.of_table (htable .datasets nofun)
      modules := hs.modules.of_table (htable .modules nofun) }
  sound_withHolder _ _ _ := LawfulDocument.decode_encode _

instance : Workable Task where
  regularOn hs := hs.tasks
  regular hs htasks htable :=
    { processes := hs.processes.of_table (htable .processes nofun)
      jobs := hs.jobs.of_table (htable .jobs nofun)
      tasks := htasks
      datasets := hs.datasets.of_table (htable .datasets nofun)
      modules := hs.modules.of_table (htable .modules nofun) }
  sound_withHolder _ _ ht := Task.sound_of_qualities_eq ht rfl

instance : Workable Dataset where
  regularOn hs := hs.datasets
  regular hs hdatasets htable :=
    { processes := hs.processes.of_table (htable .processes nofun)
      jobs := hs.jobs.of_table (htable .jobs nofun)
      tasks := hs.tasks.of_table (htable .tasks nofun)
      datasets := hdatasets
      modules := hs.modules.of_table (htable .modules nofun) }
  sound_withHolder _ _ _ := LawfulDocument.decode_encode _

instance : Workable Module where
  regularOn hs := hs.modules
  regular hs hmodules htable :=
    { processes := hs.processes.of_table (htable .processes nofun)
      jobs := hs.jobs.of_table (htable .jobs nofun)
      tasks := hs.tasks.of_table (htable .tasks nofun)
      datasets := hs.datasets.of_table (htable .datasets nofun)
      modules := hmodules }
  sound_withHolder _ _ _ := LawfulDocument.decode_encode _

namespace Store

variable {s s' : Store} {D : Type} [Leasable D] [Workable D]

/-- A change of documents of one type, each by itself, leaves a regular store. -/
theorem Maps.regular {f : D → D} (h : Maps f s s') (hs : s.Regular) : s'.Regular :=
  Workable.regular hs h.regularOn h.table

/-- A document that is read as it is may be written. -/
theorem Regular.put (hs : s.Regular) {d : D} (hd : Sound d) : (s.put d).Regular :=
  Workable.regular hs (RegularOn.put (Workable.regularOn hs) hd) fun _ hc =>
    table_put_of_ne s d hc.symm

/-- Processes are always read as they are. -/
theorem Regular.put_process (hs : s.Regular) (p : Process) : (s.put p).Regular where
  processes := hs.processes.put (LawfulDocument.decode_encode p)
  jobs := hs.jobs.of_table (table_put_of_ne s p nofun)
  tasks := hs.tasks.of_table (table_put_of_ne s p nofun)
  datasets := hs.datasets.of_table (table_put_of_ne s p nofun)
  modules := hs.modules.of_table (table_put_of_ne s p nofun)

/-! ## Leases -/

/-- Writing a document with another holder changes the holder. -/
theorem Regular.maps_withHolder (hs : s.Regular) {k : String} {d : D}
    (hd : s.document? k = .ok (some d)) (holder : Option String) :
    Maps (changeAt k (Leasable.withHolder (D := D) holder)) s
      (s.put (Leasable.withHolder holder d)) := by
  have hread : s.RegularOn D := Workable.regularOn hs
  have hkey := (LawfulLeasable.key_withHolder holder d).trans (hread.key_eq hd)
  have hsound := Workable.sound_withHolder holder d (hread.sound hd)
  refine (maps_put hread hd hkey hsound).congr_at hread fun e he => ?_
  rw [hd] at he
  cases he
  rfl

/-- In a regular store a lease never fails. It finds nothing only where no free document passes the
test. -/
theorem Regular.exists_lease {S : Type} [SortField S D] (hs : s.Regular) (now : Millis)
    (test : D → Bool) (sort : Option S) (direction : Direction) (process : String) :
    ∃ (r : Option D) (s' : Store), lease now test sort direction process s = .ok (r, s') ∧
      ((r = none ∧ s' = s ∧
          ∀ k (d : D), s.document? k = .ok (some d) → Leasable.holder d = none → test d = false) ∨
        ∃ d : D, s.document? (key d) = .ok (some d) ∧ Leasable.holder d = none ∧ test d = true ∧
          r = some (Document.refresh now (Leasable.withHolder (some process) d)) ∧
          Maps (changeAt (key d) (Leasable.withHolder (D := D) (some process))) s s') := by
  have hread : s.RegularOn D := Workable.regularOn hs
  obtain ⟨ds, hds⟩ := hread.exists_documents
  cases hleast : least? (compareDocs sort direction)
      (ds.filter fun d => (Leasable.holder d).isNone && test d) with
  | none =>
    refine ⟨none, s, Transaction.lease_eq_ok.2 ⟨ds, hds, .inl ⟨hleast, rfl, rfl⟩⟩,
      .inl ⟨rfl, rfl, ?_⟩⟩
    intro k d hd hfree
    -- a free document that passes would have been a candidate
    by_contra htest
    rw [Bool.not_eq_false] at htest
    have hmem : d ∈ ds.filter fun d => (Leasable.holder d).isNone && test d :=
      List.mem_filter.2 ⟨(mem_documents hds).2 ⟨k, hd⟩, by simp [hfree, htest]⟩
    rw [least?_eq_none.1 hleast] at hmem
    cases hmem
  | some d =>
    obtain ⟨hmem, htest⟩ := List.mem_filter.1 (least?_mem hleast)
    obtain ⟨k, hd⟩ := (mem_documents hds).1 hmem
    obtain rfl := hread.key_eq hd
    rw [Bool.and_eq_true, Option.isNone_iff_eq_none] at htest
    exact ⟨_, _, Transaction.lease_eq_ok.2 ⟨ds, hds, .inr ⟨d, hleast, rfl, rfl⟩⟩,
      .inr ⟨d, hd, htest.1, htest.2, rfl, hs.maps_withHolder hd (some process)⟩⟩

/-- Gives a document back, if the process holds it. -/
def unhold (process : String) (d : D) : D :=
  if Leasable.holder d = some process then Leasable.withHolder none d else d

/-- Giving back keeps the key. -/
theorem key_unhold (process : String) (d : D) : key (unhold process d) = key d := by
  by_cases h : Leasable.holder d = some process
  · rw [unhold, if_pos h, LawfulLeasable.key_withHolder]
  · rw [unhold, if_neg h]

/-- Giving back under a key changes the document that lies there, if the process holds it, and fails
else. -/
theorem Regular.maps_release (hs : s.Regular) (k process : String) :
    Maps (changeAt k (unhold (D := D) process)) s ((release D k process).commit s).2 := by
  have hread : s.RegularOn D := Workable.regularOn hs
  obtain ⟨found, hfound⟩ := hread.exists_document? k
  by_cases hheld : ∃ d ∈ found, Leasable.holder d = some process
  · obtain ⟨d, hd, hholder⟩ := hheld
    rw [Option.mem_def.1 hd] at hfound
    have hok : release D k process s = .ok ((), s.put (Leasable.withHolder none d)) :=
      Transaction.release_eq_ok.2 ⟨d, hfound, hholder, rfl⟩
    rw [commit_eq_ok.2 hok]
    refine (hs.maps_withHolder hfound none).congr_at hread fun e he => ?_
    rw [hfound] at he
    cases he
    rw [unhold, if_pos hholder]
  · simp only [not_exists, not_and] at hheld
    rw [Transaction.release_commit_of_ne hfound hheld]
    refine maps_changeAt_of_eq hread fun d hd => ?_
    rw [hfound] at hd
    rw [unhold, if_neg (hheld d (Except.ok.inj hd))]

end Store

end Fleet
