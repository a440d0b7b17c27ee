import Fleet.Proofs.Job.Table
import Fleet.Proofs.Lease.Exclusion
import Fleet.Proofs.Visibility.Blind

/-!
# Fan-outs of models

Whether a job gets a new model is asked twice: once for all jobs, when the fan-out begins, and once
more in the transaction that appends the model, when others may have got it already. The scan goes
by the ids that datasets bear and the transaction by the keys under which they lie, so where these
agree both ask the same (`Job.Qualifies`). What is done to one job does not matter to another one,
since a job's text depends on the job and on modules only. So a fan-out is known from the store that
it begins with: a job that qualifies gets the model if the text with it can be built there
(`Job.extended?`), and else it is reported as failed and stays as it is. Another call finds exactly
the failed jobs and fails on them again, for no failure is of a kind that waiting helps with.
-/

set_option autoImplicit false

namespace Fleet

open Document (collection key encode decode)
open Transaction

/-! ## Jobs that qualify -/

/-- The job is open, takes new models, is on a validated dataset with the schemas of the model, and
does not list it yet. -/
structure Job.Qualifies (s : Store) (m : Module) (model : String) (j : Job) : Prop where
  isOpen : j.status.isOpen = true
  accepts : j.acceptNewModels = true
  fits : ∃ d : Dataset, s.document? j.dataset = .ok (some d) ∧ d.status = .validated ∧
    d.schemaIn = m.schemaIn ∧ d.schemaOut = m.schemaOut
  new : model ∉ j.models

/-- Strictly ascending ids are distinct. -/
theorem nodup_of_pairwise_lt {xs : List String} (h : xs.Pairwise (· < ·)) : xs.Nodup := by
  refine h.imp fun hlt heq => ?_
  subst heq
  exact String.lt_irrefl _ hlt

/-- Ids in strictly increasing order are known from which they are. -/
theorem eq_of_pairwise_lt {xs ys : List String} (hxs : xs.Pairwise (· < ·))
    (hys : ys.Pairwise (· < ·)) (hmem : ∀ x, x ∈ xs ↔ x ∈ ys) : xs = ys := by
  have hperm :=
    (List.perm_ext_iff_of_nodup (nodup_of_pairwise_lt hxs) (nodup_of_pairwise_lt hys)).2 hmem
  exact hperm.eq_of_pairwise (fun _ _ _ _ hlt hgt => absurd hgt (String.lt_asymm hlt)) hxs hys

namespace Dataset

/-- A dataset fits a model if it is validated and its two schemas are the model's. -/
theorem fits_iff {m : Module} {d : Dataset} : d.fits m = true ↔
    d.status = .validated ∧ d.schemaIn = m.schemaIn ∧ d.schemaOut = m.schemaOut := by
  simp [fits, and_assoc]

end Dataset

namespace Job

variable {s t : Store} {m : Module} {model : String} {j : Job} {now : Millis}

/-- What the program checks of a job before it appends a model, as a conjunction. -/
theorem wants_iff {datasets : List String} : j.wants model datasets = true ↔
    j.status.isOpen = true ∧ j.acceptNewModels = true ∧ j.dataset ∈ datasets ∧
      model ∉ j.models := by
  simp [wants, and_assoc]

/-- Whether a job qualifies depends on no other documents than the datasets. -/
theorem Qualifies.of_table (h : j.Qualifies s m model)
    (ht : t.table .datasets = s.table .datasets) :
    j.Qualifies t m model := by
  obtain ⟨hopen, haccepts, ⟨d, hd, hfits⟩, hnew⟩ := h
  have hd' := (Store.document?_eq_of_table (D := Dataset) ht j.dataset).trans hd
  exact ⟨hopen, haccepts, ⟨d, hd', hfits⟩, hnew⟩

/-- A job that asks for one of all datasets that fit. -/
theorem wants_of_documents (hs : s.Keyed Dataset) {ds : List Dataset}
    (hds : s.documents Dataset = .ok ds) :
    j.wants model ((ds.filter (Dataset.fits m)).map (·.id)) = true ↔ j.Qualifies s m model := by
  rw [wants_iff]
  constructor
  · -- the id that fits is read off a dataset, which lies under that id where no dataset has strayed
    rintro ⟨hopen, haccepts, hdataset, hnew⟩
    obtain ⟨d, hd, hid⟩ := List.mem_map.1 hdataset
    obtain ⟨hmem, hfits⟩ := List.mem_filter.1 hd
    obtain ⟨k, hk⟩ := (Store.mem_documents hds).1 hmem
    obtain rfl : j.dataset = k := hid.symm.trans (hs.key_eq hk)
    exact ⟨hopen, haccepts, ⟨d, hk, Dataset.fits_iff.1 hfits⟩, hnew⟩
  · rintro ⟨hopen, haccepts, ⟨d, hd, hfits⟩, hnew⟩
    have hmem : d ∈ ds := (Store.mem_documents hds).2 ⟨_, hd⟩
    have hfit := List.mem_filter.2 ⟨hmem, Dataset.fits_iff.2 hfits⟩
    exact ⟨hopen, haccepts, List.mem_map.2 ⟨d, hfit, hs.key_eq hd⟩, hnew⟩

/-- A job that asks for its own dataset, if that one fits. -/
theorem wants_of_document? (hs : s.Keyed Dataset) {found : Option Dataset}
    (hfound : s.document? j.dataset = .ok found) :
    j.wants model ((found.filter (Dataset.fits m)).map (·.id)).toList = true ↔
      j.Qualifies s m model := by
  rw [wants_iff]
  simp only [Option.mem_toList, Option.map_eq_some_iff, Option.filter_eq_some_iff]
  constructor
  · rintro ⟨hopen, haccepts, ⟨d, ⟨rfl, hfits⟩, -⟩, hnew⟩
    exact ⟨hopen, haccepts, ⟨d, hfound, Dataset.fits_iff.1 hfits⟩, hnew⟩
  · rintro ⟨hopen, haccepts, ⟨d, hd, hfits⟩, hnew⟩
    obtain rfl : found = some d := Except.ok.inj (hfound.symm.trans hd)
    exact ⟨hopen, haccepts, ⟨d, ⟨rfl, Dataset.fits_iff.2 hfits⟩, hs.key_eq hd⟩, hnew⟩

/-! ## The scan of all jobs -/

/-- The scan finds the jobs that qualify, in the order of their ids. -/
theorem exists_applicable_on (hjobs : s.Keyed Job) (hdatasets : s.Keyed Dataset)
    (hm : s.document? model = .ok (some m)) (hkind : m.kind = .model) (hactive : m.status = .active)
    (now : Millis) : ∃ ids : List String, (applicable now model).on s = (.ok ids, s) ∧
      ids.Pairwise (· < ·) ∧
      ∀ id, id ∈ ids ↔ ∃ j : Job, s.document? id = .ok (some j) ∧ j.Qualifies s m model := by
  obtain ⟨ds, hds⟩ := hdatasets.exists_documents
  obtain ⟨js, hjs⟩ := hjobs.exists_documents
  -- refreshing touches neither the ids of the datasets nor those of the jobs
  let names := ((ds.filter (Dataset.fits m)).map (Document.refresh now)).map (·.id)
  have hnames : names = (ds.filter (Dataset.fits m)).map (·.id) := List.map_map
  have hwants (j : Job) : j.wants model names = true ↔ j.Qualifies s m model := by
    rw [hnames]
    exact wants_of_documents hdatasets hds
  let ids := ((js.filter (wants model names)).map (Document.refresh now)).map (·.id)
  have hids : ids = (js.filter (wants model names)).map key := List.map_map
  refine ⟨ids, ?_, ?_, fun id => ?_⟩
  · have hfetch : (fetch (D := Module) now model) s = .ok (m, s) :=
      bind_eq_ok.2 ⟨m, s, require_eq_ok.2 ⟨hm, rfl⟩, rfl⟩
    refine Session.bind_on_eq_ok.2 ⟨m, s, commit_eq_ok.2 hfetch, ?_⟩
    simp only [hkind, hactive, bne_self_eq_false, Bool.or_self, Bool.false_eq_true, if_false]
    refine Session.bind_on_eq_ok.2 ⟨_, s, commit_eq_ok.2 (scan_eq_ok.2 ⟨ds, hds, rfl, rfl⟩), ?_⟩
    exact Session.bind_on_eq_ok.2 ⟨_, s, commit_eq_ok.2 (scan_eq_ok.2 ⟨js, hjs, rfl, rfl⟩), rfl⟩
  · rw [hids, List.pairwise_map]
    exact (Store.pairwise_documents (fun _ _ => hjobs.key_eq) hjs).sublist List.filter_sublist
  · rw [hids, List.mem_map]
    constructor
    · rintro ⟨j, hj, rfl⟩
      obtain ⟨hmem, hwanted⟩ := List.mem_filter.1 hj
      obtain ⟨k, hk⟩ := (Store.mem_documents hjs).1 hmem
      rw [hjobs.key_eq hk]
      exact ⟨j, hk, (hwants j).1 hwanted⟩
    · rintro ⟨j, hj, hqualifies⟩
      have hmem : j ∈ js := (Store.mem_documents hjs).2 ⟨id, hj⟩
      exact ⟨j, List.mem_filter.2 ⟨hmem, (hwants j).2 hqualifies⟩, hjobs.key_eq hj⟩

/-! ## One job -/

/-- The job under an id with the model behind its models and with the text that they make, if there
is such a text. -/
def extended? (model : String) (s : Store) (id : String) : Option Job :=
  match s.document? (D := Job) id with
  | .ok (some j) =>
    match ConfigSpace.build j.id (j.models ++ [model]) j.configOverrides s with
    | .ok (configSpace, _) => some { j with models := j.models ++ [model], configSpace }
    | .error _ => none
  | _ => none

/-- A job can be extended exactly if it is in the store and its configuration space can be built
anew with the model at the end of its models. -/
theorem extended?_eq_some {id : String} {j' : Job} : extended? model s id = some j' ↔
    ∃ (j : Job) (configSpace : String), s.document? id = .ok (some j) ∧
      ConfigSpace.build j.id (j.models ++ [model]) j.configOverrides s = .ok (configSpace, s) ∧
      j' = { j with models := j.models ++ [model], configSpace } := by
  unfold extended?
  constructor
  · intro h
    split at h
    case h_1 j hj =>
      split at h
      case h_1 configSpace s' hbuild =>
        obtain rfl := ConfigSpace.readsOnly_build _ _ _ _ _ _ hbuild
        exact ⟨j, configSpace, hj, hbuild, (Option.some.inj h).symm⟩
      case h_2 => cases h
    case h_2 => cases h
  · rintro ⟨j, configSpace, hj, hbuild, rfl⟩
    simp only [hj, hbuild]

/-- A job of the store that cannot be extended is one whose configuration space cannot be built. -/
theorem extended?_eq_none {id : String} {j : Job} (hj : s.document? id = .ok (some j)) :
    extended? model s id = none ↔
      ∃ e, ConfigSpace.build j.id (j.models ++ [model]) j.configOverrides s = .error e := by
  simp only [extended?, hj]
  cases ConfigSpace.build j.id (j.models ++ [model]) j.configOverrides s <;> simp

/-- The extended job depends on the job and on modules only. -/
theorem extended?_congr {id : String} (hjob : t.document? (D := Job) id = s.document? id)
    (hmodules : t.table .modules = s.table .modules) :
    extended? model t id = extended? model s id := by
  unfold extended?
  rw [hjob]
  split
  case h_2 => rfl
  case h_1 j hj =>
    rcases agrees_build hmodules j.id (j.models ++ [model]) j.configOverrides with
      ⟨configSpace, ht, hs⟩ | ⟨e, ht, hs⟩
    · rw [ht, hs]
    · rw [ht, hs]

/-- All that comes before the text for a job that qualifies is built only reads. -/
theorem appendModel_of_qualifies (hdatasets : s.Keyed Dataset) {id : String}
    (hj : s.document? id = .ok (some j)) (hm : s.document? model = .ok (some m))
    (hkind : m.kind = .model) (hactive : m.status = .active) (hqualifies : j.Qualifies s m model) :
    appendModel id model s = (do
      let configSpace ← ConfigSpace.build j.id (j.models ++ [model]) j.configOverrides
      put { j with models := j.models ++ [model], configSpace }
      return true : Transaction Bool) s := by
  obtain ⟨found, hfound⟩ := hdatasets.exists_document? j.dataset
  have hwants := (wants_of_document? hdatasets hfound).2 hqualifies
  -- the checks in front of the configuration space, in the order in which they are made
  rw [appendModel, bind_of_ok (require_eq_ok.2 ⟨hj, rfl⟩),
    bind_of_ok (requireModule_eq_ok.2 ⟨hm, hkind, hactive, rfl⟩),
    bind_of_ok (find?_eq_ok.2 ⟨hfound, rfl⟩)]
  simp only [hwants, if_true]

/-- A transaction that appends a model to a job that qualifies writes the extended job, or fails. -/
theorem appendModel_eq_ok_of_qualifies (hdatasets : s.Keyed Dataset) {id : String}
    (hj : s.document? id = .ok (some j)) (hm : s.document? model = .ok (some m))
    (hkind : m.kind = .model) (hactive : m.status = .active) (hqualifies : j.Qualifies s m model) :
    (∃ j', extended? model s id = some j' ∧ appendModel id model s = .ok (true, s.put j')) ∨
      (extended? model s id = none ∧ ∃ e, appendModel id model s = .error e) := by
  rw [appendModel_of_qualifies hdatasets hj hm hkind hactive hqualifies]
  cases hbuild : ConfigSpace.build j.id (j.models ++ [model]) j.configOverrides s with
  | ok r =>
    obtain ⟨configSpace, s'⟩ := r
    -- building reads only, so the job is put into the store it was read from
    obtain rfl := ConfigSpace.readsOnly_build _ _ _ _ _ _ hbuild
    refine .inl ⟨_, extended?_eq_some.2 ⟨j, configSpace, hj, hbuild, rfl⟩, ?_⟩
    rw [bind_of_ok hbuild]
    rfl
  | error e =>
    exact .inr ⟨(extended?_eq_none hj).2 ⟨e, hbuild⟩, e, bind_eq_error.2 (.inl hbuild)⟩

/-- What becomes of a job that qualifies is reported. -/
theorem appendReporting_on (hdatasets : s.Keyed Dataset) {id : String}
    (hj : s.document? id = .ok (some j)) (hm : s.document? model = .ok (some m))
    (hkind : m.kind = .model) (hactive : m.status = .active) (hqualifies : j.Qualifies s m model)
    {r : FanOut} (hr : r.model = model) :
    (appendReporting r id).on s = match extended? model s id with
      | some j' => (.ok { r with updated := r.updated ++ [id] }, s.put j')
      | none => (.ok { r with failed := r.failed ++ [id] }, s) := by
  subst hr
  rcases appendModel_eq_ok_of_qualifies hdatasets hj hm hkind hactive hqualifies with
    ⟨j', hextended, happend⟩ | ⟨hextended, e, happend⟩
  · rw [hextended]
    have hcommit := Session.transact_on_eq_ok.2 happend
    exact Session.bind_on_eq_ok.2 ⟨.ok true, s.put j', Session.attempt_on hcommit, rfl⟩
  · rw [hextended]
    -- a transaction that fails is not committed, and the failure is noted
    have hcommit : (Session.transact (appendModel id r.model)).on s = (.error e, s) := by
      show (appendModel id r.model).commit s = _
      rw [commit, happend]
    exact Session.bind_on_eq_ok.2 ⟨.error e, s, Session.attempt_on hcommit, rfl⟩

/-! ## All jobs -/

/-- The jobs under these ids qualify. -/
def AllQualify (s : Store) (m : Module) (model : String) (ids : List String) : Prop :=
  ∀ id ∈ ids, ∃ j : Job, s.document? id = .ok (some j) ∧ j.Qualifies s m model

/-- Appending the model to one job does not matter to another one. -/
theorem document?_put_extended (hjobs : s.Keyed Job) {id : String} {j' : Job}
    (hj' : extended? model s id = some j') {id' : String} (hne : id ≠ id') :
    (s.put j').document? (D := Job) id' = s.document? id' := by
  obtain ⟨j, _, hj, -, rfl⟩ := extended?_eq_some.1 hj'
  rw [Store.document?_put, if_neg]
  rw [← hjobs.key_eq hj] at hne
  exact hne

/-- What is to become of the other jobs stays as it was told. -/
theorem extended?_put_extended (hjobs : s.Keyed Job) {id : String} {j' : Job}
    (hj' : extended? model s id = some j') {id' : String} (hne : id ≠ id') :
    extended? model (s.put j') id' = extended? model s id' :=
  extended?_congr (document?_put_extended hjobs hj' hne) (Store.table_put_of_ne s j' (by decide))

/-- Extending one job leaves the other jobs qualified. -/
theorem AllQualify.put_extended {ids : List String} (h : AllQualify s m model ids)
    (hjobs : s.Keyed Job) {id : String} {j' : Job} (hj' : extended? model s id = some j')
    (hid : id ∉ ids) : AllQualify (s.put j') m model ids := by
  intro id' hid'
  obtain ⟨j, hj, hqualifies⟩ := h id' hid'
  have hne : id ≠ id' := by
    rintro rfl
    exact hid hid'
  have hdatasets : (s.put j').table .datasets = s.table .datasets :=
    Store.table_put_of_ne s j' (by decide)
  exact ⟨j, (document?_put_extended hjobs hj' hne).trans hj, hqualifies.of_table hdatasets⟩

/-- What becomes of jobs that qualify can be told before anything is done with the first of them. -/
theorem foldlM_appendReporting (hjobs : s.Keyed Job) (hdatasets : s.Keyed Dataset)
    (hm : s.document? model = .ok (some m)) (hkind : m.kind = .model) (hactive : m.status = .active)
    {ids : List String} (hids : ids.Nodup) (hqualify : AllQualify s m model ids) {r : FanOut}
    (hr : r.model = model) :
    (ids.foldlM appendReporting r).on s =
      (.ok { r with
          updated := r.updated ++ ids.filter fun id => (extended? model s id).isSome
          failed := r.failed ++ ids.filter fun id => (extended? model s id).isNone },
        s.putAll (ids.filterMap (extended? model s))) := by
  induction ids generalizing s r with
  | nil =>
    simp only [List.filter_nil, List.append_nil, List.filterMap_nil]
    rfl
  | cons id ids ih =>
    obtain ⟨hid, hids⟩ := List.nodup_cons.1 hids
    obtain ⟨j, hj, hqualifies⟩ := hqualify id List.mem_cons_self
    have hrest : AllQualify s m model ids := fun id' hid' =>
      hqualify id' (List.mem_cons_of_mem id hid')
    have hhead := appendReporting_on hdatasets hj hm hkind hactive hqualifies hr
    rw [List.foldlM_cons]
    cases hextended : extended? model s id with
    | none =>
      rw [hextended] at hhead
      refine Session.bind_on_eq_ok.2 ⟨_, s, hhead, ?_⟩
      rw [ih (r := { r with failed := r.failed ++ [id] }) hjobs hdatasets hm hids hrest hr]
      simp [hextended]
    | some j' =>
      rw [hextended] at hhead
      refine Session.bind_on_eq_ok.2 ⟨_, s.put j', hhead, ?_⟩
      -- the other jobs, all datasets and all modules are as they were
      have hmodules : (s.put j').table .modules = s.table .modules :=
        Store.table_put_of_ne s j' (by decide)
      have htables : (s.put j').table .datasets = s.table .datasets :=
        Store.table_put_of_ne s j' (by decide)
      have hsame : ∀ id' ∈ ids, extended? model (s.put j') id' = extended? model s id' := by
        intro id' hid'
        refine extended?_put_extended hjobs hextended ?_
        rintro rfl
        exact hid hid'
      have hm' := (Store.document?_eq_of_table (D := Module) hmodules model).trans hm
      rw [ih (r := { r with updated := r.updated ++ [id] }) (hjobs.put j')
        (hdatasets.of_table htables) hm' hids (hrest.put_extended hjobs hextended hid) hr]
      have hisSome : ids.filter (fun id => (extended? model (s.put j') id).isSome) =
          ids.filter fun id => (extended? model s id).isSome :=
        List.filter_congr fun id' hid' => by rw [hsame id' hid']
      have hisNone : ids.filter (fun id => (extended? model (s.put j') id).isNone) =
          ids.filter fun id => (extended? model s id).isNone :=
        List.filter_congr fun id' hid' => by rw [hsame id' hid']
      rw [hisSome, hisNone, List.filterMap_congr hsame]
      simp [hextended, Store.putAll_cons]

/-! ## The store behind a fan-out -/

/-- The store in which the jobs under these ids have the model, if there is a text for them with it. -/
def extendAll (model : String) (ids : List String) (s : Store) : Store :=
  s.putAll (ids.filterMap (extended? model s))

/-- What is written is the extension of a job of the list. -/
theorem exists_of_mem_extended (hjobs : s.Keyed Job) {ids : List String} {j' : Job}
    (h : j' ∈ ids.filterMap (extended? model s)) :
    j'.id ∈ ids ∧ extended? model s j'.id = some j' := by
  obtain ⟨id, hid, hj'⟩ := List.mem_filterMap.1 h
  obtain ⟨j, configSpace, hj, -, rfl⟩ := extended?_eq_some.1 hj'
  obtain rfl : j.id = id := hjobs.key_eq hj
  exact ⟨hid, hj'⟩

/-- Extending jobs writes jobs only. -/
theorem table_extendAll_of_ne {c : Collection} (hc : c ≠ .jobs) (ids : List String) :
    (extendAll model ids s).table c = s.table c :=
  Store.table_putAll_of_ne s _ fun h => hc h.symm

/-- Extending jobs leaves every job under its id. -/
theorem keyed_extendAll (hjobs : s.Keyed Job) (ids : List String) :
    (extendAll model ids s).Keyed Job := hjobs.putAll _

/-- Extending jobs leaves every dataset under its id. -/
theorem keyed_datasets_extendAll (hdatasets : s.Keyed Dataset) (ids : List String) :
    (extendAll model ids s).Keyed Dataset :=
  hdatasets.of_table (table_extendAll_of_ne (by decide) ids)

/-- Extending jobs leaves the module that is appended as it was. -/
theorem document?_module_extendAll (hm : s.document? model = .ok (some m)) (ids : List String) :
    (extendAll model ids s).document? model = .ok (some m) :=
  (Store.document?_eq_of_table (D := Module) (table_extendAll_of_ne (by decide) ids) model).trans hm

/-- Only the jobs that there is a text for are written. -/
theorem find?_extendAll (hjobs : s.Keyed Job) {ids : List String} {c : Collection} {k : String}
    (hk : ¬ (c = .jobs ∧ k ∈ ids.filter fun id => (extended? model s id).isSome)) :
    ((extendAll model ids s).table c).find? k = (s.table c).find? k := by
  by_cases hc : c = .jobs
  case neg => rw [table_extendAll_of_ne hc]
  case pos =>
    refine Store.find?_putAll_of_forall_ne s c fun j' hj' heq => hk ⟨hc, ?_⟩
    obtain ⟨hid, hextended⟩ := exists_of_mem_extended hjobs hj'
    obtain rfl : j'.id = k := heq
    exact List.mem_filter.2 ⟨hid, by rw [hextended, Option.isSome_some]⟩

/-- A job that cannot take the model stays as it is. -/
theorem find?_extendAll_of_eq_none (hjobs : s.Keyed Job) (ids : List String) {id : String}
    (hnone : extended? model s id = none) :
    ((extendAll model ids s).table .jobs).find? id = (s.table .jobs).find? id := by
  refine find?_extendAll hjobs fun h => ?_
  have hsome : (extended? model s id).isSome = true := (List.mem_filter.1 h.2).2
  rw [hnone] at hsome
  cases hsome

/-- A job of the list that can be extended is read back extended. -/
theorem document?_extendAll (hjobs : s.Keyed Job) {ids : List String} {id : String} {j' : Job}
    (hid : id ∈ ids) (hj' : extended? model s id = some j') :
    (extendAll model ids s).document? id = .ok (some j') := by
  have hmem : j' ∈ ids.filterMap (extended? model s) := List.mem_filterMap.2 ⟨id, hid, hj'⟩
  obtain ⟨j, configSpace, hj, -, rfl⟩ := extended?_eq_some.1 hj'
  obtain rfl : j.id = id := hjobs.key_eq hj
  -- under one id there is one extended job
  have hfind := Store.find?_putAll_of_mem s hmem fun i hi heq => by
    obtain ⟨-, hextended⟩ := exists_of_mem_extended hjobs hi
    have hkey : i.id = j.id := heq
    rw [hkey, hj'] at hextended
    exact (Option.some.inj hextended).symm
  exact Store.document?_eq_ok_some.2 ⟨_, hfind, LawfulDocument.decode_encode _⟩

/-- Behind the fan-out those jobs qualify that there is no text for. -/
theorem qualifies_extendAll_iff (hjobs : s.Keyed Job) {ids : List String}
    (hids : ∀ id, id ∈ ids ↔ ∃ j : Job, s.document? id = .ok (some j) ∧ j.Qualifies s m model)
    (id : String) :
    (∃ j : Job, (extendAll model ids s).document? id = .ok (some j) ∧
      j.Qualifies (extendAll model ids s) m model) ↔
    id ∈ ids.filter fun id => (extended? model s id).isNone := by
  have hdatasets : (extendAll model ids s).table .datasets = s.table .datasets :=
    table_extendAll_of_ne (by decide) ids
  rw [List.mem_filter, Option.isNone_iff_eq_none]
  constructor
  · rintro ⟨j, hj, hqualifies⟩
    by_cases hid : id ∈ ids ∧ (extended? model s id).isSome
    · -- an extended job lists the model
      obtain ⟨j', hj'⟩ := Option.isSome_iff_exists.1 hid.2
      obtain rfl : j' = j :=
        Option.some.inj (Except.ok.inj ((document?_extendAll hjobs hid.1 hj').symm.trans hj))
      obtain ⟨i, configSpace, -, -, rfl⟩ := extended?_eq_some.1 hj'
      exact absurd (List.mem_append_right _ List.mem_cons_self) hqualifies.new
    · -- a job that is not extended is the one that was there, and it qualified before
      have hfind : ((extendAll model ids s).table .jobs).find? id = (s.table .jobs).find? id :=
        find?_extendAll hjobs fun h => hid (List.mem_filter.1 h.2)
      have hj' := (Store.document?_eq_of_find? hfind).symm.trans hj
      have hmem := (hids id).2 ⟨j, hj', hqualifies.of_table hdatasets.symm⟩
      exact ⟨hmem, by simpa [hmem] using hid⟩
  · -- a job that could not be extended has not been written
    rintro ⟨hid, hnone⟩
    obtain ⟨j, hj, hqualifies⟩ := (hids id).1 hid
    have hfind := find?_extendAll_of_eq_none hjobs ids hnone
    exact ⟨j, (Store.document?_eq_of_find? hfind).trans hj, hqualifies.of_table hdatasets⟩

/-! ## Failures -/

end Job

namespace Transaction

variable {α β : Type}

/-- The transaction never fails for a reason that waiting may help with. -/
def FailsForGood (tr : Transaction α) : Prop := ∀ s e, tr s = .error e → e.isTransient = false

/-- A value is no failure. -/
theorem failsForGood_pure (a : α) : FailsForGood (pure a) := nofun

/-- An error that no repetition mends is a failure for good. -/
theorem failsForGood_throw {e : StateError} (he : e.isTransient = false) :
    FailsForGood (throw e : Transaction α) := by
  intro s e' h
  cases h
  exact he

/-- A computation that does not look at the store fails for good if its errors are no transient
ones. -/
theorem failsForGood_liftM {r : Except StateError α}
    (hr : ∀ e, r = .error e → e.isTransient = false) :
    FailsForGood (liftM r : Transaction α) := by
  intro s e h
  cases r with
  | ok a => cases h
  | error e' =>
    cases h
    exact hr e rfl

/-- A sequence fails for good if both of its parts do. -/
theorem FailsForGood.bind {tr : Transaction α} {f : α → Transaction β} (h : tr.FailsForGood)
    (hf : ∀ a, (f a).FailsForGood) : (tr >>= f).FailsForGood := by
  intro s e he
  rcases bind_eq_error.1 he with htr | ⟨a, s₁, -, hfa⟩
  · exact h s e htr
  · exact hf a s₁ e hfa

/-- A transaction over a list fails for good if it does for each of its items. -/
theorem failsForGood_mapM {f : α → Transaction β} (hf : ∀ a, (f a).FailsForGood) (as : List α) :
    FailsForGood (as.mapM f) := by
  induction as with
  | nil => exact failsForGood_pure []
  | cons a as ih =>
    rw [List.mapM_cons]
    exact (hf a).bind fun b => ih.bind fun bs => failsForGood_pure (b :: bs)

/-- A text that cannot be decoded cannot be decoded at the next attempt either. -/
theorem failsForGood_find? {D : Type} [Document D] (k : String) :
    FailsForGood (find? (D := D) k) := by
  intro s e h
  obtain ⟨message, rfl⟩ := exists_of_find?_eq_error h
  rfl

/-- A module that is missing, or of another kind, or not active, is a failure for good. -/
theorem failsForGood_requireModule (id : String) (kind : ModuleKind) :
    FailsForGood (requireModule id kind) := by
  refine (failsForGood_find? id).bind fun found => ?_
  cases found with
  | none => exact failsForGood_throw rfl
  | some m =>
    simp only
    split
    · exact failsForGood_throw rfl
    · split
      · exact failsForGood_throw rfl
      · exact failsForGood_pure m

/-- **No repetition mends a configuration space that cannot be built**: its models are looked up and
their definitions read, and both fail for good. -/
theorem failsForGood_build (job : String) (models : List String) (overrides : Overrides) :
    FailsForGood (ConfigSpace.build job models overrides) := by
  have hread (model definition : String) (e : StateError)
      (h : ConfigSpace.readDefinition model definition = .error e) : e.isTransient = false := by
    unfold ConfigSpace.readDefinition at h
    split at h <;> cases h
    rfl
  have hchoice (model : String) : FailsForGood (ConfigSpace.choice overrides model) :=
    (failsForGood_requireModule model .model).bind fun _ =>
      (failsForGood_liftM (hread model _)).bind fun _ => failsForGood_pure _
  unfold ConfigSpace.build
  split
  · exact failsForGood_throw rfl
  · exact (failsForGood_mapM hchoice models).bind fun _ => failsForGood_pure _

/-- Trying again to append a model is never worth while. -/
theorem failsForGood_appendModel (id model : String) : FailsForGood (Job.appendModel id model) := by
  have hrequire : FailsForGood (require (D := Job) id) := by
    refine (failsForGood_find? id).bind fun found => ?_
    cases found with
    | none => exact failsForGood_throw rfl
    | some j => exact failsForGood_pure j
  refine hrequire.bind fun j => (failsForGood_requireModule model .model).bind fun m =>
    (failsForGood_find? j.dataset).bind fun found => ?_
  simp only
  split
  · exact (failsForGood_build _ _ _).bind fun _ => nofun
  · exact failsForGood_pure false

end Transaction

/-! ## The result -/

/-- The report tells of these jobs what a fan-out did to them, and nothing else was done. -/
structure FanOut.Tells (report : FanOut) (model : String) (ids : List String) (s t : Store) :
    Prop where
  names : report.model = model
  /-- Every job is reported, on one side. -/
  perm : (report.updated ++ report.failed).Perm ids
  updated : ∀ id ∈ report.updated, ∃ (j : Job) (configSpace : String),
    s.document? id = .ok (some j) ∧
    ConfigSpace.build id (j.models ++ [model]) j.configOverrides s = .ok (configSpace, s) ∧
    t.document? id = .ok (some { j with models := j.models ++ [model], configSpace })
  failed : ∀ id ∈ report.failed, ∃ e, Job.appendModel id model s = .error e
  kept : ∀ c k, ¬ (c = .jobs ∧ k ∈ report.updated) → (t.table c).find? k = (s.table c).find? k
  claims : t.ordinalClaims = s.ordinalClaims

namespace Job

variable {s : Store} {m : Module} {model : String}

/-- What the report says of the jobs of the list, where the jobs that can be extended have been. -/
theorem tells_extendAll (hjobs : s.Keyed Job) (hdatasets : s.Keyed Dataset)
    (hm : s.document? model = .ok (some m)) (hkind : m.kind = .model) (hactive : m.status = .active)
    {ids : List String} (hqualify : AllQualify s m model ids) :
    FanOut.Tells
      { model
        updated := ids.filter fun id => (extended? model s id).isSome
        failed := ids.filter fun id => (extended? model s id).isNone }
      model ids s (extendAll model ids s) where
  names := rfl
  perm := by
    have hperm := List.filter_append_perm (fun id => (extended? model s id).isSome) ids
    simpa only [Option.not_isSome] using hperm
  updated id hid := by
    obtain ⟨hmem, hsome⟩ := List.mem_filter.1 hid
    obtain ⟨j', hj'⟩ := Option.isSome_iff_exists.1 hsome
    have hread := document?_extendAll hjobs hmem hj'
    obtain ⟨j, configSpace, hj, hbuild, rfl⟩ := extended?_eq_some.1 hj'
    -- the job that was read under the id has that id, so it is read back where it was
    obtain rfl : j.id = id := hjobs.key_eq hj
    exact ⟨j, configSpace, hj, hbuild, hread⟩
  failed id hid := by
    obtain ⟨hmem, hnone⟩ := List.mem_filter.1 hid
    obtain ⟨j, hj, hqualifies⟩ := hqualify id hmem
    rcases appendModel_eq_ok_of_qualifies hdatasets hj hm hkind hactive hqualifies with
      ⟨j', hextended, -⟩ | ⟨-, he⟩
    · -- a job that could have been extended is not among those that failed
      rw [hextended] at hnone
      cases hnone
    · exact he
  kept c k hk := find?_extendAll hjobs hk
  claims := Store.ordinalClaims_putAll s _

/-- Trying the jobs again that failed fails on them again. -/
theorem foldlM_appendReporting_failed (hjobs : s.Keyed Job) (hdatasets : s.Keyed Dataset)
    (hm : s.document? model = .ok (some m)) (hkind : m.kind = .model) (hactive : m.status = .active)
    {ids : List String} (hnodup : ids.Nodup)
    (hids : ∀ id, id ∈ ids ↔ ∃ j : Job, s.document? id = .ok (some j) ∧ j.Qualifies s m model)
    {r : FanOut} (hr : r.model = model) :
    ((ids.filter fun id => (extended? model s id).isNone).foldlM appendReporting r).on
        (extendAll model ids s) =
      (.ok { r with failed := r.failed ++ ids.filter fun id => (extended? model s id).isNone },
        extendAll model ids s) := by
  let failed := ids.filter fun id => (extended? model s id).isNone
  have hfailed : failed.Nodup := hnodup.filter _
  have hqualify : AllQualify (extendAll model ids s) m model failed := fun id hid =>
    (qualifies_extendAll_iff hjobs hids id).2 hid
  -- there was no text for them, and there is none now
  have hnone : ∀ id ∈ failed, extended? model (extendAll model ids s) id = none := by
    intro id hid
    have hnone := Option.isNone_iff_eq_none.1 (List.mem_filter.1 hid).2
    have hfind := find?_extendAll_of_eq_none hjobs ids hnone
    rw [extended?_congr (Store.document?_eq_of_find? hfind) (table_extendAll_of_ne (by decide) ids),
      hnone]
  have hfold := foldlM_appendReporting (keyed_extendAll hjobs ids)
    (keyed_datasets_extendAll hdatasets ids)
      (document?_module_extendAll hm ids) hkind hactive hfailed
    hqualify hr
  have hupdated :
      (failed.filter fun id => (extended? model (extendAll model ids s) id).isSome) = [] :=
    List.filter_eq_nil_iff.2 fun id hid => by rw [hnone id hid]; exact Bool.false_ne_true
  have hagain : (failed.filter fun id => (extended? model (extendAll model ids s) id).isNone) =
      failed :=
    List.filter_eq_self.2 fun id hid => by rw [hnone id hid]; rfl
  rw [hupdated, hagain, List.filterMap_eq_nil_iff.2 hnone, List.append_nil] at hfold
  exact hfold

end Job

namespace Workbench

/-- The job, which takes new models. -/
def willing : Job := { job with acceptNewModels := true }

/-- Another one, which lists a model that is not there. -/
def stuck : Job := { willing with id := "k", models := ["gone"] }

/-- The model that is new. -/
def novel : Module := { model with id := "n" }

def shop : Store := ((store.put willing).put stuck).put novel

/-- The shop is filled through the program's own writes. -/
theorem wellFormed_shop : shop.WellFormed :=
  ((reachable.wellFormed.put willing).put stuck).put novel

/-- The model that is appended was put last. -/
theorem shop_has_novel : shop.Has novel := Store.has_put_self _ novel

/-- The job with a dead model is in the shop. -/
theorem shop_has_stuck : shop.Has stuck :=
  (Store.has_put_of_collection_ne _ (by decide)).2 (Store.has_put_self _ stuck)

/-- The job with a live model is in the shop. -/
theorem shop_has_willing : shop.Has willing := by
  rw [shop, Store.has_put_of_collection_ne _ (by decide), Store.has_put_of_ne (by decide)]
  exact Store.has_put_self _ willing

/-- The live model is in the shop. -/
theorem shop_has_model : shop.Has model := by
  rw [shop, Store.has_put_of_ne (by decide), Store.has_put_of_collection_ne _ (by decide),
    Store.has_put_of_collection_ne _ (by decide), store,
    Store.has_put_of_collection_ne _ (by decide)]
  exact catalog_has_model

/-- The dataset that fits is in the shop. -/
theorem shop_has_dataset : shop.Has dataset := by
  rw [shop, Store.has_put_of_collection_ne _ (by decide),
    Store.has_put_of_collection_ne _ (by decide), Store.has_put_of_collection_ne _ (by decide),
    store, Store.has_put_of_collection_ne _ (by decide)]
  exact catalog_has_dataset

/-- The job with a live model qualifies for the new one. -/
theorem qualifies_willing : willing.Qualifies shop novel "n" where
  isOpen := rfl
  accepts := rfl
  fits := ⟨dataset, shop_has_dataset.document?, rfl, rfl, rfl⟩
  new := by decide

/-- The job with a dead model qualifies as well; it fails only when its configuration space is
built. -/
theorem qualifies_stuck : stuck.Qualifies shop novel "n" where
  isOpen := rfl
  accepts := rfl
  fits := ⟨dataset, shop_has_dataset.document?, rfl, rfl, rfl⟩
  new := by decide

/-- The willing job can have the model. -/
theorem append_willing (e : StateError) : Job.appendModel "j" "n" shop ≠ .error e := by
  have hread (model : String) : ConfigSpace.readDefinition model "\x7b\x7d" = .ok (.object []) := by
    rfl
  -- both definitions are empty objects, so the space is built
  have hbuild : ConfigSpace.build "j" ["m", "n"] .empty shop =
      .ok ((ConfigSpace.ofChoices "j" [("m", .object []), ("n", .object [])]).render, shop) := by
    refine ConfigSpace.build_eq_ok.2 ⟨by decide, _, .cons ?_ (.cons ?_ .nil), rfl, rfl⟩
    · exact ConfigSpace.choice_eq_ok.2
        ⟨model, _, shop_has_model.document?, rfl, rfl, hread "m", rfl, rfl⟩
    · exact ConfigSpace.choice_eq_ok.2
        ⟨novel, _, shop_has_novel.document?, rfl, rfl, hread "n", rfl, rfl⟩
  intro he
  rcases Job.appendModel_eq_ok_of_qualifies wellFormed_shop.keyed shop_has_willing.document?
    shop_has_novel.document? rfl rfl qualifies_willing with ⟨_, -, hok⟩ | ⟨hnone, -⟩
  · cases hok.symm.trans he
  · obtain ⟨e', he'⟩ := (Job.extended?_eq_none shop_has_willing.document?).1 hnone
    cases hbuild.symm.trans he'

/-- The stuck job cannot have any. -/
theorem build_stuck (models : List String) (overrides : Overrides) (text : String) :
    ConfigSpace.build "k" ("gone" :: models) overrides shop ≠ .ok (text, shop) := by
  intro h
  obtain ⟨-, choices, hchoices, -, -⟩ := ConfigSpace.build_eq_ok.1 h
  cases hchoices with
  | cons hchoice _ =>
    obtain ⟨m, _, hm, -, -, -, -, -⟩ := ConfigSpace.choice_eq_ok.1 hchoice
    have hnone : shop.document? (D := Module) "gone" = .ok none := Store.document?_eq_ok_none.2 rfl
    cases hnone.symm.trans hm

end Workbench

/-- **Model fan-out is exact, faithful in its report and repeatable.** Where jobs and datasets are
read, each under its own key, the jobs that qualify for an active model are exactly those that the
scan finds. A fan-out reports each of them once: as updated, and then it has the model behind its
models and the text of its configuration space with it, or as failed, and then appending the model
fails. Nothing else is written, and no failure is one that waiting helps with. Another fan-out at
any time updates nothing and fails on the same jobs, and so does trying the failed ones once more. -/
theorem model_fan_out_is_exact {s : Store} (hjobs : s.Keyed Job) (hdatasets : s.Keyed Dataset)
    {model : String} {m : Module} (hm : s.document? model = .ok (some m)) (hkind : m.kind = .model)
    (hactive : m.status = .active) (now : Millis) :
    ∃ (ids : List String) (report : FanOut) (t : Store),
      (Job.applicable now model).on s = (.ok ids, s) ∧ ids.Nodup ∧
      (∀ id, id ∈ ids ↔ ∃ j : Job, s.document? id = .ok (some j) ∧ j.Qualifies s m model) ∧
      (Job.addModel now model).on s = (.ok report, t) ∧ report.Tells model ids s t ∧
      (∀ later, (Job.addModel later model).on t =
        (.ok { model, updated := [], failed := report.failed }, t)) ∧
      (Job.fanOut now model).on s = (.ok report, t) ∧
      ∀ (u : Store) (id : String) (e : StateError),
        Job.appendModel id model u = .error e → e.isTransient = false := by
  obtain ⟨ids, happlicable, hsorted, hids⟩ :=
    Job.exists_applicable_on hjobs hdatasets hm hkind hactive now
  have hnodup := nodup_of_pairwise_lt hsorted
  have hqualify : Job.AllQualify s m model ids := fun id hid => (hids id).1 hid
  have hadd := Session.bind_on_eq_ok.2 ⟨ids, s, happlicable,
    Job.foldlM_appendReporting hjobs hdatasets hm hkind hactive hnodup hqualify
      (r := { model }) rfl⟩
  have hretry {r : FanOut} (hr : r.model = model) :=
    Job.foldlM_appendReporting_failed hjobs hdatasets hm hkind hactive hnodup hids hr
  refine ⟨ids, _, Job.extendAll model ids s, happlicable, hnodup, hids, hadd,
    Job.tells_extendAll hjobs hdatasets hm hkind hactive hqualify, fun later => ?_, ?_,
    fun u id e => failsForGood_appendModel id model u e⟩
  · obtain ⟨again, hagain, hsorted', hids'⟩ :=
      Job.exists_applicable_on (Job.keyed_extendAll hjobs ids)
        (Job.keyed_datasets_extendAll hdatasets ids) (Job.document?_module_extendAll hm ids)
        hkind hactive later
    -- the scan finds the failed jobs, in the order in which they are reported
    have hfailed : again = ids.filter fun id => (Job.extended? model s id).isNone := by
      refine eq_of_pairwise_lt hsorted' (hsorted.sublist List.filter_sublist) fun id => ?_
      rw [hids', Job.qualifies_extendAll_iff hjobs hids]
    rw [hfailed] at hagain
    exact Session.bind_on_eq_ok.2 ⟨_, _, hagain, hretry rfl⟩
  · exact Session.bind_on_eq_ok.2 ⟨_, _, hadd, hretry rfl⟩

/-- Of two jobs that a new model is for one gets it, and the other one fails, both times. -/
theorem model_fan_out_is_exact_at_shop :
    ∃ (report : FanOut) (t : Store), (Job.addModel 7 "n").on Workbench.shop = (.ok report, t) ∧
      "j" ∈ report.updated ∧ "k" ∈ report.failed ∧
      (Job.addModel 8 "n").on t =
        (.ok { model := "n", updated := [], failed := report.failed }, t) := by
  obtain ⟨ids, report, t, -, -, hids, hadd, htells, hagain, -, -⟩ :=
    model_fan_out_is_exact Workbench.wellFormed_shop.keyed Workbench.wellFormed_shop.keyed
      Workbench.shop_has_novel.document? rfl rfl 7
  have hwilling : "j" ∈ ids :=
    (hids "j").2 ⟨_, Workbench.shop_has_willing.document?, Workbench.qualifies_willing⟩
  have hstuck : "k" ∈ ids :=
    (hids "k").2 ⟨_, Workbench.shop_has_stuck.document?, Workbench.qualifies_stuck⟩
  -- each of the two jobs is in exactly one of the two lists
  rw [← htells.perm.mem_iff, List.mem_append] at hwilling hstuck
  refine ⟨report, t, hadd, hwilling.resolve_right fun hfailed => ?_,
    hstuck.resolve_left fun hupdated => ?_, hagain 8⟩
  · obtain ⟨e, he⟩ := htells.failed "j" hfailed
    exact Workbench.append_willing e he
  · obtain ⟨j, text, hj, hbuild, -⟩ := htells.updated "k" hupdated
    obtain rfl : Workbench.stuck = j :=
      Option.some.inj (Except.ok.inj (Workbench.shop_has_stuck.document?.symm.trans hj))
    exact Workbench.build_stuck _ _ _ hbuild

namespace Workbench

/-- A shop whose dataset lies under another key than its id. -/
def misfiled : Store :=
  (((Store.empty.insert .datasets "x" (encode dataset)).put model).put willing).put novel

/-- Where a dataset lies does not matter to reading it. -/
theorem misfiled_readable (c : Collection) : misfiled.Readable c := by
  have hdataset : Collection.datasets.Reads (encode dataset) :=
    ⟨dataset, LawfulDocument.decode_encode dataset⟩
  exact ((((Store.readable_empty c).insert hdataset "x").put model).put willing).put novel

/-- The model that is appended is in the misfiled shop. -/
theorem misfiled_has_novel : misfiled.Has novel := Store.has_put_self _ novel

/-- The job with a live model is in the misfiled shop. -/
theorem misfiled_has_willing : misfiled.Has willing :=
  (Store.has_put_of_collection_ne _ (by decide)).2 (Store.has_put_self _ willing)

/-- The scan goes by the ids that the datasets bear. -/
theorem applicable_misfiled : (Job.applicable 7 "n").on misfiled = (.ok ["j"], misfiled) := by
  have hfetch : fetch 7 "n" misfiled = .ok (novel, misfiled) :=
    bind_eq_ok.2 ⟨novel, _, require_eq_ok.2 ⟨misfiled_has_novel.document?, rfl⟩, rfl⟩
  have hdatasets : scan 7 (Dataset.fits novel) misfiled = .ok ([dataset], misfiled) :=
    scan_eq_ok.2 ⟨[dataset], Store.documents_of_values rfl, rfl, rfl⟩
  have hjobs : scan 7 (Job.wants "n" ["d"]) misfiled = .ok ([willing.refresh 7], misfiled) :=
    scan_eq_ok.2 ⟨[willing], Store.documents_of_values rfl, rfl, rfl⟩
  refine Session.bind_on_eq_ok.2 ⟨novel, misfiled, Session.transact_on_eq_ok.2 hfetch, ?_⟩
  refine Session.bind_on_eq_ok.2 ⟨[dataset], misfiled, Session.transact_on_eq_ok.2 hdatasets, ?_⟩
  exact Session.bind_on_eq_ok.2
    ⟨[willing.refresh 7], misfiled, Session.transact_on_eq_ok.2 hjobs, rfl⟩

/-- The transaction goes by what lies under the id. -/
theorem appendModel_misfiled : Job.appendModel "j" "n" misfiled = .ok (false, misfiled) := by
  have hj : require "j" misfiled = .ok (willing, misfiled) :=
    require_eq_ok.2 ⟨misfiled_has_willing.document?, rfl⟩
  have hm : requireModule "n" .model misfiled = .ok (novel, misfiled) :=
    requireModule_eq_ok.2 ⟨misfiled_has_novel.document?, rfl, rfl, rfl⟩
  have hnone : find? (D := Dataset) willing.dataset misfiled = .ok (none, misfiled) :=
    find?_eq_ok.2 ⟨Store.document?_eq_ok_none.2 rfl, rfl⟩
  rw [Job.appendModel, bind_of_ok hj, bind_of_ok hm, bind_of_ok hnone]
  rfl

end Workbench

/-- A job on a dataset that lies under another key than its id is found by the scan, and reported
neither as updated nor as failed. -/
theorem fan_out_may_leave_a_job_out :
    (∀ c, Workbench.misfiled.Readable c) ∧
      Workbench.misfiled.document? "n" = .ok (some Workbench.novel) ∧
      (Job.applicable 7 "n").on Workbench.misfiled = (.ok ["j"], Workbench.misfiled) ∧
      (Job.addModel 7 "n").on Workbench.misfiled = (.ok { model := "n" }, Workbench.misfiled) := by
  -- appending finds no dataset under the job's dataset id, and answers that nothing was appended
  have hcommit := Session.transact_on_eq_ok.2 Workbench.appendModel_misfiled
  have hreport : (Job.appendReporting { model := "n" } "j").on Workbench.misfiled =
      (.ok { model := "n" }, Workbench.misfiled) :=
    Session.bind_on_eq_ok.2 ⟨.ok false, Workbench.misfiled, Session.attempt_on hcommit, rfl⟩
  have hfold : ((["j"] : List String).foldlM Job.appendReporting { model := "n" }).on
      Workbench.misfiled = (.ok { model := "n" }, Workbench.misfiled) :=
    Session.bind_on_eq_ok.2 ⟨{ model := "n" }, Workbench.misfiled, hreport, rfl⟩
  exact ⟨Workbench.misfiled_readable, Workbench.misfiled_has_novel.document?,
    Workbench.applicable_misfiled,
    Session.bind_on_eq_ok.2 ⟨["j"], Workbench.misfiled, Workbench.applicable_misfiled, hfold⟩⟩

end Fleet
