import Fleet.Proofs.Job.ConfigSpace
import Fleet.Proofs.Job.FanOut

/-!
# Which jobs take a new model

Whether a job qualifies for a model says nothing of the models that it lists, but the text with the
new model is built of all of them, as they are by then. So a job that qualifies takes the model if
all the models that it lists are active still and all definitions are JSON (`Job.CanTake`), and else
it is refused (`exists_extended?_iff`). In a store that operations lead to, the definitions that a
job has for the models that it lists are JSON already, for its text shows them; what a module says
of itself may have changed, and so may whether it is active.
-/

set_option autoImplicit false

namespace Fleet

open Document (collection key encode decode)
open Transaction

/-! ## Choices that can be made -/

/-- The text is JSON. -/
def Json.IsJson (text : String) : Prop := ∃ v, Json.read text = .ok v

/-- A list of choices exists if there is a choice for each item. -/
theorem exists_forall₂_iff {α β : Type} {R : α → β → Prop} {as : List α} :
    (∃ bs, List.Forall₂ R as bs) ↔ ∀ a ∈ as, ∃ b, R a b := by
  induction as with
  | nil => exact ⟨fun _ _ ha => absurd ha List.not_mem_nil, fun _ => ⟨[], .nil⟩⟩
  | cons a as ih =>
    rw [List.forall_mem_cons, ← ih]
    constructor
    · rintro ⟨_, hab | ⟨hab, hrest⟩⟩
      exact ⟨⟨_, hab⟩, _, hrest⟩
    · rintro ⟨⟨b, hab⟩, bs, hrest⟩
      exact ⟨b :: bs, .cons hab hrest⟩

namespace ConfigSpace

variable {s : Store} {overrides : Overrides} {model : String}

/-- A choice can be made for an active model whose definition is JSON. -/
theorem exists_choice_iff : (∃ c, choice overrides model s = .ok (c, s)) ↔
    ∃ m : Module, s.document? model = .ok (some m) ∧ m.kind = .model ∧ m.status = .active ∧
      Json.IsJson ((overrides.find? model).getD m.configSpace) := by
  constructor
  · rintro ⟨c, hc⟩
    obtain ⟨m, v, hm, hkind, hactive, hread, -, -⟩ := choice_eq_ok.1 hc
    exact ⟨m, hm, hkind, hactive, v, readDefinition_eq_ok.1 hread⟩
  · rintro ⟨m, hm, hkind, hactive, v, hread⟩
    exact ⟨_, choice_eq_ok.2 ⟨m, v, hm, hkind, hactive, readDefinition_eq_ok.2 hread, rfl, rfl⟩⟩

/-- A configuration space can be built if there are models and each one can be chosen from. -/
theorem exists_build_iff {job : String} {models : List String} :
    (∃ text, build job models overrides s = .ok (text, s)) ↔
      models ≠ [] ∧ ∀ model ∈ models, ∃ c, choice overrides model s = .ok (c, s) := by
  rw [← exists_forall₂_iff]
  constructor
  · rintro ⟨text, htext⟩
    obtain ⟨hne, choices, hchoices, -, -⟩ := build_eq_ok.1 htext
    exact ⟨hne, choices, hchoices⟩
  · rintro ⟨hne, choices, hchoices⟩
    exact ⟨_, build_eq_ok.2 ⟨hne, choices, hchoices, rfl, rfl⟩⟩

end ConfigSpace

/-! ## Refusals -/

namespace Transaction

variable {α β : Type} {s : Store}

/-- If the transaction fails on the store, it is for what was asked. -/
def Refuses (tr : Transaction α) (s : Store) : Prop :=
  ∀ e, tr s = .error e → ∃ text, e = .badInput text

/-- A value is no failure. -/
theorem refuses_pure (a : α) : Refuses (pure a) s := nofun

/-- A refusal is a refusal. -/
theorem refuses_throw (text : String) : Refuses (throw (.badInput text) : Transaction α) s := by
  intro e h
  cases h
  exact ⟨text, rfl⟩

/-- A success is no failure. -/
theorem refuses_of_ok {tr : Transaction α} {r : α × Store} (h : tr s = .ok r) : tr.Refuses s := by
  intro e he
  cases h.symm.trans he

/-- A sequence refuses if both of its parts do. -/
theorem Refuses.bind {tr : Transaction α} {f : α → Transaction β} (h : tr.Refuses s)
    (honly : ReadsOnly tr) (hf : ∀ a, (f a).Refuses s) : (tr >>= f).Refuses s := by
  intro e he
  rcases bind_eq_error.1 he with htr | ⟨a, s', ha, hfa⟩
  · exact h e htr
  · obtain rfl := honly _ a s' ha
    exact hf a e hfa

/-- A transaction over a list refuses if it does for each item. -/
theorem refuses_mapM {f : α → Transaction β} (hf : ∀ a, (f a).Refuses s)
    (honly : ∀ a, ReadsOnly (f a)) (as : List α) : Refuses (as.mapM f) s := by
  induction as with
  | nil => exact refuses_pure []
  | cons a as ih =>
    rw [List.mapM_cons]
    exact (hf a).bind (honly a) fun b => ih.bind (.mapM honly as) fun bs => refuses_pure (b :: bs)

/-- A module that does not do is a refusal, where modules can be read. -/
theorem refuses_requireModule (hs : s.Readable .modules) (id : String) (kind : ModuleKind) :
    Refuses (requireModule id kind) s := by
  obtain ⟨found, hfound⟩ := Store.Readable.exists_document? (D := Module) hs id
  refine (refuses_of_ok (find?_eq_ok.2 ⟨hfound, rfl⟩)).bind (readsOnly_find? id) fun found => ?_
  cases found with
  | none => exact refuses_throw _
  | some m =>
    simp only
    split
    · exact refuses_throw _
    · split
      · exact refuses_throw _
      · exact refuses_pure m

/-- So is a choice that cannot be made. -/
theorem refuses_choice (hs : s.Readable .modules) (overrides : Overrides) (model : String) :
    Refuses (ConfigSpace.choice overrides model) s := by
  refine (refuses_requireModule hs model .model).bind (readsOnly_requireModule model .model)
    fun m => Refuses.bind ?_ (.liftM _) fun v => refuses_pure _
  unfold ConfigSpace.readDefinition
  split
  · exact refuses_pure _
  · exact refuses_throw _

/-- A text is refused for a module that is missing or not active, or for a definition. -/
theorem refuses_build (hs : s.Readable .modules) (job : String) (models : List String)
    (overrides : Overrides) : Refuses (ConfigSpace.build job models overrides) s := by
  unfold ConfigSpace.build
  split
  · exact refuses_throw _
  · exact (refuses_mapM (refuses_choice hs overrides)
      (ConfigSpace.readsOnly_choice overrides) models).bind
      (.mapM (ConfigSpace.readsOnly_choice overrides) models) fun _ => refuses_pure _

end Transaction

/-! ## Jobs that take a model -/

namespace Job

variable {s : Store} {m : Module} {model : String} {j : Job}

/-- The models that the job lists are active ones, and the definitions in which it would offer them
and the new model are JSON: those that modules have where the job has none of its own, and the one
that the job may have for the new model. -/
structure CanTake (s : Store) (model : String) (j : Job) : Prop where
  listed : ∀ id ∈ j.models, ∃ l : Module, s.document? id = .ok (some l) ∧ l.kind = .model ∧
    l.status = .active ∧ (j.configOverrides.find? id = none → Json.IsJson l.configSpace)
  new : ∀ definition, j.configOverrides.find? model = some definition → Json.IsJson definition

/-- The definitions that a job has for its models are JSON if its text shows them. -/
theorem Mirrored.isJson (h : j.Mirrored) {id definition : String} (hid : id ∈ j.models)
    (hdefinition : j.configOverrides.find? id = some definition) : Json.IsJson definition := by
  obtain ⟨-, choices, hmodels, hdefines, -⟩ := h
  rw [← hmodels] at hid
  obtain ⟨c, hc, rfl⟩ := List.mem_map.1 hid
  obtain ⟨text, hread, hoverride⟩ := hdefines c hc
  exact ⟨c.2, hoverride definition hdefinition ▸ hread⟩

/-- A job whose text shows its definitions can have the text with an active model if it can take it. -/
theorem exists_extended?_iff (hj : s.document? j.id = .ok (some j)) (hmirrored : j.Mirrored)
    (hm : s.document? model = .ok (some m)) (hkind : m.kind = .model) (hactive : m.status = .active)
    (hdefinition : Json.IsJson m.configSpace) :
    (extended? model s j.id).isSome ↔ j.CanTake s model := by
  have hbuild : (extended? model s j.id).isSome ↔
      ∃ text, ConfigSpace.build j.id (j.models ++ [model]) j.configOverrides s = .ok (text, s) := by
    rw [Option.isSome_iff_exists]
    constructor
    · rintro ⟨j', hj'⟩
      obtain ⟨i, text, hi, htext, -⟩ := extended?_eq_some.1 hj'
      obtain rfl := Store.eq_of_document? hj hi
      exact ⟨text, htext⟩
    · rintro ⟨text, htext⟩
      exact ⟨_, extended?_eq_some.2 ⟨j, text, hj, htext, rfl⟩⟩
  -- a text can be built if each listed model can be offered, and the new one too
  rw [hbuild, ConfigSpace.exists_build_iff]
  simp only [ConfigSpace.exists_choice_iff, List.mem_append, List.mem_singleton]
  constructor
  · rintro ⟨-, hall⟩
    refine ⟨fun id hid => ?_, fun definition hoverride => ?_⟩
    · obtain ⟨l, hl, hlkind, hlactive, hread⟩ := hall id (.inl hid)
      refine ⟨l, hl, hlkind, hlactive, fun hnone => ?_⟩
      rwa [hnone, Option.getD_none] at hread
    · obtain ⟨_, -, -, -, hread⟩ := hall model (.inr rfl)
      rwa [hoverride, Option.getD_some] at hread
  · rintro ⟨hlisted, hnew⟩
    refine ⟨by simp, ?_⟩
    rintro id (hid | rfl)
    · obtain ⟨l, hl, hlkind, hlactive, hread⟩ := hlisted id hid
      refine ⟨l, hl, hlkind, hlactive, ?_⟩
      cases hoverride : j.configOverrides.find? id with
      | none => exact hread hoverride
      | some definition => exact hmirrored.isJson hid hoverride
    · refine ⟨m, hm, hkind, hactive, ?_⟩
      cases hoverride : j.configOverrides.find? id with
      | none => exact hdefinition
      | some definition => exact hnew definition hoverride

/-- A job that qualifies and cannot take the model is refused. -/
theorem appendModel_eq_error (hmodules : s.Keyed Module) (hdatasets : s.Keyed Dataset)
    (hj : s.document? j.id = .ok (some j)) (hm : s.document? model = .ok (some m))
    (hkind : m.kind = .model) (hactive : m.status = .active) (hqualifies : j.Qualifies s m model)
    (hnone : extended? model s j.id = none) :
    ∃ text, appendModel j.id model s = .error (.badInput text) := by
  obtain ⟨e, hbuild⟩ := (extended?_eq_none hj).1 hnone
  obtain ⟨text, rfl⟩ :=
    refuses_build hmodules.readable j.id (j.models ++ [model]) j.configOverrides e hbuild
  refine ⟨text, ?_⟩
  rw [appendModel_of_qualifies hdatasets hj hm hkind hactive hqualifies]
  exact bind_eq_error.2 (.inl hbuild)

end Job

/-- A job that qualifies takes the model exactly if a space can be made with it, and is refused
without a change otherwise. -/
theorem Job.appendModel_decides {s : Store} (hs : s.Reachable) {model : String} {m : Module}
    (hm : s.document? model = .ok (some m)) (hkind : m.kind = .model) (hactive : m.status = .active)
    (hdefinition : Json.IsJson m.configSpace) {j : Job} (hj : s.Has j)
    (hqualifies : j.Qualifies s m model) :
    (j.CanTake s model → ∃ configSpace, (Job.appendModel j.id model).commit s =
      (.ok true, s.put { j with models := j.models ++ [model], configSpace })) ∧
    (¬ j.CanTake s model → ∃ text, (Job.appendModel j.id model).commit s =
      (.error (.badInput text), s)) := by
  have hwf := hs.wellFormed
  have hdatasets : s.Keyed Dataset := hwf.keyed
  have hcan : (Job.extended? model s j.id).isSome ↔ j.CanTake s model :=
    Job.exists_extended?_iff hj.document? (hs.jobsMirrored j hj) hm hkind hactive hdefinition
  constructor
  · intro hyes
    obtain ⟨j', hextended⟩ := Option.isSome_iff_exists.1 (hcan.2 hyes)
    rcases Job.appendModel_eq_ok_of_qualifies hdatasets hj.document? hm hkind hactive
      hqualifies with ⟨i, hi, happend⟩ | ⟨hnone, -⟩
    · obtain ⟨j₀, configSpace, hj₀, -, rfl⟩ := Job.extended?_eq_some.1 hi
      obtain rfl := Store.eq_of_document? hj.document? hj₀
      exact ⟨configSpace, commit_eq_ok.2 happend⟩
    · cases hnone.symm.trans hextended
  · intro hno
    have hnone : Job.extended? model s j.id = none := by
      rw [← hcan, Bool.not_eq_true, Option.isSome_eq_false_iff, Option.isNone_iff_eq_none] at hno
      exact hno
    obtain ⟨text, happend⟩ := Job.appendModel_eq_error hwf.keyed hdatasets hj.document? hm hkind
      hactive hqualifies hnone
    exact ⟨text, by rw [commit, happend]⟩

/-! ## The result -/

/-- **Which applicable jobs take a new model.** In every store that operations lead to, let a model
be active and its own definition JSON. The scan finds the jobs that qualify for it. Appending the
model to one of them succeeds and adds it behind the models of the job, if the models that the job
lists are active and the definitions JSON; else it is refused for bad input, and nothing changes. A
fan-out updates the jobs of the first kind and reports those of the second kind as failed, each
once, and changes nothing else. -/
theorem applicable_jobs_take_what_they_can {s : Store} (hs : s.Reachable) {model : String}
    {m : Module} (hm : s.document? model = .ok (some m)) (hkind : m.kind = .model)
    (hactive : m.status = .active)
    (hdefinition : Json.IsJson m.configSpace) (now : Millis) :
    (∀ j : Job, s.Has j → j.Qualifies s m model →
      (j.CanTake s model → ∃ configSpace, (Job.appendModel j.id model).commit s =
        (.ok true, s.put { j with models := j.models ++ [model], configSpace })) ∧
      (¬ j.CanTake s model → ∃ text, (Job.appendModel j.id model).commit s =
        (.error (.badInput text), s))) ∧
    ∃ (ids : List String) (report : FanOut) (t : Store),
      (Job.applicable now model).on s = (.ok ids, s) ∧ ids.Nodup ∧
      (∀ id, id ∈ ids ↔ ∃ j : Job, s.Has j ∧ j.id = id ∧ j.Qualifies s m model) ∧
      (Job.addModel now model).on s = (.ok report, t) ∧ report.Tells model ids s t ∧
      ∀ j : Job, s.Has j →
        (j.id ∈ report.updated ↔ j.Qualifies s m model ∧ j.CanTake s model) ∧
        (j.id ∈ report.failed ↔ j.Qualifies s m model ∧ ¬ j.CanTake s model) := by
  have hwf := hs.wellFormed
  have hjobs : s.Keyed Job := hwf.keyed
  have hdatasets : s.Keyed Dataset := hwf.keyed
  -- what becomes of a job is known from the store that the fan-out begins with
  have hcan {j : Job} (hj : s.Has j) : (Job.extended? model s j.id).isSome ↔ j.CanTake s model :=
    Job.exists_extended?_iff hj.document? (hs.jobsMirrored j hj) hm hkind hactive hdefinition
  obtain ⟨ids, happlicable, hsorted, hids⟩ :=
    Job.exists_applicable_on hjobs hdatasets hm hkind hactive now
  have hnodup := nodup_of_pairwise_lt hsorted
  have hqualify : Job.AllQualify s m model ids := fun id hid => (hids id).1 hid
  have hmem (id : String) : id ∈ ids ↔ ∃ j : Job, s.Has j ∧ j.id = id ∧ j.Qualifies s m model := by
    rw [hids]
    constructor
    · rintro ⟨j, hj, hqualifies⟩
      obtain ⟨hj, hid⟩ := hwf.document?_eq_ok_some.1 hj
      exact ⟨j, hj, hid, hqualifies⟩
    · rintro ⟨j, hj, rfl, hqualifies⟩
      exact ⟨j, hj.document?, hqualifies⟩
  have hmem_iff {j : Job} (hj : s.Has j) : j.id ∈ ids ↔ j.Qualifies s m model := by
    rw [hmem]
    constructor
    · rintro ⟨i, hi, hid, hqualifies⟩
      obtain rfl : i = j := hi.eq_of_key_eq hj hid
      exact hqualifies
    · exact fun hqualifies => ⟨j, hj, rfl, hqualifies⟩
  have happends := Job.foldlM_appendReporting hjobs hdatasets hm hkind hactive hnodup hqualify
    (r := { model }) rfl
  refine ⟨fun j hj => Job.appendModel_decides hs hm hkind hactive hdefinition hj, ids, _, _,
    happlicable, hnodup, hmem, Session.bind_on_eq_ok.2 ⟨ids, s, happlicable, happends⟩,
    Job.tells_extendAll hjobs hdatasets hm hkind hactive hqualify, fun j hj => ⟨?_, ?_⟩⟩
  · simp only [List.nil_append]
    rw [List.mem_filter, hmem_iff hj, hcan hj]
  · simp only [List.nil_append]
    rw [List.mem_filter, hmem_iff hj, ← hcan hj, Bool.not_eq_true, Option.isSome_eq_false_iff]

namespace Workbench

/-- The store in which a job takes new models and there is one. -/
def market : Store := (store.put willing).put novel

/-- The model that the job lists, when it is active no more. -/
def archived : Module := { model with status := .archived }

/-- The market is filled by accesses. -/
theorem reachable_market : market.Reachable := by
  have hchange : Job.change 5 .root "j" { acceptNewModels := some true } store =
      .ok (willing.refresh 5, store.put willing) :=
    Job.change_eq_ok.2
      ⟨job, willing, (Store.has_put_self catalog job).document?, rfl, rfl, rfl, rfl⟩
  have hafter : (Access.updateJob .root "j" { acceptNewModels := some true }).after 5 store =
      store.put willing := Access.after_eq_of_ok (Transaction.map_eq_ok.2 ⟨_, hchange, rfl⟩)
  have hreachable := reachable.after 5 (.updateJob .root "j" { acceptNewModels := some true })
  rw [hafter] at hreachable
  exact hreachable.after 6 (.putModule novel)

/-- An empty object is a definition. -/
theorem isJson_braces : Json.IsJson "\x7b\x7d" := ⟨.object [], rfl⟩

/-- The job is in the market. -/
theorem market_has_willing : market.Has willing :=
  (Store.has_put_of_collection_ne _ (by decide)).2 (Store.has_put_self _ willing)

/-- Its dataset is in the market. -/
theorem market_has_dataset : market.Has dataset := by
  rw [market, Store.has_put_of_collection_ne _ (by decide),
    Store.has_put_of_collection_ne _ (by decide),
    store, Store.has_put_of_collection_ne _ (by decide)]
  exact catalog_has_dataset

/-- Its model is in the market. -/
theorem market_has_model : market.Has model := by
  rw [market, Store.has_put_of_ne (by decide), Store.has_put_of_collection_ne _ (by decide), store,
    Store.has_put_of_collection_ne _ (by decide)]
  exact catalog_has_model

/-- The job qualifies for the new model where its dataset is. -/
theorem qualifies_willing_of_has {s : Store} (hs : s.Has dataset) :
    willing.Qualifies s novel "n" where
  isOpen := rfl
  accepts := rfl
  fits := ⟨dataset, hs.document?, rfl, rfl, rfl⟩
  new := by decide

/-- It can take the new model as well. -/
theorem canTake_willing : willing.CanTake market "n" where
  listed id hid := by
    obtain rfl : id = "m" := List.mem_singleton.1 hid
    exact ⟨model, market_has_model.document?, rfl, rfl, fun _ => isJson_braces⟩
  new definition h := by cases h

end Workbench

/-- The job takes the model. -/
theorem applicable_jobs_take_what_they_can_at_market :
    Workbench.market.Reachable ∧ ∃ configSpace, (Job.appendModel "j" "n").commit Workbench.market =
      (.ok true,
        Workbench.market.put { Workbench.willing with models := ["m", "n"], configSpace }) := by
  have hnovel : Workbench.market.Has Workbench.novel := Store.has_put_self _ _
  obtain ⟨happend, -⟩ := applicable_jobs_take_what_they_can Workbench.reachable_market
    hnovel.document? rfl rfl Workbench.isJson_braces 7
  obtain ⟨htaken, -⟩ := happend Workbench.willing Workbench.market_has_willing
    (Workbench.qualifies_willing_of_has Workbench.market_has_dataset)
  exact ⟨Workbench.reachable_market, htaken Workbench.canTake_willing⟩

/-- Not every applicable job takes a model: one that lists a model which was archived since does
not. -/
theorem not_every_applicable_job_takes_a_model :
    ¬ ∀ (s : Store) (model : String) (m : Module), s.Reachable → s.document? model = .ok (some m) →
      m.kind = .model → m.status = .active → Json.IsJson m.configSpace →
      ∀ (now : Millis) (ids : List String), (Job.applicable now model).on s = (.ok ids, s) →
        ∀ id ∈ ids, ∃ t, (Job.appendModel id model).commit s = (.ok true, t) := by
  intro hall
  let s := Workbench.market.put Workbench.archived
  have hreachable : s.Reachable :=
    Workbench.reachable_market.after 7 (.putModule Workbench.archived)
  have hwf := hreachable.wellFormed
  have hnovel : s.Has Workbench.novel :=
    (Store.has_put_of_ne (by decide)).2 (Store.has_put_self _ _)
  have hwilling : s.Has Workbench.willing :=
    (Store.has_put_of_collection_ne _ (by decide)).2 Workbench.market_has_willing
  have hdataset : s.Has Workbench.dataset :=
    (Store.has_put_of_collection_ne _ (by decide)).2 Workbench.market_has_dataset
  have hqualifies := Workbench.qualifies_willing_of_has hdataset
  obtain ⟨ids, happlicable, -, hids⟩ :=
    Job.exists_applicable_on hwf.keyed hwf.keyed hnovel.document? rfl rfl 8
  have hmem : "j" ∈ ids := (hids "j").2 ⟨_, hwilling.document?, hqualifies⟩
  obtain ⟨t, happend⟩ := hall s "n" Workbench.novel hreachable hnovel.document? rfl rfl
    Workbench.isJson_braces 8 ids happlicable "j" hmem
  rcases Job.appendModel_eq_ok_of_qualifies hwf.keyed hwilling.document? hnovel.document? rfl rfl
    hqualifies with ⟨j', hextended, -⟩ | ⟨-, e, herror⟩
  · have hcan := (Job.exists_extended?_iff hwilling.document?
      (hreachable.jobsMirrored _ hwilling) hnovel.document? rfl rfl Workbench.isJson_braces).1
        (Option.isSome_iff_exists.2 ⟨j', hextended⟩)
    obtain ⟨l, hl, -, hactive, -⟩ := hcan.listed "m" List.mem_cons_self
    -- under the id of the listed model is the archived one
    have harchived : s.Has Workbench.archived := Store.has_put_self _ _
    obtain rfl : Workbench.archived = l := Store.eq_of_document? harchived.document? hl
    cases hactive
  · cases (commit_eq_ok.1 happend).symm.trans herror

end Fleet
