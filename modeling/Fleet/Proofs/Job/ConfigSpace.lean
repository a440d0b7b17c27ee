import Fleet.Proofs.Access.Operation
import Fleet.Proofs.Access.Overwriting
import Fleet.Proofs.Lease.Exclusion

/-!
# Configuration spaces mirror models

The models of a job, the definitions that it has for some of them, and the text of its configuration
space are three fields that could come apart. They do not: whatever writes the models or the
definitions builds the text anew out of both, or fails and writes nothing, and nothing else touches
any of the three (`Job.SameSpace`). So the text always offers one choice for each model, in the
order of the models, with the job's own definition where it has one (`Job.Mirrored`,
`configuration_spaces_mirror_models`). What a module says of itself is read only when a text is
built, so a module that is put later does not matter.
-/

set_option autoImplicit false

namespace Fleet

open Document (key)
open Transaction (bind_eq_ok liftM_eq_ok pure_eq_ok)

variable {s s' : Store} {now : Millis}

/-! ## Texts that mirror -/

namespace ConfigSpace

/-- The choice has the value of a definition: that of the overrides, if they have one for its model. -/
def Defines (overrides : Overrides) (c : String × Json.Value) : Prop :=
  ∃ definition, Json.read definition = .ok c.2 ∧
    ∀ override, overrides.find? c.1 = some override → definition = override

/-- A definition can be read exactly if its text can. -/
theorem readDefinition_eq_ok {model definition : String} {v : Json.Value} :
    readDefinition model definition = .ok v ↔ Json.read definition = .ok v := by
  unfold readDefinition
  cases Json.read definition <;> simp

/-- A choice that is made is one of the model it is made for. -/
theorem defines_of_choice {overrides : Overrides} {model : String} {c : String × Json.Value}
    (h : choice overrides model s = .ok (c, s')) : c.1 = model ∧ Defines overrides c := by
  obtain ⟨m, v, -, -, -, hread, rfl, -⟩ := choice_eq_ok.1 h
  refine ⟨rfl, _, readDefinition_eq_ok.1 hread, fun override hoverride => ?_⟩
  rw [hoverride, Option.getD_some]

/-- The choices are those of the models, in their order, each with its definition. -/
theorem defines_of_choices {overrides : Overrides} {models : List String}
    {choices : List (String × Json.Value)}
    (h : List.Forall₂ (fun model c => choice overrides model s = .ok (c, s)) models choices) :
    choices.map Prod.fst = models ∧ ∀ c ∈ choices, Defines overrides c := by
  induction h with
  | nil => exact ⟨rfl, nofun⟩
  | cons hchoice _ ih =>
    obtain ⟨hmodel, hdefines⟩ := defines_of_choice hchoice
    refine ⟨by rw [List.map_cons, hmodel, ih.1], fun c hc => ?_⟩
    rcases List.mem_cons.1 hc with rfl | hc
    · exact hdefines
    · exact ih.2 c hc

end ConfigSpace

namespace Job

/-- The text of the configuration space has a choice for each model of the job, in their order, and
nothing else but the id. -/
def Mirrored (j : Job) : Prop :=
  j.models ≠ [] ∧ ∃ choices : List (String × Json.Value),
    choices.map Prod.fst = j.models ∧ (∀ c ∈ choices, ConfigSpace.Defines j.configOverrides c) ∧
    j.configSpace = Json.Value.render (.object [("id", .text j.id),
      ("model", .object [(".choice", .array (choices.map fun c =>
        .object [("config", Json.Value.canonical c.2), ("id", .text c.1)]))])])

/-- The text of the configuration space is what the store makes of the models and definitions of the
job. -/
def BuiltIn (s : Store) (j : Job) : Prop :=
  ConfigSpace.build j.id j.models j.configOverrides s = .ok (j.configSpace, s)

/-- A text that is built mirrors what it is built from. -/
theorem BuiltIn.mirrored {j : Job} (h : j.BuiltIn s) : j.Mirrored := by
  obtain ⟨hne, choices, hchoices, htext, -⟩ := ConfigSpace.build_eq_ok.1 h
  obtain ⟨hmodels, hdefines⟩ := ConfigSpace.defines_of_choices hchoices
  exact ⟨hne, choices, hmodels, hdefines, htext⟩

/-! ## What leaves them alone -/

/-- The second job is the first one with the same models, definitions and configuration space. -/
structure SameSpace (j j' : Job) : Prop where
  id : j'.id = j.id
  models : j'.models = j.models
  configOverrides : j'.configOverrides = j.configOverrides
  configSpace : j'.configSpace = j.configSpace

/-- A job has its own space. -/
theorem SameSpace.refl (j : Job) : SameSpace j j := ⟨rfl, rfl, rfl, rfl⟩

/-- Sharing a space is transitive. -/
theorem SameSpace.trans {i j k : Job} (hij : SameSpace i j) (hjk : SameSpace j k) :
    SameSpace i k where
  id := hjk.id.trans hij.id
  models := hjk.models.trans hij.models
  configOverrides := hjk.configOverrides.trans hij.configOverrides
  configSpace := hjk.configSpace.trans hij.configSpace

/-- What was built in a store was built there for every job with the space. -/
theorem SameSpace.builtIn {j j' : Job} (h : SameSpace j j') (hj : j.BuiltIn s) : j'.BuiltIn s := by
  unfold BuiltIn at hj ⊢
  rwa [h.id, h.models, h.configOverrides, h.configSpace]

/-- Whether a space mirrors its definitions depends on the space. -/
theorem SameSpace.mirrored {j j' : Job} (h : SameSpace j j') (hj : j.Mirrored) : j'.Mirrored := by
  obtain ⟨hne, choices, hmodels, hdefines, htext⟩ := hj
  rw [← h.models] at hne hmodels
  rw [← h.configOverrides] at hdefines
  rw [← h.configSpace, ← h.id] at htext
  exact ⟨hne, choices, hmodels, hdefines, htext⟩

/-- Statuses are about times only. -/
theorem sameSpace_applyStatus {target : JobStatus} {j j' : Job}
    (h : j.applyStatus target now = .ok j') : SameSpace j j' := by
  rw [eq_of_applyStatus h]
  exact ⟨rfl, rfl, rfl, rfl⟩

/-! ## What builds them anew -/

/-- New models or new definitions come with a new text, made of what is new and what stays. -/
theorem sameSpace_or_builtIn_of_rebuild {u : JobUpdate} {j j' : Job}
    (h : rebuild u j s = .ok (j', s')) :
    SameSpace j j' ∨ j'.BuiltIn s := by
  obtain ⟨-, ⟨-, -, rfl⟩ | ⟨-, configSpace, hbuild, rfl⟩⟩ := rebuild_eq_ok h
  · exact .inl (.refl j')
  · exact .inr hbuild

/-- An update keeps the space or builds it. -/
theorem sameSpace_or_builtIn_of_apply {u : JobUpdate} {j j' : Job}
    (h : apply now u j s = .ok (j', s')) :
    SameSpace j j' ∨ j'.BuiltIn s := by
  obtain ⟨-, j₁, hrebuild, hj'⟩ := apply_cases h
  -- what is done after the rebuilding leaves the text alone
  have hrest : SameSpace j₁ j' := by
    have hassign : SameSpace j₁ (j₁.assign u) := ⟨rfl, rfl, rfl, rfl⟩
    rcases hj' with ⟨-, rfl⟩ | ⟨target, -, hstatus⟩
    · exact hassign
    · exact hassign.trans (sameSpace_applyStatus hstatus)
  exact (sameSpace_or_builtIn_of_rebuild hrebuild).imp (·.trans hrest) hrest.builtIn

end Job

/-- Whatever is done with a job leaves its text alone, with all that it mirrors, or builds it anew. -/
theorem Access.JobStep.sameSpace_or_builtIn {j j' : Job} (h : Access.JobStep now s j j') :
    Job.SameSpace j j' ∨ j'.BuiltIn s := by
  cases h with
  | held holder => exact .inl ⟨rfl, rfl, rfl, rfl⟩
  | changed happly => exact Job.sameSpace_or_builtIn_of_apply happly
  | appended hbuild => exact .inr hbuild

/-! ## Runs -/

/-- What holds of jobs whose text is built, and stays with those whose text is left alone, holds of
all jobs that are stored. -/
theorem Store.Reachable.job_induction {P : Store → Job → Prop} (hs : s.Reachable)
    (built : ∀ (t : Store) (now : Millis) (a : Access) (j : Job), t.Reachable → j.BuiltIn t →
      P (a.after now t) j)
    (same : ∀ (t : Store) (now : Millis) (a : Access) (j j' : Job), Job.SameSpace j j' → P t j →
      P (a.after now t) j') :
    ∀ j : Job, s.Has j → P s j := by
  -- by induction on the run: a job is built, or it is what it was
  refine (Store.Leads.induction (P := fun t => t.Reachable ∧ ∀ j : Job, t.Has j → P t j) hs
    ⟨.refl, fun j hj => ?_⟩ ?_).2
  · have hnone : (Store.empty.table .jobs).find? j.id = none := rfl
    exact absurd (hnone.symm.trans hj) (Option.some_ne_none _).symm
  · rintro t now a ⟨ht, hjobs⟩ -
    refine ⟨ht.after now a, fun j' hj' => ?_⟩
    rcases a.after_cases now t with ⟨r, hok, -⟩ | ⟨hsame, -⟩
    case inr => exact same t now a j' j' (.refl j') (hjobs j' (hsame ▸ hj'))
    case inl =>
      rcases Access.job_steps_of_ok ht.wellFormed hok with
        ⟨id, caller, new, configSpace, hbuild, -, hput⟩ | hover
      · rw [hput, Store.has_put_iff] at hj'
        rcases hj' with rfl | ⟨-, hj'⟩
        · exact built t now a _ ht hbuild
        · exact same t now a j' j' (.refl j') (hjobs j' hj')
      · rcases hover j'.id with hsame | ⟨j, i, hj, hstep, -, hfind⟩
        · exact same t now a j' j' (.refl j') (hjobs j' (hsame.symm.trans hj'))
        · -- what is stored now is what was made of the job that was read
          obtain rfl : i = j' := LawfulDocument.encode_inj (Option.some.inj (hfind.symm.trans hj'))
          have hhas := (ht.wellFormed.document?_eq_ok_some.1 hj).1
          rcases hstep.sameSpace_or_builtIn with hspace | hbuilt
          · exact same t now a j i hspace (hjobs j hhas)
          · exact built t now a i ht hbuilt

/-- The jobs of the store have configuration spaces that mirror their models. -/
def Store.JobsMirrored (s : Store) : Prop := ∀ j : Job, s.Has j → j.Mirrored

/-- **Every job of a reachable store mirrors its definitions.** -/
theorem Store.Reachable.jobsMirrored (h : s.Reachable) : s.JobsMirrored :=
  h.job_induction (fun _ _ _ _ _ hbuilt => hbuilt.mirrored) fun _ _ _ _ _ hspace hj =>
    hspace.mirrored hj

namespace Workbench

/-- The definition of the model for the job alone. -/
def overrides : Overrides := Dict.empty.insert "m" "true"

/-- The job with a definition of its own. -/
def overridden : Job :=
  { job with configOverrides := overrides
             configSpace := (ConfigSpace.ofChoices "j" [("m", .boolean true)]).render }

/-- The model, defined in another way. -/
def redefined : Module := { model with configSpace := "[]" }

/-- The model of the example is in the store. -/
theorem store_has_model : store.Has model :=
  (Store.has_put_of_collection_ne _ (by decide)).2 catalog_has_model

/-- The overridden space is built. -/
theorem build_overridden : ConfigSpace.build "j" ["m"] overrides store =
    .ok (overridden.configSpace, store) := by
  have hread : ConfigSpace.readDefinition "m" "true" = .ok (.boolean true) := by rfl
  refine ConfigSpace.build_eq_ok.2 ⟨by decide, [("m", .boolean true)], .cons ?_ .nil, rfl, rfl⟩
  exact ConfigSpace.choice_eq_ok.2
    ⟨model, .boolean true, store_has_model.document?, rfl, rfl, hread, rfl,
    rfl⟩

/-- The store in which the model has been defined anew is reachable. -/
theorem reachable_redefined : ((store.put overridden).put redefined).Reachable := by
  have happly : Job.apply 5 { configOverrides := some overrides } job store =
      .ok (overridden, store) :=
    bind_eq_ok.2 ⟨overridden, store, bind_eq_ok.2 ⟨_, _, build_overridden, rfl⟩, rfl⟩
  have hchange : Job.change 5 .root "j" { configOverrides := some overrides } store =
      .ok (overridden.refresh 5, store.put overridden) :=
    Job.change_eq_ok.2
      ⟨job, overridden, (Store.has_put_self catalog job).document?, rfl, happly, rfl, rfl⟩
  have hafter : (Access.updateJob .root "j" { configOverrides := some overrides }).after 5 store =
      store.put overridden := Access.after_eq_of_ok (Transaction.map_eq_ok.2 ⟨_, hchange, rfl⟩)
  have hreachable := reachable.after 5 (.updateJob .root "j" { configOverrides := some overrides })
  rw [hafter] at hreachable
  exact hreachable.after 6 (.putModule redefined)

end Workbench

/-! ## The result -/

/-- **Configuration spaces mirror models.** In every store that operations lead to, and they lead to
no other ones, each job has models, and its configuration space is the compact text of an object
with the id of the job and one choice for each model, in the order of the models. The definition in
a choice is that of the overrides of the job if there is one. -/
theorem configuration_spaces_mirror_models {s : Store} (hs : s.Reachable) :
    (∀ (op : Operation) (w : World), w.store = s → (op.perform w).2.store.Reachable) ∧
    ∀ j : Job, s.Has j → j.Mirrored := by
  refine ⟨?_, hs.jobsMirrored⟩
  rintro op w rfl
  exact op.reachable_perform hs

/-- The job with a definition of its own shows it, whatever the model is like by now. -/
theorem configuration_spaces_mirror_models_behind_redefinition :
    ((Workbench.store.put Workbench.overridden).put Workbench.redefined).Has Workbench.overridden ∧
    Workbench.overridden.configSpace = "\x7b\"id\":\"j\",\"model\":" ++
      "\x7b\".choice\":[\x7b\"config\":true,\"id\":\"m\"\x7d]\x7d\x7d" := by
  have hhas : ((Workbench.store.put Workbench.overridden).put Workbench.redefined).Has
      Workbench.overridden :=
    (Store.has_put_of_collection_ne _ (by decide)).2 (Store.has_put_self _ _)
  refine ⟨hhas, ?_⟩
  obtain ⟨-, choices, hmodels, hdefines, htext⟩ :=
    (configuration_spaces_mirror_models Workbench.reachable_redefined).2 Workbench.overridden hhas
  -- there is one model, and the override says what its choice is
  obtain ⟨⟨model, v⟩, rfl, rfl⟩ := List.map_eq_singleton_iff.1 hmodels
  obtain ⟨definition, hread, hoverride⟩ := hdefines _ List.mem_cons_self
  obtain rfl := hoverride "true" rfl
  have htrue : Json.read "true" = .ok (.boolean true) := by rfl
  obtain rfl : Json.Tree.boolean true = v := Except.ok.inj (htrue.symm.trans hread)
  exact htext.trans (by rfl)

end Fleet
