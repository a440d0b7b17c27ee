import Fleet.Proofs.Access.Updating
import Fleet.Proofs.Json.Rereading

/-!
# Configuration spaces that are read again

The text of a configuration space is put together of definitions that were read, each alone, and it
is printed around them: four more containers stand around every definition. So what the reader says
of the whole text does not follow from what it said of the parts. `ConfigSpace.Shows` tells it for
the text of any choices: a definition that is nested deeper than 123 can be read alone up to a depth
of 127 but makes the text unreadable, and a double that is reread as another one is another one in
the text. All else is read as it was, in the order of the models.

Whose definitions these are is a matter of when the text was built (`Job.ShownFrom`). A creation, an
appending, and an update of models or definitions build it of the modules as they are; any other
text of a stored job was built so earlier, and nothing touched it since (`Job.ShownSince`).
-/

set_option autoImplicit false

namespace Fleet

open Json (Value Number Parses)
open Transaction

variable {s s' : Store} {now : Millis}

namespace ConfigSpace

/-! ## The value of a space -/

/-- The value that offers these choices for a job. -/
def offer (job : String) (choices : List (String × Value)) : Value := .object [
  ("id", .text job),
  ("model", .object [(".choice", .array (choices.map fun c =>
    .object [("config", c.2), ("id", .text c.1)]))])]

/-- The choices as they are read again. -/
def rereadChoices (choices : List (String × Value)) : List (String × Value) :=
  choices.map fun c => (c.1, c.2.reread)

variable {job : String} {choices choices' : List (String × Value)}

/-- The space that is written offers the canonical definitions. -/
theorem ofChoices_eq_offer (job : String) (choices : List (String × Value)) :
    ofChoices job choices = offer job (choices.map fun c => (c.1, c.2.canonical)) := by
  rw [ofChoices, offer, List.map_map]
  rfl

/-- Different choices are offered differently. -/
theorem offer_inj : offer job choices = offer job choices' ↔ choices = choices' := by
  have hinj : Function.Injective fun c : String × Value =>
      (Json.Tree.object [("config", c.2), ("id", .text c.1)] : Value) := by
    rintro ⟨a, v⟩ ⟨b, w⟩ h
    simp_all
  simp only [offer, Json.Tree.object.injEq, List.cons.injEq, Prod.mk.injEq, Json.Tree.array.injEq,
    true_and, and_true]
  exact (List.map_injective_iff.2 hinj).eq_iff

/-- Four containers stand around every definition. -/
theorem depth_offer_le_iff (job : String) {n : Nat} :
    (offer job choices).depth ≤ n + 4 ↔ ∀ c ∈ choices, c.2.depth ≤ n := by
  simp only [offer, Json.Tree.depth_object_le_iff, Json.Tree.depth_array_le_iff,
    List.forall_mem_cons, List.forall_mem_map]
  simp [Json.Tree.depth]

/-- The numbers of an offer are those of its choices. -/
theorem numbers_offer {P : Number → Prop} (h : ∀ c ∈ choices, c.2.Numbers P) :
    (offer job choices).Numbers P := by
  have hchoices : Json.Tree.Numbers P (.array (choices.map fun c =>
      .object [("config", c.2), ("id", .text c.1)]) : Value) :=
    .array (List.forall_mem_map.2 fun c hc => .object (by simp [h c hc, Json.Tree.Numbers.text]))
  have hmodel : Json.Tree.Numbers P (.object [(".choice", .array (choices.map fun c =>
      .object [("config", c.2), ("id", .text c.1)]))] : Value) := .object (by simp [hchoices])
  exact .object (by simp [Json.Tree.Numbers.text, hmodel])

/-- An offer of canonical definitions is canonical. -/
theorem canonical_offer (job : String) (h : ∀ c ∈ choices, c.2.canonical = c.2) :
    (offer job choices).canonical = offer job choices := by
  have hnames : ("config" : String) < "id" ∧ ("id" : String) < "model" := by decide
  have hchoices : choices.map (fun c =>
      Value.canonical (.object [("config", c.2), ("id", .text c.1)])) =
      choices.map fun c => .object [("config", c.2), ("id", .text c.1)] := by
    refine List.map_congr_left fun c hc => ?_
    simp [Value.canonical, Value.canonicalMembers, Value.insertMember, h c hc, hnames.1]
  simp only [offer, Value.canonical, Value.canonicalMembers, Value.canonicalItems_eq_map,
    List.map_map, Value.insertMember, if_pos hnames.2]
  rw [← hchoices]
  rfl

/-- Reading an offer again reads its choices again. -/
theorem reread_offer : (offer job choices).reread = offer job (rereadChoices choices) := by
  simp only [offer, rereadChoices, Value.reread, Json.Tree.mapNumbers, Json.Tree.mapMembers,
    Json.Tree.mapItems_eq_map, List.map_map]
  rfl

/-- The choices are read as they are if all their doubles are. -/
theorem rereadChoices_eq_self_iff :
    rereadChoices choices = choices ↔ ∀ c ∈ choices, c.2.Numbers fun n => n.reread = n := by
  rw [rereadChoices, Json.map_eq_self_iff]
  refine forall₂_congr fun c _ => ?_
  rw [← Json.reread_eq_self_iff, Prod.ext_iff]
  exact and_iff_right rfl

/-! ## The text of a space -/

/-- What reading a text yields that shows these choices for a job. -/
structure Shows (text job : String) (choices : List (String × Value)) : Prop where
  /-- It is JSON if no definition is too deep for the containers around it, and then for the choices
  as they are reread. -/
  parses_iff : ∀ v, Parses text v ↔
    (∀ c ∈ choices, c.2.depth ≤ 123) ∧ v = offer job (rereadChoices choices)
  /-- A definition that is too deep makes the reader refuse the whole text for its depth. -/
  tooDeep : ∀ c ∈ choices, 123 < c.2.depth → ∃ seen, Json.read text = .error ⟨.tooDeep, seen⟩
  /-- So it is JSON for the choices themselves if none is too deep and all doubles are reread as
  themselves. -/
  faithful_iff : Parses text (offer job choices) ↔
    ∀ c ∈ choices, c.2.depth ≤ 123 ∧ c.2.Numbers fun n => n.reread = n

/-- The text of a space shows the choices it is made of. -/
theorem shows_render (hchoices : ∀ c ∈ choices, c.2.Numbers Number.IsProper ∧ c.2.canonical = c.2) :
    Shows (offer job choices).render job choices := by
  have hnumbers : (offer job choices).Numbers Number.IsProper :=
    numbers_offer fun c hc => (hchoices c hc).1
  have hcanonical := canonical_offer job fun c hc => (hchoices c hc).2
  have hparses (v : Value) : Parses (offer job choices).render v ↔
      (∀ c ∈ choices, c.2.depth ≤ 123) ∧ v = offer job (rereadChoices choices) := by
    rw [Json.parses_render_iff hnumbers hcanonical, reread_offer, ← depth_offer_le_iff job]
  refine ⟨hparses, fun c hc hdeep => ?_, ?_⟩
  · refine (Json.read_render hnumbers).2 (Nat.not_le.1 fun hle => ?_)
    exact Nat.not_lt.2 ((depth_offer_le_iff job).1 hle c hc) hdeep
  · rw [hparses, offer_inj, eq_comm, rereadChoices_eq_self_iff, forall₂_and]

/-! ## Whose definitions they are -/

/-- In the store the model is an active one, and the choice is the value of its definition: of the
one among the overrides if there is one, else of the model's own. -/
def Chooses (s : Store) (overrides : Overrides) (model : String) (c : String × Value) : Prop :=
  c.1 = model ∧ ∃ m : Module, s.document? model = .ok (some m) ∧ m.kind = .model ∧
    m.status = .active ∧
    Parses ((overrides.find? model).getD m.configSpace) c.2

variable {overrides : Overrides} {models : List String}

/-- What is chosen is chosen for good. -/
theorem chooses_of_choice {model : String} {c : String × Value}
    (h : choice overrides model s = .ok (c, s)) :
    Chooses s overrides model (c.1, c.2.canonical) := by
  obtain ⟨m, v, hm, hkind, hactive, hread, rfl, -⟩ := choice_eq_ok.1 h
  exact ⟨rfl, m, hm, hkind, hactive, v, readDefinition_eq_ok.1 hread, rfl⟩

/-- Each choice was read from a text. -/
theorem exists_parses_of_mem (h : List.Forall₂ (Chooses s overrides) models choices)
    {c : String × Value} (hc : c ∈ choices) : ∃ text, Parses text c.2 := by
  induction h with
  | nil => cases hc
  | cons hchooses _ ih =>
    rcases List.mem_cons.1 hc with rfl | hc
    · obtain ⟨-, m, -, -, -, hparses⟩ := hchooses
      exact ⟨_, hparses⟩
    · exact ih hc

end ConfigSpace

namespace Job

open ConfigSpace

/-- The text of the configuration space shows one choice for each model of the job, in their order,
made in the store. -/
def ShownFrom (s : Store) (j : Job) : Prop :=
  j.models ≠ [] ∧ ∃ choices, List.Forall₂ (Chooses s j.configOverrides) j.models choices ∧
    (∀ c ∈ choices, c.2.depth ≤ 127) ∧ Shows j.configSpace j.id choices

/-- A text that is built shows what it is built of. -/
theorem BuiltIn.shownFrom {j : Job} (h : j.BuiltIn s) : j.ShownFrom s := by
  obtain ⟨hne, choices, hchoices, htext, -⟩ := ConfigSpace.build_eq_ok.1 h
  have hchooses : List.Forall₂ (Chooses s j.configOverrides) j.models
      (choices.map fun c => (c.1, c.2.canonical)) :=
    List.forall₂_map_right_iff.2 (hchoices.imp fun _ _ => chooses_of_choice)
  refine ⟨hne, _, hchooses, fun c hc => ?_, ?_⟩
  · obtain ⟨text, hparses⟩ := exists_parses_of_mem hchooses hc
    exact hparses.depth_le
  · rw [htext, ofChoices_eq_offer]
    refine shows_render fun c hc => ?_
    obtain ⟨text, hparses⟩ := exists_parses_of_mem hchooses hc
    exact ⟨hparses.numbers, hparses.canonical_eq⟩

/-- What a job shows depends on its space and on what the space was built from. -/
theorem SameSpace.shownFrom {j j' : Job} (h : SameSpace j j') (hj : j.ShownFrom s) :
    j'.ShownFrom s := by
  unfold ShownFrom at hj ⊢
  rwa [h.id, h.models, h.configOverrides, h.configSpace]

/-- Refreshing a job leaves its space alone. -/
theorem sameSpace_refresh (now : Millis) (j : Job) : SameSpace j (j.refresh now) :=
  ⟨rfl, rfl, rfl, rfl⟩

/-- An update builds the text of the store as it is, or leaves it alone with all it depends on. -/
theorem Updated.shown {u : JobUpdate} {j j' : Job} (h : Updated s u j j') :
    (u.Rebuilds → j'.ShownFrom s) ∧ (¬ u.Rebuilds → SameSpace j j') := by
  refine ⟨fun hrebuilds => ?_, fun hnot => ?_⟩
  · have hbuilt : j'.BuiltIn s := by
      rw [BuiltIn, h.id]
      exact h.rebuilt hrebuilds
    exact hbuilt.shownFrom
  · have hconfigSpace := h.configSpace hnot
    rw [JobUpdate.Rebuilds, not_or, not_ne_iff, not_ne_iff] at hnot
    have hmodels := h.models
    have hoverrides := h.configOverrides
    rw [hnot.1] at hmodels
    rw [hnot.2] at hoverrides
    exact ⟨h.id, hmodels, hoverrides, hconfigSpace⟩

end Job

/-! ## Runs -/

/-- The job shows choices that were made in a store on the way to this one. -/
def Job.ShownSince (s : Store) (j : Job) : Prop :=
  ∃ u : Store, u.Reachable ∧ u.Leads (fun _ _ _ => True) s ∧ j.ShownFrom u

/-- **Every job of a reachable store shows what it was last built from.** -/
theorem Store.Reachable.shownSince (hs : s.Reachable) {j : Job} (hj : s.Has j) :
    j.ShownSince s := by
  refine hs.job_induction (fun t now a j ht hbuilt => ?_)
    (fun t now a j j' hspace hshown => ?_) j hj
  · -- what is built by the access is built in the store before it
    exact ⟨t, ht, Store.Leads.refl.after now a trivial, hbuilt.shownFrom⟩
  · obtain ⟨u, hu, hleads, hfrom⟩ := hshown
    exact ⟨u, hu, hleads.after now a trivial, hspace.shownFrom hfrom⟩

namespace Workbench

/-- Arrays inside one another, `n` of them around an empty one. -/
def nested : Nat → Value
  | 0 => .array []
  | n + 1 => .array [nested n]

/-- Nesting adds one level each time. -/
theorem depth_nested (n : Nat) : (nested n).depth = n + 1 := by
  induction n with
  | zero => rfl
  | succ n ih =>
    rw [nested, Json.Tree.depth, Json.Tree.itemDepth, Json.Tree.itemDepth, ih, Nat.max_zero]

/-- It adds no numbers. -/
theorem numbers_nested (P : Number → Prop) (n : Nat) : (nested n).Numbers P := by
  induction n with
  | zero => exact .array nofun
  | succ n ih => exact .array (List.forall_mem_singleton.2 ih)

/-- What is nested is canonical. -/
theorem canonical_nested (n : Nat) : (nested n).canonical = nested n := by
  induction n with
  | zero => rfl
  | succ n ih => rw [nested, Value.canonical, Value.canonicalItems, Value.canonicalItems, ih]

/-- As many arrays as a reader takes are read as they were written. -/
theorem read_nested {n : Nat} (hn : n < 127) : Json.read (nested n).render = .ok (nested n) := by
  have hread :=
    (Json.read_render (numbers_nested Number.IsProper n)).1 (by rw [depth_nested]; exact hn)
  rwa [Json.reread_eq_self_iff.2 (numbers_nested _ n)] at hread

/-- A job with a definition that is too deep for a configuration space. -/
def newDeep : NewJob := { new with configOverrides := Dict.empty.insert "m" (nested 123).render }

def deep : Job :=
  .initial 0 "j" .root newDeep (ConfigSpace.ofChoices "j" [("m", nested 123)]).render

/-- The deep definition overrides that of the model. -/
theorem find?_newDeep : newDeep.configOverrides.find? "m" = some (nested 123).render := by
  rw [newDeep, Dict.find?_insert, if_pos rfl]

/-- A job with a deep definition is created. -/
theorem create_deep :
    Job.create 0 "j" .root newDeep catalog = .ok (deep.refresh 0, catalog.put deep) := by
  refine Job.create_eq_ok.2
    ⟨dataset, objective, [], deep.configSpace, catalog_has_dataset.document?, rfl, ?_,
    rfl, ?_, rfl, rfl, rfl⟩
  · exact requireModule_eq_ok.2 ⟨catalog_has_objective.document?, rfl, rfl, rfl⟩
  · refine ConfigSpace.build_eq_ok.2 ⟨by decide, [("m", nested 123)], .cons ?_ .nil, rfl, rfl⟩
    refine ConfigSpace.choice_eq_ok.2
      ⟨model, nested 123, catalog_has_model.document?, rfl, rfl, ?_, rfl, rfl⟩
    rw [find?_newDeep, Option.getD_some]
    exact ConfigSpace.readDefinition_eq_ok.2 (read_nested (by decide))

/-- A job of the catalog's model shows its definition. -/
theorem shows_of_shownFrom {r : Job} (h : r.ShownFrom catalog) (hmodels : r.models = ["m"])
    {v : Value} (hv : Parses ((r.configOverrides.find? "m").getD model.configSpace) v) :
    ConfigSpace.Shows r.configSpace r.id [("m", v)] := by
  obtain ⟨-, choices, hchoices, -, hshows⟩ := h
  rw [hmodels, List.forall₂_cons_left_iff] at hchoices
  obtain ⟨⟨name, w⟩, rest, ⟨rfl, m, hm, -, -, hparses⟩, hrest, rfl⟩ := hchoices
  obtain rfl := (List.forall₂_nil_left_iff).1 hrest
  -- the model of the catalog is the only one of its id
  obtain rfl := Store.eq_of_document? catalog_has_model.document? hm
  obtain rfl : w = v := hparses.unique hv
  exact hshows

end Workbench

/-! ## The result -/

/-- **What is read of configuration spaces.** Every job that is created, and every job that gets
other models or definitions, has a text that shows one choice for each of its models, in their
order, made of the definitions as they are in the store: the job's own one if there is one, else
that of the active model. The same holds of every other job of a store that operations lead to, and
of what an update tells of it, for an earlier store. Every definition was accepted, so it nests at
most 127 deep. Reading the text yields all of the choices again, but with doubles as they are
reread, and only if no definition nests deeper than 123; else the reader refuses the text. So it
yields the choices themselves if and only if no definition nests deeper than 123 and all doubles are
reread as themselves. -/
theorem configuration_spaces_are_reread (s : Store) (now : Millis) :
    (∀ (id : String) (caller : Caller) (new : NewJob) (r : Job) (t : Store),
      (Job.create now id caller new).commit s = (.ok r, t) → r.ShownFrom s) ∧
    (∀ (caller : Caller) (id : String) (u : JobUpdate) (r : Job) (t : Store),
      (Job.change now caller id u).commit s = (.ok r, t) →
        (u.Rebuilds → r.ShownFrom s) ∧ (s.Reachable → ¬ u.Rebuilds → r.ShownSince s)) ∧
    (∀ (id model : String) (t : Store), (Job.appendModel id model).commit s = (.ok true, t) →
      ∃ (j : Job) (configSpace : String), s.document? id = .ok (some j) ∧
        t = s.put { j with models := j.models ++ [model], configSpace } ∧
        Job.ShownFrom s { j with models := j.models ++ [model], configSpace }) ∧
    (s.Reachable → ∀ j : Job, s.Has j → j.ShownSince s) := by
  refine ⟨fun id caller new r t h => ?_, fun caller id u r t h => ?_, fun id model t h => ?_,
    fun hs j hj => hs.shownSince hj⟩
  · -- a new job shows what it was built from
    obtain ⟨_, _, _, configSpace, -, -, -, -, hbuild, -, -, rfl⟩ :=
      Job.create_eq_ok.1 (commit_eq_ok.1 h)
    have hbuilt : (Job.initial now id caller new configSpace).BuiltIn s := hbuild
    exact (Job.sameSpace_refresh now _).shownFrom hbuilt.shownFrom
  · -- an update shows what it rebuilds, and the rest as before
    obtain ⟨j, j', hj, -, happly, -, rfl⟩ := Job.change_eq_ok.1 (commit_eq_ok.1 h)
    have hshown := (Job.updated_apply happly).shown
    have hrefresh := Job.sameSpace_refresh now j'
    refine ⟨fun hrebuilds => hrefresh.shownFrom (hshown.1 hrebuilds), fun hs hnot => ?_⟩
    obtain ⟨v, hv, hleads, hfrom⟩ := hs.shownSince (hs.wellFormed.document?_eq_ok_some.1 hj).1
    exact ⟨v, hv, hleads, hrefresh.shownFrom ((hshown.2 hnot).shownFrom hfrom)⟩
  · obtain ⟨j, hj, ⟨-, configSpace, hbuild, rfl⟩ | ⟨hfalse, -⟩⟩ :=
      Job.appendModel_eq_ok (commit_eq_ok.1 h)
    · have hbuilt : Job.BuiltIn s { j with models := j.models ++ [model], configSpace } := hbuild
      exact ⟨j, configSpace, hj, rfl, hbuilt.shownFrom⟩
    · cases hfalse

/-- The definition of the catalog's model is read again; one that is nested 124 deep is accepted for
a job, whose text then cannot be read. -/
theorem configuration_spaces_are_reread_at_the_limit :
    Parses Workbench.job.configSpace (ConfigSpace.offer "j" [("m", .object [])]) ∧
    (∃ seen, Json.read Workbench.deep.configSpace = .error ⟨.tooDeep, seen⟩) ∧
    Workbench.job.ShownSince Workbench.store := by
  obtain ⟨hcreate, -, -, -⟩ := configuration_spaces_are_reread Workbench.catalog 0
  obtain ⟨-, -, -, hstored⟩ := configuration_spaces_are_reread Workbench.store 0
  have hbraces : Parses "\x7b\x7d" (.object []) := ⟨.object [], rfl, rfl⟩
  -- one level more than may be read, with the braces of the offer around it
  have hdeep :
      Parses ((Workbench.newDeep.configOverrides.find? "m").getD Workbench.model.configSpace)
      (Workbench.nested 123) := by
    rw [Workbench.find?_newDeep]
    exact ⟨_, Workbench.read_nested (by decide), Workbench.canonical_nested 123⟩
  refine ⟨?_, ?_, hstored Workbench.reachable _ (Store.has_put_self _ _)⟩
  · have hshown := hcreate "j" .root Workbench.new _ _ (commit_eq_ok.2 (Workbench.create_eq_ok "j"))
    refine (Workbench.shows_of_shownFrom hshown rfl hbraces).faithful_iff.2 ?_
    exact List.forall_mem_singleton.2 ⟨by decide, .object nofun⟩
  · have hshown := hcreate "j" .root Workbench.newDeep _ _ (commit_eq_ok.2 Workbench.create_deep)
    refine (Workbench.shows_of_shownFrom hshown rfl hdeep).tooDeep _ List.mem_cons_self ?_
    rw [Workbench.depth_nested]
    decide

end Fleet
