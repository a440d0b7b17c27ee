import Fleet.Job.FanOut
import Fleet.Proofs.Store.Steps

/-!
# What becomes of jobs

The transactions on jobs, each with what it reads and writes. A creation writes a job that nobody
holds under an unused id; every change writes a job over the one that was read, under its id, for its
owner and with its holder (`Job.Tended`). Its status and the stamps that go with it change in one way
only: a status is applied (`Job.Becomes`).
-/

set_option autoImplicit false

namespace Fleet

open Transaction

variable {s s' : Store} {now : Millis}

/-! ## Configuration spaces -/

/-- A module that has to take part is there, of its kind, and active. -/
theorem requireModule_eq_ok {id : String} {kind : ModuleKind} {m : Module} :
    requireModule id kind s = .ok (m, s') ↔
      s.document? id = .ok (some m) ∧ m.kind = kind ∧ m.status = .active ∧ s' = s := by
  rw [requireModule, bind_eq_ok]
  constructor
  · rintro ⟨found, _, hfind, h⟩
    obtain ⟨hfound, rfl⟩ := find?_eq_ok.1 hfind
    -- the checks come in this order: it is there, of the kind, and active
    cases found with
    | none => exact absurd h throw_ne_ok
    | some m' =>
      simp only at h
      split at h
      case isTrue => exact absurd h throw_ne_ok
      case isFalse hkind =>
        split at h
        case isTrue => exact absurd h throw_ne_ok
        case isFalse hstatus =>
          obtain ⟨rfl, rfl⟩ := pure_eq_ok.1 h
          exact ⟨hfound, by simpa using hkind, by simpa using hstatus, rfl⟩
  · rintro ⟨hfound, hkind, hstatus, rfl⟩
    refine ⟨some m, _, find?_eq_ok.2 ⟨hfound, rfl⟩, ?_⟩
    simp only [hkind, hstatus, bne_self_eq_false, Bool.false_eq_true, if_false]
    rfl

/-- Requiring a module reads only. -/
theorem readsOnly_requireModule (id : String) (kind : ModuleKind) :
    ReadsOnly (requireModule id kind) := by
  intro s m s' h
  obtain ⟨-, -, -, hs⟩ := requireModule_eq_ok.1 h
  exact hs

namespace ConfigSpace

/-- A choice succeeds for an active model whose definition can be read. -/
theorem choice_eq_ok {overrides : Overrides} {model : String} {c : String × Json.Value} :
    choice overrides model s = .ok (c, s') ↔ ∃ (m : Module) (v : Json.Value),
      s.document? model = .ok (some m) ∧ m.kind = .model ∧ m.status = .active ∧
      readDefinition model ((overrides.find? model).getD m.configSpace) = .ok v ∧
      c = (model, v) ∧ s' = s := by
  rw [choice, bind_eq_ok]
  constructor
  · rintro ⟨m, _, hm, h⟩
    obtain ⟨hfound, hkind, hstatus, rfl⟩ := requireModule_eq_ok.1 hm
    obtain ⟨v, _, hv, hpure⟩ := bind_eq_ok.1 h
    obtain ⟨hread, rfl⟩ := liftM_eq_ok.1 hv
    obtain ⟨rfl, rfl⟩ := pure_eq_ok.1 hpure
    exact ⟨m, v, hfound, hkind, hstatus, hread, rfl, rfl⟩
  · rintro ⟨m, v, hfound, hkind, hstatus, hread, rfl, rfl⟩
    refine ⟨m, _, requireModule_eq_ok.2 ⟨hfound, hkind, hstatus, rfl⟩, ?_⟩
    exact bind_eq_ok.2 ⟨v, _, liftM_eq_ok.2 ⟨hread, rfl⟩, rfl⟩

/-- A choice reads only. -/
theorem readsOnly_choice (overrides : Overrides) (model : String) :
    ReadsOnly (choice overrides model) := by
  intro s c s' h
  obtain ⟨_, _, -, -, -, -, -, hs⟩ := choice_eq_ok.1 h
  exact hs

/-- The space of a job that has models offers one choice for each of them, in their order. -/
theorem build_eq_ok {job : String} {models : List String} {overrides : Overrides} {text : String} :
    build job models overrides s = .ok (text, s') ↔ models ≠ [] ∧ ∃ choices,
      List.Forall₂ (fun model c => choice overrides model s = .ok (c, s)) models choices ∧
        text = (ofChoices job choices).render ∧ s' = s := by
  rw [build]
  cases models with
  -- without models there is no space
  | nil => simp [throw_ne_ok]
  | cons model models =>
    simp only [List.isEmpty_cons, Bool.false_eq_true, if_false, ne_eq, List.cons_ne_nil,
      not_false_eq_true, true_and, bind_eq_ok]
    constructor
    · rintro ⟨choices, _, hmapM, hpure⟩
      obtain ⟨hall, rfl⟩ := (ReadsOnly.mapM_eq_ok (readsOnly_choice overrides)).1 hmapM
      obtain ⟨rfl, rfl⟩ := pure_eq_ok.1 hpure
      exact ⟨choices, hall, rfl, rfl⟩
    · rintro ⟨choices, hall, rfl, rfl⟩
      exact ⟨choices, _, (ReadsOnly.mapM_eq_ok (readsOnly_choice overrides)).2 ⟨hall, rfl⟩, rfl⟩

/-- Building a configuration space reads only. -/
theorem readsOnly_build (job : String) (models : List String) (overrides : Overrides) :
    ReadsOnly (build job models overrides) := by
  intro s text s' h
  obtain ⟨-, _, -, -, hs⟩ := build_eq_ok.1 h
  exact hs

end ConfigSpace

namespace Job

/-! ## Creation -/

/-- The job that is created from what a caller says. -/
def initial (now : Millis) (id : String) (caller : Caller) (new : NewJob) (configSpace : String) :
    Job where
  id := id
  user := caller.user
  dataset := new.dataset
  models := new.models
  configSpace := configSpace
  configOverrides := new.configOverrides
  acceptNewModels := new.acceptNewModels
  objective := new.objective
  altObjectives := new.altObjectives
  maxTasks := if new.maxTasks = 0 then defaultMaxTasks else new.maxTasks
  creationTime := now
  runningTime := { start := some now }
  runningDuration := 0
  pauseStartTime := none
  pauseDuration := 0
  prevPauseDuration := 0
  status := .running
  statusMessage := ""
  process := none

/-- A creation comes to an end if the dataset is validated, all modules are there, and the
configuration space can be built; it writes the job under an unused id. -/
theorem create_eq_ok {id : String} {caller : Caller} {new : NewJob} {r : Job} :
    create now id caller new s = .ok (r, s') ↔
      ∃ (d : Dataset) (objective : Module) (alts : List Module) (configSpace : String),
        s.document? new.dataset = .ok (some d) ∧ d.status = .validated ∧
        requireModule new.objective .objective s = .ok (objective, s) ∧
        (new.altObjectives.mapM fun alt => requireModule alt .objective) s = .ok (alts, s) ∧
        ConfigSpace.build id new.models new.configOverrides s = .ok (configSpace, s) ∧
        s.jobs.find? id = none ∧ s' = s.put (initial now id caller new configSpace) ∧
        r = (initial now id caller new configSpace).refresh now := by
  rw [create, bind_eq_ok]
  constructor
  · rintro ⟨found, s₁, hfind, h⟩
    obtain ⟨hfound, rfl⟩ := find?_eq_ok.1 hfind
    cases found with
    | none =>
      obtain ⟨_, _, hthrow, -⟩ := bind_eq_ok.1 h
      exact absurd hthrow throw_ne_ok
    | some d =>
      simp only at h
      split at h
      case isTrue =>
        obtain ⟨_, _, hthrow, -⟩ := bind_eq_ok.1 h
        exact absurd hthrow throw_ne_ok
      case isFalse hstatus =>
        obtain ⟨objective, _, hobjective, h₁⟩ := bind_eq_ok.1 h
        obtain rfl := readsOnly_requireModule _ _ _ _ _ hobjective
        obtain ⟨alts, _, halts, h₂⟩ := bind_eq_ok.1 h₁
        obtain rfl :=
          ReadsOnly.mapM (fun alt => readsOnly_requireModule alt .objective) _ _ _ _ halts
        obtain ⟨configSpace, _, hbuild, h₃⟩ := bind_eq_ok.1 h₂
        obtain rfl := ConfigSpace.readsOnly_build _ _ _ _ _ _ hbuild
        -- all of this only read, so the id is looked up in the store as it was
        obtain ⟨_, _, hinsert, h₄⟩ := bind_eq_ok.1 h₃
        obtain ⟨hnone, rfl⟩ := insertNew_eq_ok.1 hinsert
        obtain ⟨rfl, rfl⟩ := pure_eq_ok.1 h₄
        exact ⟨d, objective, alts, configSpace, hfound, by simpa using hstatus, hobjective, halts,
          hbuild, hnone, rfl, rfl⟩
  · rintro ⟨d, objective, alts, configSpace, hfound, hstatus, hobjective, halts, hbuild, hnone, rfl,
      rfl⟩
    refine ⟨some d, s, find?_eq_ok.2 ⟨hfound, rfl⟩, ?_⟩
    simp only [hstatus, bne_self_eq_false, Bool.false_eq_true, if_false]
    refine bind_eq_ok.2 ⟨objective, s, hobjective, bind_eq_ok.2 ⟨alts, s, halts, ?_⟩⟩
    refine bind_eq_ok.2 ⟨configSpace, s, hbuild, bind_eq_ok.2 ⟨(), _, ?_, rfl⟩⟩
    exact insertNew_eq_ok.2 ⟨hnone, rfl⟩

/-! ## Looking -/

/-- A job that is seen is fetched refreshed. -/
theorem fetchVisible_eq_ok {caller : Caller} {id : String} {r : Job} :
    fetchVisible now caller id s = .ok (r, s') ↔ ∃ j : Job, s.document? id = .ok (some j) ∧
      caller.canSee j.user = true ∧ r = j.refresh now ∧ s' = s := by
  rw [fetchVisible, bind_eq_ok]
  constructor
  · rintro ⟨_, _, hfetch, h⟩
    obtain ⟨found, hfound, rfl, rfl⟩ := fetch?_eq_ok.1 hfetch
    cases found with
    | none => exact absurd h throw_ne_ok
    | some j =>
      simp only [Option.map_some] at h
      split at h
      case isTrue hsee =>
        obtain ⟨rfl, rfl⟩ := pure_eq_ok.1 h
        exact ⟨j, hfound, hsee, rfl, rfl⟩
      case isFalse => exact absurd h throw_ne_ok
  · rintro ⟨j, hfound, hsee, rfl, rfl⟩
    refine ⟨some (j.refresh now), s', fetch?_eq_ok.2 ⟨some j, hfound, rfl, rfl⟩, ?_⟩
    show (if caller.canSee j.user then _ else _ : Transaction Job) s' = _
    rw [if_pos hsee]
    rfl

/-! ## Changes -/

/-- The second job is the first one at work: what it is, whose it is and who holds it are the same. -/
structure Tended (j j' : Job) : Prop where
  id : j'.id = j.id
  user : j'.user = j.user
  dataset : j'.dataset = j.dataset
  objective : j'.objective = j.objective
  altObjectives : j'.altObjectives = j.altObjectives
  creationTime : j'.creationTime = j.creationTime
  process : j'.process = j.process

/-- A job is tended where nothing happens. -/
theorem Tended.refl (j : Job) : Tended j j := ⟨rfl, rfl, rfl, rfl, rfl, rfl, rfl⟩

/-- Tending follows on tending. -/
theorem Tended.trans {i j k : Job} (hij : Tended i j) (hjk : Tended j k) : Tended i k where
  id := hjk.id.trans hij.id
  user := hjk.user.trans hij.user
  dataset := hjk.dataset.trans hij.dataset
  objective := hjk.objective.trans hij.objective
  altObjectives := hjk.altObjectives.trans hij.altObjectives
  creationTime := hjk.creationTime.trans hij.creationTime
  process := hjk.process.trans hij.process

/-- A status changes nothing but itself and the times. -/
theorem eq_of_applyStatus {target : JobStatus} {j j' : Job}
    (h : j.applyStatus target now = .ok j') :
    j' = { j with
      status := target
      runningTime := j'.runningTime
      runningDuration := j'.runningDuration
      pauseStartTime := j'.pauseStartTime
      pauseDuration := j'.pauseDuration
      prevPauseDuration := j'.prevPauseDuration } := by
  unfold applyStatus at h
  split at h
  case isTrue hsame =>
    cases h
    rw [← hsame]
  case isFalse =>
    split at h
    · cases h
      -- a pause that is open is closed first
      unfold closePause
      split <;> cases target <;> rfl
    · cases h

/-- A change of status tends the job. -/
theorem tended_applyStatus {target : JobStatus} {j j' : Job}
    (h : j.applyStatus target now = .ok j') : Tended j j' := by
  rw [eq_of_applyStatus h]
  exact ⟨rfl, rfl, rfl, rfl, rfl, rfl, rfl⟩

/-- It leads to the status that was asked for. -/
theorem status_of_applyStatus {target : JobStatus} {j j' : Job}
    (h : j.applyStatus target now = .ok j') : j'.status = target := by
  rw [eq_of_applyStatus h]

/-- A job is rebuilt if it is to have other models or definitions, and comes with a new configuration
space then. -/
theorem rebuild_eq_ok {u : JobUpdate} {j j' : Job} (h : rebuild u j s = .ok (j', s')) : s' = s ∧
    ((u.models = none ∧ u.configOverrides = none ∧ j' = j) ∨
      ((u.models ≠ none ∨ u.configOverrides ≠ none) ∧ ∃ configSpace,
        ConfigSpace.build j.id (u.models.getD j.models)
          (u.configOverrides.getD j.configOverrides) s =
          .ok (configSpace, s) ∧
        j' = { j with
          models := u.models.getD j.models
          configOverrides := u.configOverrides.getD j.configOverrides
          configSpace })) := by
  unfold rebuild at h
  split at h
  case isTrue hnone =>
    obtain ⟨rfl, rfl⟩ := pure_eq_ok.1 h
    rw [Bool.and_eq_true, Option.isNone_iff_eq_none, Option.isNone_iff_eq_none] at hnone
    exact ⟨rfl, .inl ⟨hnone.1, hnone.2, rfl⟩⟩
  case isFalse hsome =>
    obtain ⟨configSpace, _, hbuild, hpure⟩ := bind_eq_ok.1 h
    obtain rfl := ConfigSpace.readsOnly_build _ _ _ _ _ _ hbuild
    obtain ⟨rfl, rfl⟩ := pure_eq_ok.1 hpure
    -- models or overrides alone are enough to rebuild
    rw [Bool.and_eq_true, Option.isNone_iff_eq_none, Option.isNone_iff_eq_none, not_and_or] at hsome
    exact ⟨rfl, .inr ⟨hsome, configSpace, hbuild, rfl⟩⟩

/-- What is asked for is set first, and a status is applied last, to what that made of the job. -/
theorem apply_cases {u : JobUpdate} {j j' : Job} (h : apply now u j s = .ok (j', s')) : s' = s ∧
    ∃ j₁, rebuild u j s = .ok (j₁, s) ∧
      ((u.status = none ∧ j' = j₁.assign u) ∨
        ∃ target, u.status = some target ∧ (j₁.assign u).applyStatus target now = .ok j') := by
  rw [apply] at h
  obtain ⟨j₁, s₁, hrebuild, hset⟩ := bind_eq_ok.1 h
  obtain rfl := (rebuild_eq_ok hrebuild).1
  cases hu : u.status with
  | none =>
    simp only [hu] at hset
    obtain ⟨rfl, rfl⟩ := pure_eq_ok.1 hset
    exact ⟨rfl, j₁, hrebuild, .inl ⟨rfl, rfl⟩⟩
  | some target =>
    simp only [hu] at hset
    obtain ⟨hstatus, rfl⟩ := liftM_eq_ok.1 hset
    exact ⟨rfl, j₁, hrebuild, .inr ⟨target, rfl, hstatus⟩⟩

/-- A rebuilding tends the job. -/
theorem tended_rebuild {u : JobUpdate} {j j' : Job} (h : rebuild u j s = .ok (j', s')) :
    Tended j j' := by
  obtain ⟨-, ⟨-, -, rfl⟩ | ⟨-, configSpace, -, rfl⟩⟩ := rebuild_eq_ok h
  · exact .refl j'
  · exact ⟨rfl, rfl, rfl, rfl, rfl, rfl, rfl⟩

/-- An update tends the job and reads only. -/
theorem apply_eq_ok {u : JobUpdate} {j j' : Job} (h : apply now u j s = .ok (j', s')) :
    Tended j j' ∧ s' = s := by
  obtain ⟨rfl, j₁, hrebuild, hj'⟩ := apply_cases h
  have hassign : Tended j (j₁.assign u) :=
    (tended_rebuild hrebuild).trans ⟨rfl, rfl, rfl, rfl, rfl, rfl, rfl⟩
  rcases hj' with ⟨-, rfl⟩ | ⟨target, -, hstatus⟩
  · exact ⟨hassign, rfl⟩
  · exact ⟨hassign.trans (tended_applyStatus hstatus), rfl⟩

/-! ### Statuses and stamps -/

/-- The second job has the status and the stamps of the first one. -/
structure SameStamps (j j' : Job) : Prop where
  status : j'.status = j.status
  creationTime : j'.creationTime = j.creationTime
  runningTime : j'.runningTime = j.runningTime
  pauseStartTime : j'.pauseStartTime = j.pauseStartTime
  prevPauseDuration : j'.prevPauseDuration = j.prevPauseDuration

/-- What may become of a job at a time: statuses are applied to it, and between that anything is done
that leaves status and stamps alone. -/
inductive Becomes (now : Millis) (j : Job) : Job → Prop where
  | refl : Becomes now j j
  | kept {i i' : Job} : Becomes now j i → SameStamps i i' → Becomes now j i'
  | moved {i i' : Job} {target : JobStatus} : Becomes now j i → i.applyStatus target now = .ok i' →
    Becomes now j i'

/-- A rebuilding leaves status and stamps. -/
theorem rebuild_sameStamps {u : JobUpdate} {j j' : Job} (h : rebuild u j s = .ok (j', s')) :
    SameStamps j j' := by
  obtain ⟨-, ⟨-, -, rfl⟩ | ⟨-, configSpace, -, rfl⟩⟩ := rebuild_eq_ok h
  · exact ⟨rfl, rfl, rfl, rfl, rfl⟩
  · exact ⟨rfl, rfl, rfl, rfl, rfl⟩

/-- What an update makes of a job is what a job may become. -/
theorem becomes_apply {u : JobUpdate} {j j' : Job} (h : apply now u j s = .ok (j', s')) :
    Becomes now j j' := by
  obtain ⟨-, j₁, hrebuild, hj'⟩ := apply_cases h
  have hassign : Becomes now j (j₁.assign u) :=
    (Becomes.refl.kept (rebuild_sameStamps hrebuild)).kept ⟨rfl, rfl, rfl, rfl, rfl⟩
  rcases hj' with ⟨-, rfl⟩ | ⟨target, -, hstatus⟩
  · exact hassign
  · exact hassign.moved hstatus

/-- A job in error stays in error. -/
theorem status_of_applyStatus_of_error {target : JobStatus} {j j' : Job} (hj : j.status = .error)
    (h : j.applyStatus target now = .ok j') : j'.status = .error := by
  unfold applyStatus at h
  by_cases htarget : j.status = target
  · rw [if_pos htarget] at h
    cases h
    exact hj
  · -- there is no way from an error to another status
    have hnot : j.status.canBecome target = false := by
      rw [hj] at htarget ⊢
      cases target <;> first | rfl | exact absurd rfl htarget
    rw [if_neg htarget, hnot] at h
    cases h

/-- No update leads a job out of the error state. -/
theorem status_of_apply_of_error {u : JobUpdate} {j j' : Job} (hj : j.status = .error)
    (h : apply now u j s = .ok (j', s')) : j'.status = .error := by
  obtain ⟨-, j₁, hrebuild, hj'⟩ := apply_cases h
  have hstatus : (j₁.assign u).status = .error := (rebuild_sameStamps hrebuild).status.trans hj
  rcases hj' with ⟨-, rfl⟩ | ⟨target, -, happly⟩
  · exact hstatus
  · exact status_of_applyStatus_of_error hstatus happly

/-- A change that comes to an end was allowed, and wrote the changed job over the one it read. -/
theorem change_eq_ok {caller : Caller} {id : String} {u : JobUpdate} {r : Job} :
    change now caller id u s = .ok (r, s') ↔ ∃ j j' : Job, s.document? id = .ok (some j) ∧
      caller.authorize "job" j.id j.user = .ok () ∧ apply now u j s = .ok (j', s) ∧
      s' = s.put j' ∧ r = j'.refresh now := by
  rw [change, update_eq_ok]
  constructor
  · rintro ⟨j, j', s₁, hj, hchange, rfl, rfl⟩
    obtain ⟨_, _, hlift, happly⟩ := bind_eq_ok.1 hchange
    obtain ⟨hauthorize, rfl⟩ := liftM_eq_ok.1 hlift
    obtain rfl := (apply_eq_ok happly).2
    exact ⟨j, j', hj, hauthorize, happly, rfl, rfl⟩
  · rintro ⟨j, j', hj, hauthorize, happly, rfl, rfl⟩
    refine ⟨j, j', s, hj, ?_, rfl, rfl⟩
    exact bind_eq_ok.2 ⟨(), s, liftM_eq_ok.2 ⟨hauthorize, rfl⟩, happly⟩

/-- An appending that comes to an end wrote the job with the model behind its models, or nothing. -/
theorem appendModel_eq_ok {id model : String} {b : Bool}
    (h : appendModel id model s = .ok (b, s')) : ∃ j : Job, s.document? id = .ok (some j) ∧
      ((b = true ∧ ∃ configSpace,
          ConfigSpace.build j.id (j.models ++ [model]) j.configOverrides s = .ok (configSpace, s) ∧
          s' = s.put { j with models := j.models ++ [model], configSpace }) ∨
        (b = false ∧ s' = s)) := by
  rw [appendModel] at h
  obtain ⟨j, _, hrequire, h₁⟩ := bind_eq_ok.1 h
  obtain ⟨hj, rfl⟩ := require_eq_ok.1 hrequire
  obtain ⟨m, _, hm, h₂⟩ := bind_eq_ok.1 h₁
  -- nothing is written before the job
  obtain rfl := readsOnly_requireModule _ _ _ _ _ hm
  obtain ⟨d, _, hfind, h₃⟩ := bind_eq_ok.1 h₂
  obtain ⟨-, rfl⟩ := find?_eq_ok.1 hfind
  refine ⟨j, hj, ?_⟩
  simp only at h₃
  split at h₃
  · obtain ⟨configSpace, _, hbuild, h₄⟩ := bind_eq_ok.1 h₃
    obtain rfl := ConfigSpace.readsOnly_build _ _ _ _ _ _ hbuild
    obtain ⟨_, _, hput, h₅⟩ := bind_eq_ok.1 h₄
    obtain rfl := put_eq_ok.1 hput
    obtain ⟨rfl, rfl⟩ := pure_eq_ok.1 h₅
    exact .inl ⟨rfl, configSpace, hbuild, rfl⟩
  · obtain ⟨rfl, rfl⟩ := pure_eq_ok.1 h₃
    exact .inr ⟨rfl, rfl⟩

end Job

end Fleet
