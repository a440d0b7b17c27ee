import Fleet.Task.Table
import Fleet.Proofs.Store.Steps

/-!
# What becomes of tasks

The transactions on tasks, each with what it reads and writes. A creation writes the next task of a
job, which nobody holds, under an unused id; every change writes a task over the one that was read,
under its id, for its owner and with its holder (`Task.Tended`). The qualities of a task are those
that were set by the updates; no other change adds one to them. Its status and its stages change in
three ways only: a stage is applied, a status is applied, or the task is moved by a cascade
(`Task.Becomes`).
-/

set_option autoImplicit false

namespace Fleet

/-- The moves of tasks that the statuses of jobs order, each with the statuses that it is for. -/
def TaskStatus.cascades : List (List TaskStatus × TaskStatus) := [
  ([.scheduled, .running], .pausing),
  ([.pausing, .paused], .scheduled),
  ([.scheduled, .running, .pausing, .paused], .terminating)]

end Fleet

namespace Fleet.Task

open Transaction

variable {s s' : Store} {now : Millis}

/-! ## Creation -/

/-- A creation comes to an end if it finds a running job that lists the model; it writes the task with
the number behind those of the tasks that the job has, under an unused id. -/
theorem create_eq_ok {caller : Caller} {new : NewTask} {r : Task} :
    create now caller new s = .ok (r, s') ↔ ∃ (j : Job) (ts : List Task),
      s.document? new.job = .ok (some j) ∧ caller.canSee j.user = true ∧ j.status = .running ∧
      j.models.contains new.model = true ∧ s.documents Task = .ok ts ∧
      (let t := initial now j ((ts.filter fun t => t.job == j.id).length + 1) new
       s.tasks.find? t.id = none ∧ s' = s.put t ∧ r = t.refresh) := by
  rw [create, bind_eq_ok]
  constructor
  · rintro ⟨found, s₁, hfind, h₁⟩
    obtain ⟨hfound, rfl⟩ := find?_eq_ok.1 hfind
    cases found with
    | none => exact absurd h₁ throw_ne_ok
    | some j =>
      -- each check that fails ends the creation
      by_cases hsee : caller.canSee j.user = true
      case neg =>
        simp only [Option.filter, hsee] at h₁
        exact absurd h₁ throw_ne_ok
      case pos =>
        simp only [Option.filter, hsee, if_true] at h₁
        split at h₁
        case isTrue => exact absurd h₁ throw_ne_ok
        case isFalse hstatus =>
          split at h₁
          case isTrue => exact absurd h₁ throw_ne_ok
          case isFalse hmodel =>
            obtain ⟨siblings, s₂, hsiblings, h₂⟩ := bind_eq_ok.1 h₁
            obtain ⟨ts, hts, rfl, rfl⟩ := matching_eq_ok.1 hsiblings
            obtain ⟨_, s₃, hinsert, h₃⟩ := bind_eq_ok.1 h₂
            obtain ⟨hnone, rfl⟩ := insertNew_eq_ok.1 hinsert
            obtain ⟨rfl, rfl⟩ := pure_eq_ok.1 h₃
            exact ⟨j, ts, hfound, hsee, by simpa using hstatus, by simpa using hmodel, hts, hnone,
              rfl, rfl⟩
  · rintro ⟨j, ts, hfound, hsee, hstatus, hmodel, hts, hnone, rfl, rfl⟩
    refine ⟨some j, s, find?_eq_ok.2 ⟨hfound, rfl⟩, ?_⟩
    simp only [Option.filter, hsee, if_true, hstatus, bne_self_eq_false, Bool.false_eq_true,
      if_false, hmodel, Bool.not_true]
    refine bind_eq_ok.2 ⟨_, s, matching_eq_ok.2 ⟨ts, hts, rfl, rfl⟩, ?_⟩
    exact bind_eq_ok.2 ⟨(), _, insertNew_eq_ok.2 ⟨hnone, rfl⟩, rfl⟩

/-! ## Looking -/

/-- A task that is seen is fetched refreshed. -/
theorem fetchVisible_eq_ok {caller : Caller} {id : String} {r : Task} :
    fetchVisible now caller id s = .ok (r, s') ↔ ∃ t : Task, s.document? id = .ok (some t) ∧
      caller.canSee t.user = true ∧ r = t.refresh ∧ s' = s := by
  rw [fetchVisible, bind_eq_ok]
  constructor
  · rintro ⟨_, _, hfetch, h⟩
    obtain ⟨found, hfound, rfl, rfl⟩ := fetch?_eq_ok.1 hfetch
    cases found with
    | none => exact absurd h throw_ne_ok
    | some t =>
      simp only [Option.map_some] at h
      split at h
      case isTrue hsee =>
        obtain ⟨rfl, rfl⟩ := pure_eq_ok.1 h
        exact ⟨t, hfound, hsee, rfl, rfl⟩
      case isFalse => exact absurd h throw_ne_ok
  · rintro ⟨t, hfound, hsee, rfl, rfl⟩
    refine ⟨some t.refresh, s', fetch?_eq_ok.2 ⟨some t, hfound, rfl, rfl⟩, ?_⟩
    show (if caller.canSee t.user then _ else _ : Transaction Task) s' = _
    rw [if_pos hsee]
    rfl

/-! ## Changes -/

/-- The second task is the first one at work: what it is, whose it is and who holds it are the
same. -/
structure Tended (t t' : Task) : Prop where
  id : t'.id = t.id
  job : t'.job = t.job
  process : t'.process = t.process
  user : t'.user = t.user
  dataset : t'.dataset = t.dataset
  model : t'.model = t.model
  objective : t'.objective = t.objective
  altObjectives : t'.altObjectives = t.altObjectives
  config : t'.config = t.config
  creationTime : t'.creationTime = t.creationTime

/-- A task is tended where nothing happens. -/
theorem Tended.refl (t : Task) : Tended t t := ⟨rfl, rfl, rfl, rfl, rfl, rfl, rfl, rfl, rfl, rfl⟩

/-- Tending follows on tending. -/
theorem Tended.trans {t u v : Task} (htu : Tended t u) (huv : Tended u v) : Tended t v where
  id := huv.id.trans htu.id
  job := huv.job.trans htu.job
  process := huv.process.trans htu.process
  user := huv.user.trans htu.user
  dataset := huv.dataset.trans htu.dataset
  model := huv.model.trans htu.model
  objective := huv.objective.trans htu.objective
  altObjectives := huv.altObjectives.trans htu.altObjectives
  config := huv.config.trans htu.config
  creationTime := huv.creationTime.trans htu.creationTime

/-- A stage changes nothing but itself and the times. -/
theorem eq_of_applyStage {target : TaskStage} {t t' : Task}
    (h : t.applyStage target now = .ok t') :
    t' = { t with
      stage := target
      stageTimes := t'.stageTimes
      stageDurations := t'.stageDurations
      runningDuration := t'.runningDuration } := by
  unfold applyStage at h
  split at h
  case isTrue hsame =>
    cases h
    -- the stage that the task has already
    rw [← hsame]
  case isFalse =>
    split at h
    · cases h
    · split at h
      · cases h
      · cases h
        rfl

/-- A status changes nothing but itself and the times. -/
theorem eq_of_applyStatus {target : TaskStatus} {t t' : Task}
    (h : t.applyStatus target now = .ok t') :
    t' = { t with
      status := target
      stageTimes := t'.stageTimes
      stageDurations := t'.stageDurations
      runningDuration := t'.runningDuration } := by
  unfold applyStatus at h
  split at h
  case isTrue hsame =>
    cases h
    rw [← hsame]
  case isFalse =>
    split at h
    · cases h
      -- going to an error also closes the interval of the stage in flight
      by_cases herror : target = .error
      · rw [if_pos herror]
        rfl
      · rw [if_neg herror]
        rfl
    · cases h

/-- Fields, stage and status are applied one after the other. -/
theorem apply_eq (now : Millis) (u : TaskUpdate) (t : Task) : t.apply now u =
    u.stage.elim (.ok (t.assign u)) ((t.assign u).applyStage · now) >>= fun t₁ =>
      u.status.elim (.ok t₁) (t₁.applyStatus · now) := by
  unfold apply
  cases u.stage <;> cases u.status <;> rfl

/-- An update sets the plain fields, changes the stage and then the status. -/
theorem apply_eq_ok {u : TaskUpdate} {t t' : Task} : t.apply now u = .ok t' ↔
    ∃ t₁, u.stage.elim (.ok (t.assign u)) ((t.assign u).applyStage · now) = .ok t₁ ∧
      u.status.elim (.ok t₁) (t₁.applyStatus · now) = .ok t' := by
  rw [apply_eq]
  cases u.stage.elim (.ok (t.assign u)) ((t.assign u).applyStage · now) <;> simp [bind, Except.bind]

/-- What an update makes of a task, but for the times. -/
theorem eq_of_apply {u : TaskUpdate} {t t' : Task} (h : t.apply now u = .ok t') :
    t' = { t.assign u with
      stage := u.stage.getD t.stage
      status := u.status.getD t.status
      stageTimes := t'.stageTimes
      stageDurations := t'.stageDurations
      runningDuration := t'.runningDuration } := by
  obtain ⟨t₁, hstage, hstatus⟩ := apply_eq_ok.1 h
  -- the stage comes first, and the status behind it
  have ht₁ : t₁ = { t.assign u with
      stage := u.stage.getD t.stage
      stageTimes := t₁.stageTimes
      stageDurations := t₁.stageDurations
      runningDuration := t₁.runningDuration } := by
    cases hu : u.stage with
    | none =>
      rw [hu] at hstage
      cases hstage
      rfl
    | some stage =>
      rw [hu] at hstage
      exact eq_of_applyStage hstage
  cases hu : u.status with
  | none =>
    rw [hu] at hstatus
    cases hstatus
    rw [ht₁]
    rfl
  | some status =>
    rw [hu] at hstatus
    rw [eq_of_applyStatus hstatus, ht₁]
    rfl

/-- A change of status tends the task. -/
theorem tended_applyStatus {target : TaskStatus} {t t' : Task}
    (h : t.applyStatus target now = .ok t') : Tended t t' := by
  rw [eq_of_applyStatus h]
  exact ⟨rfl, rfl, rfl, rfl, rfl, rfl, rfl, rfl, rfl, rfl⟩

/-- So does an update. -/
theorem tended_apply {u : TaskUpdate} {t t' : Task} (h : t.apply now u = .ok t') :
    Tended t t' := by
  rw [eq_of_apply h]
  exact ⟨rfl, rfl, rfl, rfl, rfl, rfl, rfl, rfl, rfl, rfl⟩

/-- A change of status leaves the qualities. -/
theorem qualities_applyStatus {target : TaskStatus} {t t' : Task}
    (h : t.applyStatus target now = .ok t') : t'.qualities = t.qualities := by
  rw [eq_of_applyStatus h]
  rfl

/-- Of all that an update does only the assignment of its fields is about the qualities. -/
theorem qualities_apply {u : TaskUpdate} {t t' : Task} (h : t.apply now u = .ok t') :
    t'.qualities = (t.assign u).qualities := by
  rw [eq_of_apply h]
  rfl

/-- The first part of an update does not touch the status. -/
theorem status_of_stage {u : TaskUpdate} {t t₁ : Task}
    (h : u.stage.elim (.ok (t.assign u)) ((t.assign u).applyStage · now) = .ok t₁) :
    t₁.status = t.status := by
  cases hu : u.stage with
  | none =>
    rw [hu] at h
    cases h
    rfl
  | some stage =>
    rw [hu] at h
    rw [eq_of_applyStage h]
    rfl

/-- It leads to the status that was asked for. -/
theorem status_of_applyStatus {target : TaskStatus} {t t' : Task}
    (h : t.applyStatus target now = .ok t') : t'.status = target := by
  rw [eq_of_applyStatus h]

/-- A task in error stays in error. -/
theorem status_of_applyStatus_of_error {target : TaskStatus} {t t' : Task} (ht : t.status = .error)
    (h : t.applyStatus target now = .ok t') : t'.status = .error := by
  unfold applyStatus at h
  by_cases htarget : t.status = target
  · rw [if_pos htarget] at h
    cases h
    exact ht
  · have hnot : t.status.canBecome target = false := by
      rw [ht] at htarget ⊢
      cases target <;> first | rfl | exact absurd rfl htarget
    rw [if_neg htarget, hnot] at h
    cases h

/-- No update leads a task out of the error state. -/
theorem status_of_apply_of_error {u : TaskUpdate} {t t' : Task} (ht : t.status = .error)
    (h : t.apply now u = .ok t') : t'.status = .error := by
  obtain ⟨t₁, hstage, hstatus⟩ := apply_eq_ok.1 h
  have ht₁ : t₁.status = .error := (status_of_stage hstage).trans ht
  cases hu : u.status with
  | none =>
    rw [hu] at hstatus
    cases hstatus
    exact ht₁
  | some status =>
    rw [hu] at hstatus
    exact status_of_applyStatus_of_error ht₁ hstatus

/-! ### Statuses and stages -/

/-- The second task has the status, the stage and the stage times of the first one. -/
structure SameStages (t t' : Task) : Prop where
  status : t'.status = t.status
  stage : t'.stage = t.stage
  stageTimes : t'.stageTimes = t.stageTimes

/-- What may become of a task at a time: stages and statuses are applied to it, cascades move it, and
between that anything is done that leaves status and stages alone. -/
inductive Becomes (now : Millis) (t : Task) : Task → Prop where
  | refl : Becomes now t t
  | kept {u u' : Task} : Becomes now t u → SameStages u u' → Becomes now t u'
  | staged {u u' : Task} {target : TaskStage} : Becomes now t u → u.applyStage target now = .ok u' →
    Becomes now t u'
  | moved {u u' : Task} {target : TaskStatus} :
      Becomes now t u → u.applyStatus target now = .ok u' →
    Becomes now t u'
  | cascaded {u : Task} {sources : List TaskStatus} {target : TaskStatus} : Becomes now t u →
    (sources, target) ∈ TaskStatus.cascades → u.status ∈ sources →
    Becomes now t { u with status := target }

/-- What a task may become, it may become in two steps. -/
theorem Becomes.trans {t u v : Task} (htu : Becomes now t u) (huv : Becomes now u v) :
    Becomes now t v := by
  induction huv with
  | refl => exact htu
  | kept _ hsame ih => exact ih.kept hsame
  | staged _ hstage ih => exact ih.staged hstage
  | moved _ hstatus ih => exact ih.moved hstatus
  | cascaded _ hcascade hsource ih => exact ih.cascaded hcascade hsource

/-- What an update makes of a task is what a task may become. -/
theorem becomes_apply {u : TaskUpdate} {t t' : Task} (h : t.apply now u = .ok t') :
    Becomes now t t' := by
  obtain ⟨t₁, hstage, hstatus⟩ := apply_eq_ok.1 h
  have hassign : Becomes now t (t.assign u) := Becomes.refl.kept ⟨rfl, rfl, rfl⟩
  -- the stage first, since the status is changed behind it
  have hstaged : Becomes now t t₁ := by
    cases hu : u.stage with
    | none =>
      rw [hu] at hstage
      cases hstage
      exact hassign
    | some stage =>
      rw [hu] at hstage
      exact hassign.staged hstage
  cases hu : u.status with
  | none =>
    rw [hu] at hstatus
    cases hstatus
    exact hstaged
  | some status =>
    rw [hu] at hstatus
    exact hstaged.moved hstatus

/-- A change that comes to an end was allowed, and wrote the changed task over the one it read. -/
theorem change_eq_ok {caller : Caller} {id : String} {u : TaskUpdate} {r : Task} :
    change now caller id u s = .ok (r, s') ↔ ∃ t t' : Task, s.document? id = .ok (some t) ∧
      caller.authorize "task" t.id t.user = .ok () ∧ apply now u t = .ok t' ∧
      s' = s.put t' ∧ r = t'.refresh := by
  rw [change, update_eq_ok]
  constructor
  · rintro ⟨t, t', s₁, ht, hchange, rfl, rfl⟩
    obtain ⟨_, _, hlift, hset⟩ := bind_eq_ok.1 hchange
    obtain ⟨hauthorize, rfl⟩ := liftM_eq_ok.1 hlift
    obtain ⟨happly, rfl⟩ := liftM_eq_ok.1 hset
    exact ⟨t, t', ht, hauthorize, happly, rfl, rfl⟩
  · rintro ⟨t, t', ht, hauthorize, happly, rfl, rfl⟩
    refine ⟨t, t', s, ht, ?_, rfl, rfl⟩
    exact bind_eq_ok.2 ⟨(), s, liftM_eq_ok.2 ⟨hauthorize, rfl⟩, liftM_eq_ok.2 ⟨happly, rfl⟩⟩

/-- A cascade writes the tasks of the job that are in one of the sources. -/
theorem cascade_eq_ok {job : String} {sources : List TaskStatus} {target : TaskStatus} {n : Nat} :
    cascade job sources target s = .ok (n, s') ↔ ∃ ts : List Task, s.documents Task = .ok ts ∧
      n = (ts.filter fun t => t.job == job && sources.contains t.status).length ∧
      s' = s.putAll ((ts.filter fun t => t.job == job && sources.contains t.status).map
        fun t => { t with status := target }) :=
  updateAll_eq_ok

end Fleet.Task

namespace Fleet

/-! ## Qualities -/

/-- The qualities that an update sets. -/
def TaskUpdate.qualities (u : TaskUpdate) : List Binary64 :=
  u.quality.toList ++ u.qualityTrain.toList ++ u.qualityExpected.toList ++ u.altQualities.getD []

/-- The places that a task has for qualities. -/
inductive Rating where
  | quality | train | expected | alternatives

/-- The qualities that an update sets at a place. -/
def TaskUpdate.rated? (u : TaskUpdate) : Rating → Option (List Binary64)
  | .quality => u.quality.map ([·])
  | .train => u.qualityTrain.map ([·])
  | .expected => u.qualityExpected.map ([·])
  | .alternatives => u.altQualities

/-- The update sets no quality that is not finite. -/
def TaskUpdate.IsFinite (u : TaskUpdate) : Prop := ∀ x ∈ u.qualities, x.isFinite = true

instance (u : TaskUpdate) : Decidable u.IsFinite :=
  inferInstanceAs (Decidable (∀ x ∈ u.qualities, x.isFinite = true))

/-- Whoever sets nothing at any place sets no quality. -/
theorem TaskUpdate.qualities_eq_nil {u : TaskUpdate} (h : ∀ f, u.rated? f = none) :
    u.qualities = [] := by
  have hquality := Option.map_eq_none_iff.1 (h .quality)
  have htrain := Option.map_eq_none_iff.1 (h .train)
  have hexpected := Option.map_eq_none_iff.1 (h .expected)
  have halternatives : u.altQualities = none := h .alternatives
  rw [qualities, hquality, htrain, hexpected, halternatives]
  rfl

namespace Task

variable {t : Task} {u : TaskUpdate} {x : Binary64}

/-- A new task has three qualities, all of them zero. -/
theorem isFinite_initial {now : Millis} {j : Job} {n : Nat} {new : NewTask}
    (h : x ∈ (initial now j n new).qualities) : x.isFinite = true := by
  have hzero : x = .zero := by simpa [qualities, initial] using h
  rw [hzero]
  rfl

/-- A quality that is set is there. -/
theorem mem_qualities_assign_of_mem (h : x ∈ u.qualities) : x ∈ (t.assign u).qualities := by
  rcases u with ⟨quality, qualityTrain, qualityExpected, altQualities, status, stage, message⟩
  simp only [TaskUpdate.qualities, List.mem_append, Option.mem_toList] at h
  rcases h with ((rfl | rfl) | rfl) | h
  · exact List.mem_cons_self
  · exact List.mem_cons_of_mem _ List.mem_cons_self
  · exact List.mem_cons_of_mem _ (List.mem_cons_of_mem _ List.mem_cons_self)
  · cases altQualities with
    | none => cases h
    | some xs => exact List.mem_cons_of_mem _ (List.mem_cons_of_mem _ (List.mem_cons_of_mem _ h))

/-- A quality of the changed task is one that was set, or one that was there. -/
theorem mem_of_mem_qualities_assign (h : x ∈ (t.assign u).qualities) :
    x ∈ u.qualities ∨ x ∈ t.qualities := by
  rcases u with ⟨quality, qualityTrain, qualityExpected, altQualities, status, stage, message⟩
  simp only [qualities, assign, List.mem_cons] at h
  simp only [TaskUpdate.qualities, qualities, List.mem_append, List.mem_cons, Option.mem_toList]
  rcases h with rfl | rfl | rfl | h
  · cases quality <;> simp
  · cases qualityTrain <;> simp
  · cases qualityExpected <;> simp
  · cases altQualities with
    | none => exact .inr (.inr (.inr (.inr h)))
    | some xs => exact .inl (.inr h)

end Task

end Fleet
