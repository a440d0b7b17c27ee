import Fleet.Job.FanOut
import Fleet.Settlement.Job
import Fleet.Proofs.Derived.Steady
import Fleet.Proofs.Job.Life

/-!
# The tables do not look at derived fields

All transactions on processes, jobs and tasks are steady. No filter, no sort field and no change of
status depends on the derived fields of a job or a task: these are read off the stamps
(`Job.concur_applyStatus`, `Task.concur_applyStatus`). What a change leaves in the derived fields
may be old or new, and need not be the same in both stores: a job whose models change keeps what it
had, a job whose status changes gets what is derived at that time.
-/

set_option autoImplicit false

namespace Fleet

open Document (Akin Ignores)
open Transaction

/-! ## Processes -/

namespace Process

variable (now : Millis)

/-- A process that is created is written as it is told, and processes have nothing derived. -/
theorem steady_create (id : String) (new : NewProcess) : (create now id new).Steady :=
  steady_nextClaim.bind fun _ => (steady_insertNew _).bind fun _ => steady_pure _

theorem steady_listing (filters : List ProcessFilter) (q : ListQuery ProcessSort) :
    (list now filters q).Steady :=
  (steady_scan now fun _ => rfl).bind fun _ => steady_liftM _

theorem steady_countAll (filters : List ProcessFilter) : (countAll filters).Steady :=
  steady_count fun _ => rfl

/-- Which processes are live is told by their statuses. -/
theorem steady_live (kind : ProcessKind) : (live now kind).Steady := steady_scan now fun _ => rfl

/-- A change of a process is of the same process in both stores. -/
theorem steady_update (id : String) {change : Process → Transaction Process}
    (hchange : ∀ p, (change p).Steady) : (update now id change).Steady := by
  refine Transaction.steady_update now id fun p p' hp => ?_
  obtain rfl : p = p' := hp
  exact hchange p

theorem steady_claimOrdinal (id : String) (ordinal : UInt32) :
    (claimOrdinal now id ordinal).Steady :=
  steady_update now id fun _ => steady_nextClaim.bind fun _ => steady_pure _

theorem steady_keepalive (id : String) : (keepalive now id).Steady :=
  steady_update now id fun _ => steady_pure _

theorem steady_setStatus (id : String) (status : ProcessStatus) :
    (setStatus now id status).Steady :=
  steady_update now id fun _ => steady_pure _

/-- Processes are compared by their last signs of life and their ids. -/
theorem steady_terminateStale (cutoff : Millis) : (terminateStale now cutoff).Steady := by
  refine steady_updateFirst now (fun _ => rfl) (fun a a' b b' ha hb => ?_) fun _ => rfl
  obtain rfl : a = a' := ha
  obtain rfl : b = b' := hb
  rfl

end Process

/-! ## Modules -/

/-- A module is looked at in whole, and has nothing derived. -/
theorem steady_requireModule (id : String) (kind : ModuleKind) :
    (requireModule id kind).Steady := by
  refine (steady_find? (fun _ => rfl) id).bind fun found => ?_
  cases found with
  | none => exact steady_throw _
  | some m =>
    simp only
    split
    · exact steady_throw _
    · split
      · exact steady_throw _
      · exact steady_pure m

/-- A configuration space is built of modules. -/
theorem steady_build (job : String) (models : List String) (overrides : Overrides) :
    (ConfigSpace.build job models overrides).Steady := by
  have hchoice (model : String) : (ConfigSpace.choice overrides model).Steady :=
    (steady_requireModule model .model).bind fun _ => (steady_liftM _).bind fun _ => steady_pure _
  unfold ConfigSpace.build
  split
  · exact steady_throw _
  · exact (steady_mapM hchoice models).bind fun _ => steady_pure _

/-! ## Jobs -/

namespace Job

variable (now : Millis) {j j' : Job}

/-- A job that is akin to another one has other durations at most. -/
theorem exists_of_akin (h : Akin j j') :
    ∃ runningDuration pauseDuration, j' = { j with runningDuration, pauseDuration } := by
  have h : Bare.bare j = Bare.bare j' := h
  refine ⟨j'.runningDuration, j'.pauseDuration, ?_⟩
  calc j' = { (Bare.bare j' : Job) with
        runningDuration := j'.runningDuration, pauseDuration := j'.pauseDuration } := rfl
    _ = { j with
        runningDuration := j'.runningDuration, pauseDuration := j'.pauseDuration } := by
      rw [← h]; rfl

/-- No filter of jobs asks for a duration. -/
theorem ignores_passes (filters : List JobFilter) : Ignores (passes filters) := by
  intro j
  have hholds (f : JobFilter) : f.holds (Bare.bare j) = f.holds j := by cases f <;> rfl
  simp only [passes, hholds]

/-- Who sees a job is a matter of its user. -/
theorem ignores_isListed (caller : Caller) (filters : List JobFilter) :
    Ignores (isListed caller filters) := by
  intro j
  unfold isListed
  rw [ignores_passes filters j]
  rfl

/-- Jobs are not sorted by any duration. -/
theorem ignores_sortValue (field : JobSort) :
    Ignores (SortField.value field : Job → SortValue) := by
  intro j
  cases field <;> rfl

/-- A new job takes its dataset, its models and its objective from documents that have nothing
derived. -/
theorem steady_create (id : String) (caller : Caller) (new : NewJob) :
    (create now id caller new).Steady := by
  refine (steady_find? (fun _ => rfl) new.dataset).bind fun found => ?_
  cases found with
  | none => exact steady_throw_bind _ _
  | some d =>
    simp only
    split
    case isTrue => exact steady_throw_bind _ _
    case isFalse =>
      refine (steady_requireModule new.objective .objective).bind fun _ => ?_
      refine (steady_mapM (fun alt => steady_requireModule alt .objective) _).bind fun _ => ?_
      refine (steady_build id new.models new.configOverrides).bind fun _ => ?_
      exact (steady_insertNew _).bind fun _ => steady_pure _

/-- A job is shown as it is at the moment, whatever durations are stored. -/
theorem steady_fetchVisible (caller : Caller) (id : String) :
    (fetchVisible now caller id).Steady := by
  refine (steady_fetch? now id).bind fun found => ?_
  cases found with
  | none => exact steady_throw _
  | some j =>
    simp only
    split
    · exact steady_pure j
    · exact steady_throw _

theorem steady_listing (caller : Caller) (filters : List JobFilter) (q : ListQuery JobSort) :
    (list now caller filters q).Steady :=
  (steady_scan now (ignores_isListed caller filters)).bind fun _ => steady_liftM _

theorem steady_countAll (caller : Caller) (filters : List JobFilter) :
    (countAll caller filters).Steady := steady_count (ignores_isListed caller filters)

/-! ### Changes -/

/-- The configuration space is built of the models and the overrides alone. -/
theorem parallels_rebuild (u : JobUpdate) (h : Akin j j') :
    (rebuild u j).Parallels Akin (rebuild u j') := by
  obtain ⟨_, _, rfl⟩ := exists_of_akin h
  unfold rebuild
  split
  · exact parallels_pure rfl
  · exact (steady_build _ _ _).bind fun _ => parallels_pure rfl

/-- The end of a pause is reckoned from its beginning and the pauses before, which are not derived. -/
theorem ignores_closePause : Ignores fun j : Job => Bare.bare (j.closePause now) := by
  intro j
  simp only [closePause_eq]
  rfl

/-- The times that a change of status stamps do not depend on stored durations. -/
theorem ignores_stamp (target : JobStatus) :
    Ignores fun j : Job => Bare.bare (j.stamp target now) := by
  intro j
  cases target <;> rfl

/-- A change of status is granted or refused by the status alone. -/
theorem concur_applyStatus (target : JobStatus) (h : Akin j j') :
    Concur Akin (j.applyStatus target now) (j'.applyStatus target now) := by
  have hstatus : j.status = j'.status := Ignores.eq (f := status) (fun _ => rfl) h
  unfold applyStatus
  rw [hstatus]
  split
  · exact .ok h
  · split
    · have hstamped := (ignores_stamp now target).akin ((ignores_closePause now).akin h)
      have hmoved :=
        Ignores.akin (f := fun j => { j with status := target }) (fun _ => rfl) hstamped
      refine .ok ?_
      -- the job behind a change of status has durations that are derived anew
      rw [show refresh now _ = refresh now _ from hmoved.refresh_eq now]
      exact Akin.refl _
    · rw [Ignores.eq (f := fun j => cannotBecome j target) (fun _ => rfl) h]
      exact .error _

/-- An update of akin jobs makes akin jobs, or fails with the same error. -/
theorem parallels_apply (u : JobUpdate) (h : Akin j j') :
    (apply now u j).Parallels Akin (apply now u j') := by
  refine (parallels_rebuild u h).bind fun j j' h => ?_
  have hassign : Akin (j.assign u) (j'.assign u) := Ignores.akin (fun _ => rfl) h
  simp only
  split
  · exact parallels_liftM (concur_applyStatus now _ hassign)
  · exact parallels_pure hassign

/-- Where the caller may not update the job, or may not even see it, both runs tell the same. -/
theorem steady_change (caller : Caller) (id : String) (u : JobUpdate) :
    (change now caller id u).Steady := by
  refine steady_update now id fun j j' h => ?_
  have hauthorize : caller.authorize "job" j.id j.user = caller.authorize "job" j'.id j'.user :=
    Ignores.eq (f := fun j => caller.authorize "job" j.id j.user) (fun _ => rfl) h
  rw [hauthorize]
  exact (steady_liftM _).bind fun _ => parallels_apply now u h

/-- The first free job is the same one in both runs. -/
theorem steady_leaseFirst (filters : List JobFilter) (sort : Option JobSort) (direction : Direction)
    (process : String) : (leaseFirst now filters sort direction process).Steady :=
  steady_lease ignores_sortValue now (ignores_passes filters) sort direction process

/-- A job that has the model already is left alone in both runs. -/
theorem steady_appendModel (id model : String) : (appendModel id model).Steady := by
  refine (parallels_require (D := Job) id).bind fun j j' h => ?_
  obtain ⟨_, _, rfl⟩ := exists_of_akin h
  refine (steady_requireModule model .model).bind fun m => ?_
  refine (steady_find? (D := Dataset) (fun _ => rfl) j.dataset).bind fun dataset => ?_
  show Parallels (if wants _ _ j = true then _ else _) Eq (if wants _ _ j = true then _ else _)
  split
  · refine (steady_build _ _ _).bind fun _ => ?_
    refine Parallels.bind (parallels_put ?_) fun _ _ _ => steady_pure true
    rfl
  · exact steady_pure false

end Job

/-! ## Tasks -/

namespace Task

variable (now : Millis) {t t' : Task}

/-- No filter of tasks asks for a duration. -/
theorem ignores_passes (filters : List TaskFilter) : Ignores (passes filters) := by
  intro t
  have hholds (f : TaskFilter) : f.holds (Bare.bare t) = f.holds t := by cases f <;> rfl
  simp only [passes, hholds]

/-- Who sees a task is a matter of its user. -/
theorem ignores_isListed (caller : Caller) (filters : List TaskFilter) :
    Ignores (isListed caller filters) := by
  intro t
  unfold isListed
  rw [ignores_passes filters t]
  rfl

/-- Tasks are not sorted by any duration. -/
theorem ignores_sortValue (field : TaskSort) :
    Ignores (SortField.value field : Task → SortValue) := by
  intro t
  cases field <;> rfl

/-- A new task takes the number behind those of its job, of which there are as many in both runs. -/
theorem steady_create (caller : Caller) (new : NewTask) : (create now caller new).Steady := by
  refine (parallels_find? new.job).bind fun found found' h => ?_
  cases h with
  | none => exact steady_throw _
  | @some j j' hj =>
    obtain ⟨_, _, rfl⟩ := Job.exists_of_akin hj
    simp only [Option.filter_some]
    -- a job that the caller may not see is as good as none
    by_cases hsee : caller.canSee j.user
    · simp only [hsee, if_true]
      split
      · exact steady_throw _
      · split
        · exact steady_throw _
        · -- the tasks of the job are as many in both stores, so the new one gets the same number
          refine (parallels_matching fun _ => rfl).bind fun ts ts' hts => ?_
          rw [hts.length_eq]
          exact (steady_insertNew _).bind fun _ => steady_pure _
    · simp only [hsee]
      exact steady_throw _

/-- A task is shown as it is at the moment, whatever durations are stored. -/
theorem steady_fetchVisible (caller : Caller) (id : String) :
    (fetchVisible now caller id).Steady := by
  refine (steady_fetch? now id).bind fun found => ?_
  cases found with
  | none => exact steady_throw _
  | some t =>
    simp only
    split
    · exact steady_pure t
    · exact steady_throw _

theorem steady_listing (caller : Caller) (filters : List TaskFilter) (q : ListQuery TaskSort) :
    (list now caller filters q).Steady :=
  (steady_scan now (ignores_isListed caller filters)).bind fun _ => steady_liftM _

theorem steady_countAll (caller : Caller) (filters : List TaskFilter) :
    (countAll caller filters).Steady := steady_count (ignores_isListed caller filters)

/-! ### Changes -/

/-- A change of status is granted or refused by the status alone, and an error ends the stage in
both runs. -/
theorem concur_applyStatus (target : TaskStatus) (h : Akin t t') :
    Concur Akin (t.applyStatus target now) (t'.applyStatus target now) := by
  have hstatus : t.status = t'.status := Ignores.eq (f := status) (fun _ => rfl) h
  have habort : Akin (t.abortStage now) (t'.abortStage now) := Ignores.akin (fun _ => rfl) h
  unfold applyStatus
  rw [hstatus]
  split
  · exact .ok h
  · split
    · -- an error ends the stage that the task is in
      have hended : Akin (if target = .error then t.abortStage now else t)
          (if target = .error then t'.abortStage now else t') := by
        split
        · exact habort
        · exact h
      have hmoved := Ignores.akin (f := fun t => { t with status := target }) (fun _ => rfl) hended
      exact .ok (congrArg Bare.bare (hmoved.refresh_eq now))
    · rw [Ignores.eq (f := fun t => cannotBecome t target) (fun _ => rfl) h]
      exact .error _

/-- A stage that lies behind is refused in both runs. -/
theorem concur_applyStage (target : TaskStage) (h : Akin t t') :
    Concur Akin (t.applyStage target now) (t'.applyStage target now) := by
  have hid : t.id = t'.id := Ignores.eq (f := id) (fun _ => rfl) h
  have hstatus : t.status = t'.status := Ignores.eq (f := status) (fun _ => rfl) h
  have hstage : t.stage = t'.stage := Ignores.eq (f := stage) (fun _ => rfl) h
  -- the stamps are made from the stages, and no derived field is read
  have hmoved := Ignores.akin (f := fun t => { t with
    stageTimes := (t.stageTimes.modify t.stage (·.closed now)).modify target (·.opened now)
    stage := target }) (fun _ => rfl) h
  unfold applyStage
  rw [hid, hstatus, hstage] at hmoved ⊢
  split
  · exact .ok h
  · split
    · exact .error _
    · split
      · exact .error _
      · exact .ok (congrArg Bare.bare (hmoved.refresh_eq now))

/-- An update of akin tasks makes akin tasks, or fails with the same error. -/
theorem concur_apply (u : TaskUpdate) (h : Akin t t') :
    Concur Akin (apply now u t) (apply now u t') := by
  have hassign : Akin (t.assign u) (t'.assign u) := Ignores.akin (fun _ => rfl) h
  unfold apply
  cases u.stage with
  | none =>
    cases u.status with
    | none => exact .ok hassign
    | some status => exact concur_applyStatus now status hassign
  | some stage =>
    refine (concur_applyStage now stage hassign).bind fun _ _ h => ?_
    cases u.status with
    | none => exact .ok h
    | some status => exact concur_applyStatus now status h

theorem steady_change (caller : Caller) (id : String) (u : TaskUpdate) :
    (change now caller id u).Steady := by
  refine steady_update now id fun t t' h => ?_
  have hauthorize : caller.authorize "task" t.id t.user = caller.authorize "task" t'.id t'.user :=
    Ignores.eq (f := fun t => caller.authorize "task" t.id t.user) (fun _ => rfl) h
  rw [hauthorize]
  exact (steady_liftM _).bind fun _ => parallels_liftM (concur_apply now u h)

/-- The first free task is the same one in both runs. -/
theorem steady_leaseFirst (filters : List TaskFilter) (sort : Option TaskSort)
    (direction : Direction)
    (process : String) : (leaseFirst now filters sort direction process).Steady :=
  steady_lease ignores_sortValue now (ignores_passes filters) sort direction process

/-- Which tasks move is told by their jobs and statuses. -/
theorem steady_cascade (job : String) (sources : List TaskStatus) (target : TaskStatus) :
    (cascade job sources target).Steady := steady_updateAll (fun _ => rfl) fun _ => rfl

end Task

/-- Three statuses have a cascade, and the others move nothing. -/
theorem JobStatus.steady_cascade (status : JobStatus) (job : String) :
    (status.cascade job).Steady := by
  cases status with
  | pausing => exact Task.steady_cascade job _ _
  | resuming => exact Task.steady_cascade job _ _
  | terminating => exact Task.steady_cascade job _ _
  | _ => exact steady_pure 0

end Fleet
