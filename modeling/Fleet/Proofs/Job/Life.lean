import Fleet.Proofs.Access.Operation
import Fleet.Proofs.Lease.Exclusion

/-!
# The lives of jobs

The status of a job and its stamps tell the same story (`Job.Coherent`): it runs since it was
created, its end is stamped when it has ended, and the start of a pause while it is paused. Applying
a status keeps it so, and it is all that ever happens to them (`Job.Becomes`). What is over stays
over (`Job.Endures`): a stamped end is never changed, and a job that has ended goes nowhere but to
an error.

Both hold whatever the clock says, since neither compares two times.
-/

set_option autoImplicit false

namespace Fleet

open Document (encode)
open Transaction (map_eq_ok liftM_eq_ok)

/-! ## Statuses -/

namespace JobStatus

/-- A job in this status is done, well or not. -/
def HasEnded (status : JobStatus) : Prop :=
  status = .completed ∨ status = .terminated ∨ status = .error

instance (status : JobStatus) : Decidable status.HasEnded :=
  inferInstanceAs (Decidable (status = .completed ∨ status = .terminated ∨ status = .error))

variable {source target : JobStatus}

/-- No job goes back to being scheduled. -/
theorem ne_scheduled_of_canBecome (hne : source ≠ target) (h : source.canBecome target = true) :
    target ≠ .scheduled := by
  rintro rfl
  cases source <;> simp_all [canBecome]

/-- An end is left for an error only, and an error for nothing. -/
theorem HasEnded.of_canBecome (hend : source.HasEnded) (hne : source ≠ target)
    (h : source.canBecome target = true) : source ≠ .error ∧ target = .error := by
  rcases hend with rfl | rfl | rfl <;> cases target <;> simp_all [canBecome]

end JobStatus

/-! ## What a status does to the stamps -/

/-- Nothing is added without saturation. -/
theorem Millis.plus_zero (a : Millis) : Millis.plus a 0 = a := by
  apply UInt64.toNat_inj.1
  rw [Millis.toNat_plus]
  have ha := a.toNat_lt
  have hzero : (0 : Millis).toNat = 0 := rfl
  omega

namespace Job

variable {now : Millis} {target : JobStatus} {j j' : Job}

/-- How long the pause of a paused job has lasted. -/
def currentPause (now : Millis) (j : Job) : Millis :=
  match j.status, j.pauseStartTime with
  | .paused, some start => now.minus start
  | _, _ => 0

/-- The pause that a job is in has lasted since it started. -/
theorem currentPause_of_paused {start : Millis} (hstatus : j.status = .paused)
    (hstart : j.pauseStartTime = some start) : j.currentPause now = now.minus start := by
  rw [currentPause, hstatus, hstart]

/-- A job that is not paused, or not since any time, has no pause. -/
theorem currentPause_eq_zero
    (h : ∀ start, j.status = .paused → j.pauseStartTime = some start → False) :
    j.currentPause now = 0 := by
  unfold currentPause
  split
  case h_1 start hstatus hstart => exact (h start hstatus hstart).elim
  case h_2 => rfl

/-- A job that is not paused is in no pause. -/
theorem currentPause_of_ne (hstatus : j.status ≠ .paused) : j.currentPause now = 0 :=
  currentPause_eq_zero fun _ h _ => hstatus h

/-- The second job is the first one as it enters a status. -/
structure Enters (target : JobStatus) (now : Millis) (j j' : Job) : Prop where
  status : j'.status = target
  creationTime : j'.creationTime = j.creationTime
  start : j'.runningTime.start =
    if target = .running then some (j.runningTime.start.getD now) else j.runningTime.start
  stop : j'.runningTime.stop =
    if target.HasEnded then some (j.runningTime.stop.getD now) else j.runningTime.stop
  pauseStartTime : j'.pauseStartTime =
    if target = .paused then some now else if j.status = .paused then none else j.pauseStartTime
  prevPauseDuration : j'.prevPauseDuration = j.prevPauseDuration.plus (j.currentPause now)

/-- Closing the pause concerns the stamps of the pause only. -/
theorem closePause_eq (now : Millis) (j : Job) : j.closePause now =
    { j with
      pauseStartTime := if j.status = .paused then none else j.pauseStartTime
      prevPauseDuration := j.prevPauseDuration.plus (j.currentPause now) } := by
  unfold closePause
  split
  case h_1 start hstatus hstart =>
    rw [if_pos hstatus, currentPause_of_paused hstatus hstart]
  case h_2 hopen =>
    -- a paused job without a start of its pause has nothing to close
    have hpause : (if j.status = .paused then none else j.pauseStartTime) = j.pauseStartTime := by
      by_cases hstatus : j.status = .paused
      · rw [if_pos hstatus]
        exact (Option.eq_none_iff_forall_ne_some.2 fun start => hopen start hstatus).symm
      · exact if_neg hstatus
    rw [hpause, currentPause_eq_zero hopen, Millis.plus_zero]

/-- A job that takes a status stays as it is if it has it already, and enters it otherwise. -/
theorem applyStatus_cases (h : j.applyStatus target now = .ok j') :
    (j.status = target ∧ j' = j) ∨
      (j.status ≠ target ∧ j.status.canBecome target = true ∧ j.Enters target now j') := by
  unfold applyStatus at h
  by_cases hsame : j.status = target
  · rw [if_pos hsame] at h
    exact .inl ⟨hsame, (Except.ok.inj h).symm⟩
  · rw [if_neg hsame] at h
    by_cases hcan : j.status.canBecome target = true
    case neg =>
      rw [if_neg hcan] at h
      cases h
    case pos =>
      rw [if_pos hcan, closePause_eq] at h
      obtain rfl := Except.ok.inj h
      -- for each target the stamps are those that entering it sets
      refine .inr ⟨hsame, hcan, ?_⟩
      cases target <;> exact ⟨rfl, rfl, rfl, rfl, rfl, rfl⟩

/-! ## Coherent jobs -/

/-- Status and stamps agree. -/
structure Coherent (j : Job) : Prop where
  status : j.status ≠ .scheduled
  start : j.runningTime.start = some j.creationTime
  stop : j.runningTime.stop.isSome = true ↔ j.status.HasEnded
  pause : j.pauseStartTime.isSome = true ↔ j.status = .paused

/-- A new job is coherent. -/
theorem coherent_initial (now : Millis) (id : String) (caller : Caller) (new : NewJob)
    (configSpace : String) : (initial now id caller new configSpace).Coherent :=
  ⟨nofun, rfl, iff_of_false nofun (show ¬ JobStatus.HasEnded .running by decide),
    iff_of_false nofun nofun⟩

/-- A change outside of status and stamps keeps a job coherent. -/
theorem Coherent.of_sameStamps (hj : j.Coherent) (h : SameStamps j j') : j'.Coherent where
  status := by
    rw [h.status]
    exact hj.status
  start := by
    rw [h.runningTime, h.creationTime]
    exact hj.start
  stop := by
    rw [h.runningTime, h.status]
    exact hj.stop
  pause := by
    rw [h.pauseStartTime, h.status]
    exact hj.pause

/-- A change of the status keeps a job coherent. -/
theorem Coherent.of_applyStatus (hj : j.Coherent) (h : j.applyStatus target now = .ok j') :
    j'.Coherent := by
  rcases applyStatus_cases h with ⟨-, rfl⟩ | ⟨hne, hcan, henters⟩
  · exact hj
  -- status, start, end and pause
  · refine ⟨?_, ?_, ?_, ?_⟩
    · rw [henters.status]
      exact JobStatus.ne_scheduled_of_canBecome hne hcan
    · rw [henters.start, henters.creationTime, hj.start]
      exact ite_self _
    · rw [henters.stop, henters.status]
      by_cases hend : target.HasEnded
      · rw [if_pos hend]
        exact ⟨fun _ => hend, fun _ => rfl⟩
      · -- what had ended before would have gone to an error
        rw [if_neg hend, hj.stop]
        have hbefore : ¬ j.status.HasEnded := by
          intro hbefore
          obtain ⟨-, rfl⟩ := hbefore.of_canBecome hne hcan
          exact hend (.inr (.inr rfl))
        exact iff_of_false hbefore hend
    · rw [henters.pauseStartTime, henters.status]
      by_cases hpaused : target = .paused
      · rw [if_pos hpaused]
        exact ⟨fun _ => hpaused, fun _ => rfl⟩
      · rw [if_neg hpaused]
        by_cases hbefore : j.status = .paused
        · rw [if_pos hbefore]
          exact iff_of_false (by decide) hpaused
        · rw [if_neg hbefore, hj.pause]
          exact iff_of_false hbefore hpaused

/-- **Whatever happens to a job in one transaction keeps it coherent.** -/
theorem Coherent.of_becomes (hj : j.Coherent) (h : j.Becomes now j') : j'.Coherent := by
  induction h with
  | refl => exact hj
  | kept _ hsame ih => exact ih.of_sameStamps hsame
  | moved _ hstatus ih => exact ih.of_applyStatus hstatus

/-! ## What is over -/

/-- What was over for the first job is over for the second one, and in the same way or by an error. -/
structure Endures (j j' : Job) : Prop where
  stop : ∀ e, j.runningTime.stop = some e → j'.runningTime.stop = some e
  ended : j.status = .completed ∨ j.status = .terminated → j'.status = j.status ∨ j'.status = .error
  error : j.status = .error → j'.status = .error

/-- A job endures in itself. -/
theorem Endures.refl (j : Job) : Endures j j := ⟨fun _ h => h, fun _ => .inl rfl, fun h => h⟩

/-- Enduring is transitive. -/
theorem Endures.trans {i j k : Job} (hij : Endures i j) (hjk : Endures j k) : Endures i k where
  stop e he := hjk.stop e (hij.stop e he)
  ended hi := by
    rcases hij.ended hi with hj | hj
    · rw [← hj] at hi
      rcases hjk.ended hi with hk | hk
      · exact .inl (hk.trans hj)
      · exact .inr hk
    · exact .inr (hjk.error hj)
  error hi := hjk.error (hij.error hi)

/-- A job endures where its status and stamps do not change. -/
theorem endures_of_sameStamps (h : SameStamps j j') : Endures j j' :=
  ⟨fun _ he => h.runningTime ▸ he, fun _ => .inl h.status, fun he => h.status.trans he⟩

/-- A job endures a change of its status. -/
theorem endures_of_applyStatus (h : j.applyStatus target now = .ok j') : Endures j j' := by
  rcases applyStatus_cases h with ⟨-, rfl⟩ | ⟨hne, hcan, henters⟩
  · exact .refl j'
  · have hends (hend : j.status.HasEnded) : j.status ≠ .error ∧ j'.status = .error := by
      rw [henters.status]
      exact hend.of_canBecome hne hcan
    refine ⟨fun e he => ?_, fun hended => ?_, fun herror => ?_⟩
    · rw [henters.stop, he]
      exact ite_self _
    · have hend : j.status.HasEnded := hended.imp (fun h => h) .inl
      exact .inr (hends hend).2
    · exact absurd herror (hends (.inr (.inr herror))).1

/-- **A job endures whatever happens to it in one transaction.** -/
theorem endures_of_becomes (h : j.Becomes now j') : Endures j j' := by
  induction h with
  | refl => exact .refl j
  | kept _ hsame ih => exact ih.trans (endures_of_sameStamps hsame)
  | moved _ hstatus ih => exact ih.trans (endures_of_applyStatus hstatus)

end Job

/-! ## Stores -/

namespace Store

variable {s t : Store}

/-- The job takes the status, on behalf of the system user. -/
theorem Has.after_applyStatus {j j' : Job} (hj : s.Has j) {target : JobStatus} {now : Millis}
    (h : j.applyStatus target now = .ok j') :
    (Access.updateJob .root j.id { status := some target }).after now s = s.put j' := by
  have hauthorize : Caller.authorize .root "job" j.id j.user = .ok () := rfl
  have happly : Job.apply now { status := some target } j s = .ok (j', s) := liftM_eq_ok.2 ⟨h, rfl⟩
  have hchange := Job.change_eq_ok.2 ⟨j, j', hj.document?, hauthorize, happly, rfl, rfl⟩
  exact Access.after_eq_of_ok (map_eq_ok.2 ⟨_, hchange, rfl⟩)

/-- Every stored job is coherent. -/
def JobsCoherent (s : Store) : Prop := ∀ j : Job, s.Has j → j.Coherent

/-- The empty store has no job that could be incoherent. -/
theorem jobsCoherent_empty : JobsCoherent .empty := by
  intro j hj
  have hnone : none = some (encode j) := hj
  cases hnone

/-- The step lemma: one access keeps all jobs coherent. -/
theorem JobsCoherent.after (hs : s.JobsCoherent) (hwf : s.WellFormed) (now : Millis) (a : Access) :
    (a.after now s).JobsCoherent := by
  intro j' hj'
  rcases Access.exists_job_before hwf hj' with ⟨id, caller, new, configSpace, rfl⟩ | ⟨j, hj, htends⟩
  · exact Job.coherent_initial now id caller new configSpace
  · exact (hs j hj).of_becomes htends.becomes

/-- The run lemma: every reachable store has coherent jobs only. -/
theorem Reachable.jobsCoherent (hs : s.Reachable) : s.JobsCoherent := by
  refine (Leads.induction (P := fun u => u.WellFormed ∧ u.JobsCoherent) hs
    ⟨wellFormed_empty, jobsCoherent_empty⟩ ?_).2
  rintro u now a ⟨hwf, hu⟩ -
  exact ⟨Access.wellFormed_after hwf, hu.after hwf now a⟩

/-- Every stored job is there at the end of a run, and what was over is over. -/
theorem Leads.exists_job {allowed : Store → Millis → Access → Prop} (h : s.Leads allowed t)
    (hs : s.WellFormed) {j : Job} (hj : s.Has j) :
    ∃ j' : Job, t.Has j' ∧ j'.id = j.id ∧ j.Endures j' := by
  refine (Leads.induction (P := fun u => u.WellFormed ∧
    ∃ j' : Job, u.Has j' ∧ j'.id = j.id ∧ j.Endures j') h ⟨hs, j, hj, rfl, .refl j⟩ ?_).2
  rintro u now a ⟨hwf, i, hi, hid, hendures⟩ -
  obtain ⟨i', hi', hid', htends⟩ := Access.exists_job_after hwf hi now a
  refine ⟨Access.wellFormed_after hwf, i', hi', hid'.trans hid, ?_⟩
  exact hendures.trans (Job.endures_of_becomes htends.becomes)

end Store

/-! ## A job that completes -/

namespace Workbench

/-- The job, completed at 7. -/
def completed : Job := { job.stamp .completed 7 with status := .completed }.refresh 7

/-- The store of the example, with a completed job, is reachable. -/
theorem completed_reachable : (store.put completed).Reachable := by
  have happly : job.applyStatus .completed 7 = .ok completed := rfl
  have hafter : (Access.updateJob .root job.id { status := some .completed }).after 7 store =
      store.put completed := (Store.has_put_self catalog job).after_applyStatus happly
  rw [← hafter]
  exact reachable.after 7 _

end Workbench

/-! ## The result -/

/-- **Jobs live in order.** In every store that a run leads to, and all operations make such runs,
all jobs can be read and are coherent: a job is never scheduled, runs since its creation, has an end
exactly if it is completed, terminated or in error, and the start of a pause exactly while it is
paused. However the run goes on, each of them is still there, a stamped end is the same, a completed
or terminated job is so still or is in error, and one in error stays in error. -/
theorem jobs_live_in_order {s : Store} (hs : s.Reachable) :
    (∀ (op : Operation) (w : World), w.store = s →
      s.Leads (fun _ _ _ => True) (op.perform w).2.store) ∧
    ∃ js : List Job, s.documents Job = .ok js ∧ (∀ j ∈ js, j.Coherent) ∧
      ∀ t, s.Leads (fun _ _ _ => True) t → ∃ js' : List Job, t.documents Job = .ok js' ∧
        ∀ j ∈ js, ∃ j' ∈ js', j'.id = j.id ∧ j.Endures j' := by
  refine ⟨?_, ?_⟩
  · rintro op w rfl
    exact op.reaches_perform w
  · obtain ⟨js, hjs⟩ := hs.wellFormed.exists_documents Job
    have hmem {j : Job} : j ∈ js ↔ s.Has j := hs.wellFormed.mem_documents hjs
    refine ⟨js, hjs, fun j hj => hs.jobsCoherent j (hmem.1 hj), fun t ht => ?_⟩
    obtain ⟨js', hjs'⟩ := (hs.leads ht).wellFormed.exists_documents Job
    refine ⟨js', hjs', fun j hj => ?_⟩
    -- a job that is there before a run is there behind it
    obtain ⟨j', hj', hid, hendures⟩ := ht.exists_job hs.wellFormed (hmem.1 hj)
    exact ⟨j', ((hs.leads ht).wellFormed.mem_documents hjs').2 hj', hid, hendures⟩

/-- A job that is completed at 7 ends at 7, whatever follows, and is completed or in error. -/
theorem jobs_live_in_order_behind_completion :
    (Workbench.store.put Workbench.completed).Reachable ∧
      ∀ t, (Workbench.store.put Workbench.completed).Leads (fun _ _ _ => True) t →
        ∃ js : List Job, t.documents Job = .ok js ∧ ∃ j ∈ js, j.id = "j" ∧
          j.runningTime.stop = some 7 ∧ (j.status = .completed ∨ j.status = .error) := by
  refine ⟨Workbench.completed_reachable, fun t ht => ?_⟩
  obtain ⟨-, js, hjs, -, hlater⟩ := jobs_live_in_order Workbench.completed_reachable
  obtain ⟨js', hjs', hendures⟩ := hlater t ht
  have hmem : Workbench.completed ∈ js :=
    (Workbench.completed_reachable.wellFormed.mem_documents hjs).2 (Store.has_put_self _ _)
  obtain ⟨j, hj, hid, h⟩ := hendures _ hmem
  exact ⟨js', hjs', j, hj, hid, h.stop 7 rfl, h.ended (.inl rfl)⟩

end Fleet
