import Fleet.Proofs.Access.Operation
import Fleet.Proofs.Lease.Exclusion
import Fleet.Proofs.Store.Faithful

/-!
# The lives of tasks

Cascades set the status of a task without asking where it may go, and maintainers act on tasks as
they were a while ago. Even so what is finished stays finished (`Task.Advances`). A cascade that
some status of a job orders finds no task that is done or in error, and whatever else happens to
statuses and stages is applied to the task as it is stored now, where its own rules refuse the rest
(`Task.Becomes`). A stamp is only ever set where there is none, so nothing depends on the clock.
-/

set_option autoImplicit false

namespace Fleet

open Transaction (map_eq_ok)

/-! ## Statuses and stages -/

namespace TaskStatus

/-- The work on a task in this status is over, and not for an error. -/
def IsDone (status : TaskStatus) : Prop :=
  status = .completed ∨ status = .terminated ∨ status = .canceled

variable {source target : TaskStatus}

/-- A finished task can still become erroneous, and nothing else. -/
theorem IsDone.of_canBecome (hdone : source.IsDone) (hne : source ≠ target)
    (h : source.canBecome target = true) : target = .error := by
  rcases hdone with rfl | rfl | rfl <;> cases target <;> simp_all [canBecome]

/-- Nothing but an error follows an error, and that is no change. -/
theorem ne_error_of_canBecome (hne : source ≠ target) (h : source.canBecome target = true) :
    source ≠ .error := by
  rintro rfl
  cases target <;> simp_all [canBecome]

/-- No cascade is for tasks that are done or in error, and none leads to an error. -/
theorem of_mem_cascades {sources : List TaskStatus} (h : (sources, target) ∈ cascades)
    (hsource : source ∈ sources) : ¬ source.IsDone ∧ source ≠ .error ∧ target ≠ .error := by
  have hall : ∀ c ∈ cascades, .completed ∉ c.1 ∧ .terminated ∉ c.1 ∧ .canceled ∉ c.1 ∧
      .error ∉ c.1 ∧
      c.2 ≠ .error := by
    decide
  obtain ⟨hcompleted, hterminated, hcanceled, herror, htarget⟩ := hall _ h
  refine ⟨?_, fun he => herror (he ▸ hsource), htarget⟩
  rintro (rfl | rfl | rfl)
  · exact hcompleted hsource
  · exact hterminated hsource
  · exact hcanceled hsource

end TaskStatus

/-- Stages of one rank are one stage. -/
theorem TaskStage.rank_inj {k l : TaskStage} : k.rank = l.rank ↔ k = l := by
  cases k <;> cases l <;> simp [rank]

/-! ## Stamps -/

namespace TimeInterval

/-- Whatever is stamped in the first interval is stamped in the second one, and with the same time. -/
structure Extends (i i' : TimeInterval) : Prop where
  start : ∀ e, i.start = some e → i'.start = some e
  stop : ∀ e, i.stop = some e → i'.stop = some e

variable {i i' i'' : TimeInterval}

theorem Extends.refl (i : TimeInterval) : i.Extends i := ⟨fun _ h => h, fun _ h => h⟩

/-- A stamp that is kept twice is kept. -/
theorem Extends.trans (h : i.Extends i') (h' : i'.Extends i'') : i.Extends i'' :=
  ⟨fun e he => h'.start e (h.start e he), fun e he => h'.stop e (h.stop e he)⟩

/-- Opening an interval keeps a start that is there. -/
theorem extends_opened (now : Millis) (i : TimeInterval) : i.Extends (i.opened now) where
  start e he := by rw [opened, he, Option.getD_some]
  stop _ he := he

/-- Closing an interval keeps a stop that is there. -/
theorem extends_closed (now : Millis) (i : TimeInterval) : i.Extends (i.closed now) where
  start _ he := he
  stop e he := by rw [closed, he, Option.getD_some]

end TimeInterval

namespace StageTimes

variable {st st' st'' : StageTimes} {f : TimeInterval → TimeInterval}

/-- A modification reaches the interval of its stage only. -/
theorem interval?_modify (st : StageTimes) (stage k : TaskStage) (f : TimeInterval → TimeInterval) :
    (st.modify stage f).interval? k =
      if k = stage then (st.interval? k).map f else st.interval? k := by
  cases stage <;> cases k <;> rfl

/-- Every stamp of the first times is one of the second times. -/
def Extends (st st' : StageTimes) : Prop :=
  ∀ k i, st.interval? k = some i → ∃ i', st'.interval? k = some i' ∧ i.Extends i'

/-- Stage times keep their own stamps. -/
theorem Extends.refl (st : StageTimes) : st.Extends st := fun _ i hi => ⟨i, hi, .refl i⟩

/-- Stamps that are kept twice are kept. -/
theorem Extends.trans (h : st.Extends st') (h' : st'.Extends st'') : st.Extends st'' := by
  intro k i hi
  obtain ⟨i', hi', hext⟩ := h k i hi
  obtain ⟨i'', hi'', hext'⟩ := h' k i' hi'
  exact ⟨i'', hi'', hext.trans hext'⟩

/-- A modification that keeps the stamps of an interval keeps those of all stages. -/
theorem extends_modify (hf : ∀ i, TimeInterval.Extends i (f i)) (st : StageTimes)
    (stage : TaskStage) :
    st.Extends (st.modify stage f) := by
  intro k i hi
  rw [interval?_modify, hi]
  split
  case isTrue => exact ⟨f i, rfl, hf i⟩
  case isFalse => exact ⟨i, rfl, .refl i⟩

end StageTimes

/-! ## What a status and a stage do -/

namespace Task

variable {now : Millis} {t t' t'' : Task}

/-- A task that takes a stage is there already, or goes forward to it. -/
theorem applyStage_cases {target : TaskStage} (h : t.applyStage target now = .ok t') :
    (t.stage = target ∧ t' = t) ∨
      (t.stage.rank < target.rank ∧ t.status ≠ .error ∧ t'.status = t.status ∧ t'.stage = target ∧
        t'.stageTimes =
          (t.stageTimes.modify t.stage (·.closed now)).modify target (·.opened now)) := by
  unfold applyStage at h
  by_cases hsame : t.stage = target
  · rw [if_pos hsame] at h
    exact .inl ⟨hsame, (Except.ok.inj h).symm⟩
  · rw [if_neg hsame] at h
    by_cases herror : t.status = .error
    case pos =>
      rw [if_pos herror] at h
      cases h
    case neg =>
      rw [if_neg herror] at h
      by_cases hback : target.rank < t.stage.rank
      case pos =>
        rw [if_pos hback] at h
        cases h
      case neg =>
        rw [if_neg hback] at h
        obtain rfl := Except.ok.inj h
        -- what is neither the same stage nor an earlier one is a later one
        have hrank : t.stage.rank ≠ target.rank := fun he => hsame (TaskStage.rank_inj.1 he)
        exact .inr ⟨by omega, herror, rfl, rfl, rfl⟩

/-- A task that takes a status has it already, or may go there and does. -/
theorem applyStatus_cases {target : TaskStatus} (h : t.applyStatus target now = .ok t') :
    (t.status = target ∧ t' = t) ∨
      (t.status ≠ target ∧ t.status.canBecome target = true ∧ t'.status = target ∧
        t'.stage = t.stage ∧
        t'.stageTimes =
          if target = .error then (t.abortStage now).stageTimes else t.stageTimes) := by
  unfold applyStatus at h
  by_cases hsame : t.status = target
  · rw [if_pos hsame] at h
    exact .inl ⟨hsame, (Except.ok.inj h).symm⟩
  · rw [if_neg hsame] at h
    by_cases hcan : t.status.canBecome target = true
    case neg =>
      rw [if_neg hcan] at h
      cases h
    case pos =>
      rw [if_pos hcan] at h
      obtain rfl := Except.ok.inj h
      -- an error closes the interval of the stage, and leaves the stage
      refine .inr ⟨hsame, hcan, rfl, ?_, ?_⟩
      · split <;> rfl
      · split <;> rfl

/-- Closing the interval of the stage that was broken off keeps every stamp. -/
theorem extends_abortStage (now : Millis) (t : Task) :
    t.stageTimes.Extends (t.abortStage now).stageTimes := by
  refine StageTimes.extends_modify (fun i => ?_) _ _
  split
  case isTrue => exact i.extends_closed now
  case isFalse => exact .refl i

/-! ## What is finished -/

/-- The work that is finished for the first task is finished for the second one. -/
structure Advances (t t' : Task) : Prop where
  done : t.status.IsDone → t'.status = t.status ∨ t'.status = .error
  error : t.status = .error → t'.status = .error ∧ t'.stage = t.stage
  rank : t.stage.rank ≤ t'.stage.rank
  stamps : t.stageTimes.Extends t'.stageTimes

/-- A task advances to itself. -/
theorem Advances.refl (t : Task) : t.Advances t :=
  ⟨fun _ => .inl rfl, fun h => ⟨h, rfl⟩, le_rfl, .refl _⟩

/-- Advances follow one another. -/
theorem Advances.trans (h : t.Advances t') (h' : t'.Advances t'') : t.Advances t'' where
  done hdone := by
    -- a finished task stays, or becomes erroneous and stays so
    rcases h.done hdone with hsame | herror
    · rw [← hsame] at hdone
      rcases h'.done hdone with hsame' | herror
      · exact .inl (hsame'.trans hsame)
      · exact .inr herror
    · exact .inr (h'.error herror).1
  error herror := by
    obtain ⟨hstatus, hstage⟩ := h.error herror
    obtain ⟨hstatus', hstage'⟩ := h'.error hstatus
    exact ⟨hstatus', hstage'.trans hstage⟩
  rank := h.rank.trans h'.rank
  stamps := h.stamps.trans h'.stamps

/-- A change outside of status and stages is an advance. -/
theorem advances_of_sameStages (h : SameStages t t') : t.Advances t' where
  done _ := .inl h.status
  error herror := ⟨h.status.trans herror, h.stage⟩
  rank := by rw [h.stage]
  stamps := by
    rw [h.stageTimes]
    exact .refl _

/-- A change of the stage is an advance. -/
theorem advances_of_applyStage {target : TaskStage} (h : t.applyStage target now = .ok t') :
    t.Advances t' := by
  rcases applyStage_cases h with ⟨-, rfl⟩ | ⟨hrank, hopen, hstatus, hstage, htimes⟩
  · exact .refl t'
  · refine ⟨fun _ => .inl hstatus, fun herror => absurd herror hopen, ?_, ?_⟩
    · rw [hstage]
      exact hrank.le
    · rw [htimes]
      exact (StageTimes.extends_modify (TimeInterval.extends_closed now) _ _).trans
        (StageTimes.extends_modify (TimeInterval.extends_opened now) _ _)

/-- A change of the status is an advance. -/
theorem advances_of_applyStatus {target : TaskStatus} (h : t.applyStatus target now = .ok t') :
    t.Advances t' := by
  rcases applyStatus_cases h with ⟨-, rfl⟩ | ⟨hne, hcan, hstatus, hstage, htimes⟩
  · exact .refl t'
  · refine ⟨fun hdone => ?_, fun herror => ?_, ?_, ?_⟩
    · rw [hstatus]
      exact .inr (hdone.of_canBecome hne hcan)
    · exact absurd herror (TaskStatus.ne_error_of_canBecome hne hcan)
    · rw [hstage]
    · rw [htimes]
      split
      case isTrue => exact extends_abortStage now t
      case isFalse => exact .refl _

/-- What the cascade of a job does to a task is an advance. -/
theorem advances_of_cascade {sources : List TaskStatus} {target : TaskStatus}
    (h : (sources, target) ∈ TaskStatus.cascades) (hsource : t.status ∈ sources) :
    t.Advances { t with status := target } := by
  obtain ⟨hdone, herror, -⟩ := TaskStatus.of_mem_cascades h hsource
  exact ⟨fun hd => absurd hd hdone, fun he => absurd he herror, le_rfl, .refl _⟩

/-- **Whatever happens to a task in one transaction is an advance.** -/
theorem advances_of_becomes (h : t.Becomes now t') : t.Advances t' := by
  induction h with
  | refl => exact .refl t
  | kept _ hsame ih => exact ih.trans (advances_of_sameStages hsame)
  | staged _ hstage ih => exact ih.trans (advances_of_applyStage hstage)
  | moved _ hstatus ih => exact ih.trans (advances_of_applyStatus hstatus)
  | cascaded _ hcascade hsource ih => exact ih.trans (advances_of_cascade hcascade hsource)

end Task

/-! ## Runs -/

namespace Store

variable {s t : Store}

/-- Every stored task is there at the end of a run, where what was finished is finished. -/
theorem Leads.exists_task {allowed : Store → Millis → Access → Prop} (h : s.Leads allowed t)
    (hallowed : ∀ u now a, allowed u now a → a.IsOrderly) (hs : s.WellFormed) {v : Task}
    (hv : s.Has v) : ∃ v' : Task, t.Has v' ∧ v'.id = v.id ∧ v.Advances v' := by
  refine (Leads.induction (P := fun u => u.WellFormed ∧
    ∃ v' : Task, u.Has v' ∧ v'.id = v.id ∧ v.Advances v') h ⟨hs, v, hv, rfl, .refl v⟩ ?_).2
  rintro u now a ⟨hwf, i, hi, hid, hadvances⟩ ha
  obtain ⟨i', hi', hid', -, hbecomes⟩ := Access.exists_task_after hwf (hallowed u now a ha) hi now
  refine ⟨Access.wellFormed_after hwf, i', hi', hid'.trans hid, ?_⟩
  exact hadvances.trans (Task.advances_of_becomes hbecomes)

end Store

/-! ## A task that fails -/

namespace Workbench

def newTask : NewTask := { job := "j", model := "m" }

/-- The first task of the job. -/
def task : Task := .initial 0 job 1 newTask

/-- The task of the example is created. -/
theorem createTask_eq_ok : Task.create 0 .root newTask store = .ok (task.refresh, store.put task) :=
  Task.create_eq_ok.2
    ⟨job, [], (Store.has_put_self catalog job).document?, rfl, rfl, by decide, rfl, rfl,
    rfl, rfl⟩

/-- It is read back as it was written. -/
theorem sound_task : Document.Sound task := Task.sound_iff.2 (by decide)

/-- Nothing in the store of the example is damaged. -/
theorem clear : store.Clear := by
  refine ⟨reachable.wellFormed, fun k text hfind => ?_⟩
  -- there are no tasks
  have hnone : none = some text := hfind
  cases hnone

/-- Nor is anything when the task is there. -/
theorem clear_task : (store.put task).Clear := clear.put_task (by decide)

/-- The task, failed at 5 in the stage that it was to begin. -/
def failed : Task :=
  { task with
    status := .error, stage := .training, stageTimes.training := ⟨some 5, some 5⟩ }.refresh

/-- The run of the example: the catalogue, a job, a task, and the failure of the task in its
training. -/
theorem leads_failed :
    Store.empty.Leads (fun _ _ a => a.IsOrderly) ((store.put task).put failed) := by
  have hempty : Store.empty.Leads (fun _ _ a => a.IsOrderly) .empty := .refl
  have hcatalog : Store.empty.Leads (fun _ _ a => a.IsOrderly) catalog :=
    ((hempty.after 0 (.putDataset dataset) trivial).after 0 (.putModule model) trivial).after 0
      (.putModule objective) trivial
  have hjob : (Access.createJob "j" .root new).after 0 catalog = store :=
    Access.after_eq_of_ok (map_eq_ok.2 ⟨_, create_eq_ok "j", rfl⟩)
  have htask : (Access.createTask .root newTask).after 0 store = store.put task :=
    Access.after_eq_of_ok (map_eq_ok.2 ⟨_, createTask_eq_ok, rfl⟩)
  have hread : (store.put task).document? task.id = .ok (some task) :=
    Store.document?_eq_ok_some.2 ⟨_, Store.has_put_self _ task, sound_task⟩
  -- the update advances the stage first and fails the task then
  have hchange : Task.change 5 .root task.id { stage := some .training, status := some .error }
      (store.put task) = .ok (failed.refresh, (store.put task).put failed) :=
    Task.change_eq_ok.2 ⟨task, failed, hread, rfl, rfl, rfl, rfl⟩
  have hfailed :
      (Access.updateTask .root task.id { stage := some .training, status := some .error }).after
      5 (store.put task) = (store.put task).put failed :=
    Access.after_eq_of_ok (map_eq_ok.2 ⟨_, hchange, rfl⟩)
  rw [← hfailed, ← htask, ← hjob]
  exact .step (.step (.step hcatalog trivial) trivial) trivial

end Workbench

/-! ## The result -/

/-- **Finished work is never reopened.** All operations are runs of accesses that cascade as the
status of a job orders. On any such run a task that is completed, terminated or canceled is so still
or is in error, one in error stays in error and in its stage, no stage goes to a lower rank, and
every stamp of a stage is kept. It does not matter which of them are made in what order, what a
clock says, or what the task was like when someone decided to change it. -/
theorem finished_work_is_never_reopened {s : Store}
    (hs : Store.empty.Leads (fun _ _ a => a.IsOrderly) s) :
    (∀ (op : Operation) (w : World), w.store = s →
      s.Leads (fun _ _ a => a.IsOrderly) (op.perform w).2.store) ∧
    ∀ t, s.Leads (fun _ _ a => a.IsOrderly) t → ∀ v : Task, s.Has v →
      ∃ v' : Task, t.Has v' ∧ v'.id = v.id ∧ v.Advances v' := by
  refine ⟨?_, fun t ht v hv => ?_⟩
  · rintro op w rfl
    exact op.leads_perform w
  · exact ht.exists_task (fun _ _ _ ha => ha) (hs.wellFormed Store.wellFormed_empty) hv

/-- A task that failed at 5, as it was to begin, has failed so for good. -/
theorem finished_work_is_never_reopened_behind_failure :
    ((Workbench.store.put Workbench.task).put Workbench.failed).Has Workbench.failed ∧
      ∀ t, ((Workbench.store.put Workbench.task).put Workbench.failed).Leads
        (fun _ _ a => a.IsOrderly) t →
        ∃ v : Task, t.Has v ∧ v.id = Workbench.task.id ∧ v.status = .error ∧ v.stage = .training ∧
          v.stageTimes.training = ⟨some 5, some 5⟩ := by
  have hfailed : ((Workbench.store.put Workbench.task).put Workbench.failed).Has Workbench.failed :=
    Store.has_put_self _ _
  refine ⟨hfailed, fun t ht => ?_⟩
  obtain ⟨-, hlater⟩ := finished_work_is_never_reopened Workbench.leads_failed
  obtain ⟨v, hv, hid, h⟩ := hlater t ht Workbench.failed hfailed
  -- an erroneous task keeps its status, its stage and the two stamps
  obtain ⟨hstatus, hstage⟩ := h.error rfl
  obtain ⟨i, hi, hext⟩ := h.stamps .training _ rfl
  obtain rfl : v.stageTimes.training = i := Option.some.inj hi
  refine ⟨v, hv, hid, hstatus, hstage, ?_⟩
  exact congrArg₂ TimeInterval.mk (hext.start 5 rfl) (hext.stop 5 rfl)

end Fleet
