import Fleet.Settlement.Job
import Fleet.Settlement.Task
import Fleet.Proofs.Job.Table
import Fleet.Proofs.Store.Faithful
import Fleet.Proofs.Task.Table

/-!
# What settlements make of jobs and tasks

A transaction of a settlement changes the job that it is about, or moves the tasks of this job, each
by itself and no others (`JobSettlement.rewrites_step`, `TaskSettlement.maps_step`). What several
transactions make of a regular store is therefore known from what they make of every job and of
every task, one behind the other, and two runs that make the same of these end in the same store
(`Rewrites.unique`).
-/

set_option autoImplicit false

namespace Fleet

open Document (collection key encode decode Sound)
open Store Transaction

/-! ## Statuses -/

/-- Where a task in a status goes when its job is in a status. -/
def JobStatus.follow : JobStatus → TaskStatus → TaskStatus
  | .pausing, .scheduled | .pausing, .running => .pausing
  | .resuming, .pausing | .resuming, .paused => .scheduled
  | .terminating, .scheduled | .terminating, .running | .terminating, .pausing
  | .terminating, .paused => .terminating
  | _, status => status

/-- A task that has followed a job has nothing left to follow. -/
theorem JobStatus.follow_follow (status : JobStatus) (t : TaskStatus) :
    status.follow (status.follow t) = status.follow t := by
  cases status <;> cases t <;> rfl

/-- The transitional states of a job are those that settle. -/
theorem JobStatus.mem_transitional {status : JobStatus} :
    status ∈ JobStatus.transitional ↔ ∃ target, status.settled? = some target := by
  cases status <;> simp [transitional, settled?]

/-- The transitional states of a task are those that settle. -/
theorem TaskStatus.mem_transitional {status : TaskStatus} :
    status ∈ TaskStatus.transitional ↔ ∃ target, status.settled? = some target := by
  cases status <;> simp [transitional, settled?]

/-- A job settles in a status that is not transitional, and neither status is an error. -/
theorem JobStatus.settled?_of_settled {status target : JobStatus}
    (h : status.settled? = some target) :
    target.settled? = none ∧ target ≠ .error ∧ status ≠ .error := by
  cases status <;> cases h <;> decide

/-- What a task settles to is settled. -/
theorem TaskStatus.settled?_of_settled {status target : TaskStatus}
    (h : status.settled? = some target) : target.settled? = none := by
  cases status <;> cases h <;> rfl

/-- The task has gone with a job in a status. -/
def Task.follow (status : JobStatus) (t : Task) : Task :=
  { t with status := status.follow t.status }

/-- Following a job twice is following it once. -/
theorem Task.follow_follow (status : JobStatus) (t : Task) :
    (t.follow status).follow status = t.follow status := by
  rw [follow, follow, JobStatus.follow_follow]

/-- The tasks of a job that is in a status go with it. -/
def Task.followIf (job : String) (status : JobStatus) (t : Task) : Task :=
  if t.job = job then t.follow status else t

namespace Job

/-- The job in a status that it may go to, or as it was. -/
def moved (target : JobStatus) (now : Millis) (j : Job) : Job :=
  match j.applyStatus target now with
  | .ok j' => j'
  | .error _ => j

variable {target : JobStatus} {now : Millis} {j j' : Job}

/-- A change of a job's status that is allowed is the move. -/
theorem moved_of_ok (h : j.applyStatus target now = .ok j') : j.moved target now = j' := by
  rw [moved, h]

/-- A move keeps the identity of a job and its holder. -/
theorem tended_moved (target : JobStatus) (now : Millis) (j : Job) :
    Tended j (j.moved target now) := by
  rw [moved]
  cases h : j.applyStatus target now with
  | ok j' => exact tended_applyStatus h
  | error e => exact .refl j

/-- Who holds the job does not matter. -/
theorem applyStatus_withHolder (target : JobStatus) (now : Millis) (j : Job)
    (holder : Option String) :
    ({ j with process := holder } : Job).applyStatus target now =
      match j.applyStatus target now with
      | .ok j' => .ok { j' with process := holder }
      | .error e => .error e := by
  -- closing a pause neither reads nor writes the holder
  have hclosed : ({ j with process := holder } : Job).closePause now =
      { j.closePause now with process := holder } := by
    obtain ⟨_, _, _, _, _, _, _, _, _, _, _, _, _, start, _, _, status, _, _⟩ := j
    cases status <;> cases start <;> rfl
  unfold applyStatus
  by_cases hsame : j.status = target
  · rw [if_pos hsame, if_pos hsame]
  · rw [if_neg hsame, if_neg hsame]
    by_cases hcan : j.status.canBecome target = true
    · rw [if_pos hcan, if_pos hcan, hclosed]
      cases target <;> rfl
    · rw [if_neg hcan, if_neg hcan]
      rfl

/-- A move neither reads nor writes the holder of a job. -/
theorem moved_withHolder (target : JobStatus) (now : Millis) (j : Job) (holder : Option String) :
    ({ j with process := holder } : Job).moved target now =
      { j.moved target now with process := holder } := by
  rw [moved, moved, applyStatus_withHolder]
  cases j.applyStatus target now <;> rfl

/-- A job in a transitional status may go where it settles. -/
theorem exists_applyStatus_settled (h : j.status.settled? = some target) (now : Millis) :
    ∃ j', j.applyStatus target now = .ok j' ∧ j'.status = target := by
  unfold applyStatus
  cases hstatus : j.status <;> rw [hstatus] at h <;> cases h <;> exact ⟨_, rfl, rfl⟩

/-- The job has moved and is free. -/
def settled (target : JobStatus) (now : Millis) (j : Job) : Job :=
  Leasable.withHolder none (j.moved target now)

/-- Who held the job before does not matter. -/
theorem settled_withHolder (target : JobStatus) (now : Millis) (holder : Option String) (j : Job) :
    (Leasable.withHolder holder j).settled target now = j.settled target now := by
  have hmoved : (Leasable.withHolder holder j).moved target now =
      Leasable.withHolder holder (j.moved target now) := moved_withHolder target now j holder
  rw [settled, hmoved]
  rfl

/-- An update that sets nothing but the status is a change of the status. -/
theorem apply_status (target : JobStatus) (now : Millis) (j : Job) :
    apply now { status := some target } j =
      (liftM (j.applyStatus target now) : Transaction Job) := rfl

end Job

namespace Task

/-- The task in a status that it may go to, or as it was. -/
def moved (target : TaskStatus) (now : Millis) (t : Task) : Task :=
  match t.applyStatus target now with
  | .ok t' => t'
  | .error _ => t

variable {target : TaskStatus} {now : Millis} {t t' : Task}

/-- A change of a task's status that is allowed is the move. -/
theorem moved_of_ok (h : t.applyStatus target now = .ok t') : t.moved target now = t' := by
  rw [moved, h]

/-- A move keeps the identity of a task and its holder. -/
theorem tended_moved (target : TaskStatus) (now : Millis) (t : Task) :
    Tended t (t.moved target now) := by
  rw [moved]
  cases h : t.applyStatus target now with
  | ok t' => exact tended_applyStatus h
  | error e => exact .refl t

/-- A transitional task may always move to what its status settles to. -/
theorem exists_applyStatus_settled (h : t.status.settled? = some target) (now : Millis) :
    ∃ t', t.applyStatus target now = .ok t' ∧ t'.status = target := by
  unfold applyStatus
  cases hstatus : t.status <;> rw [hstatus] at h <;> cases h <;> exact ⟨_, rfl, rfl⟩

/-- A move neither reads nor writes the holder of a task. -/
theorem moved_withHolder (target : TaskStatus) (now : Millis) (t : Task) (holder : Option String) :
    ({ t with process := holder } : Task).moved target now =
      { t.moved target now with process := holder } := by
  unfold moved applyStatus
  by_cases hsame : t.status = target
  · rw [if_pos hsame, if_pos hsame]
  · rw [if_neg hsame, if_neg hsame]
    by_cases hcan : t.status.canBecome target = true
    · rw [if_pos hcan, if_pos hcan]
      cases target <;> rfl
    · rw [if_neg hcan, if_neg hcan]

/-- The task has moved and is free. -/
def settled (target : TaskStatus) (now : Millis) (t : Task) : Task :=
  Leasable.withHolder none (t.moved target now)

/-- Who held the task before does not matter. -/
theorem settled_withHolder (target : TaskStatus) (now : Millis) (holder : Option String)
    (t : Task) :
    (Leasable.withHolder holder t).settled target now = t.settled target now := by
  have hmoved : (Leasable.withHolder holder t).moved target now =
      Leasable.withHolder holder (t.moved target now) := moved_withHolder target now t holder
  rw [settled, hmoved]
  rfl

/-- An update of a task that sets nothing but the status is a change of the status. -/
theorem apply_status (target : TaskStatus) (now : Millis) (t : Task) :
    t.apply now { status := some target } = t.applyStatus target now := rfl

end Task

/-! ## Single changes -/

namespace Store

variable {s s' s'' : Store}

/-- The transaction that settles a job rewrites that job and nothing else, and where it fails the
job has no move to make. -/
theorem Regular.maps_changeJob (hs : s.Regular) (now : Millis) (k : String) (target : JobStatus) :
    Maps (changeAt k (Job.moved target now)) s
      ((Job.change now .root k { status := some target }).commit s).2 := by
  have hauthorize (j : Job) : Caller.authorize .root "job" j.id j.user = .ok () := rfl
  rcases commit_cases (Job.change now .root k { status := some target }) s with
    ⟨r, s', hok, hcommit⟩ | ⟨e, herror, hcommit⟩
  · rw [hcommit]
    obtain ⟨j, j', hj, -, happly, rfl, -⟩ := Job.change_eq_ok.1 hok
    rw [Job.apply_status] at happly
    have hmoved := (liftM_eq_ok.1 happly).1
    have hkey : j'.id = k := (Job.tended_applyStatus hmoved).id.trans (hs.jobs.key_eq hj)
    refine (maps_put hs.jobs hj hkey (LawfulDocument.decode_encode j')).congr_at hs.jobs
      fun i hi => ?_
    rw [hj] at hi
    cases hi
    exact (Job.moved_of_ok hmoved).symm
  · rw [hcommit]
    refine maps_changeAt_of_eq hs.jobs fun j hj => ?_
    -- a job that may be moved would have been changed
    cases hmoved : j.applyStatus target now with
    | error e => rw [Job.moved, hmoved]
    | ok j' =>
      have happly : Job.apply now { status := some target } j s = .ok (j', s) :=
        liftM_eq_ok.2 ⟨hmoved, rfl⟩
      have hok := Job.change_eq_ok.2 ⟨j, j', hj, hauthorize j, happly, rfl, rfl⟩
      rw [herror] at hok
      cases hok

/-- The transaction that settles a task rewrites that task and nothing else, and where it fails the
task has no move to make. -/
theorem Regular.maps_changeTask (hs : s.Regular) (now : Millis) (k : String) (target : TaskStatus) :
    Maps (changeAt k (Task.moved target now)) s
      ((Task.change now .root k { status := some target }).commit s).2 := by
  have hauthorize (t : Task) : Caller.authorize .root "task" t.id t.user = .ok () := rfl
  rcases commit_cases (Task.change now .root k { status := some target }) s with
    ⟨r, s', hok, hcommit⟩ | ⟨e, herror, hcommit⟩
  · rw [hcommit]
    obtain ⟨t, t', ht, -, happly, rfl, -⟩ := Task.change_eq_ok.1 hok
    rw [Task.apply_status] at happly
    have hkey : t'.id = k := (Task.tended_applyStatus happly).id.trans (hs.tasks.key_eq ht)
    have hsound :=
      Task.sound_of_qualities_eq (hs.tasks.sound ht) (Task.qualities_applyStatus happly)
    -- the task that was put is the one that was read, moved
    refine (maps_put hs.tasks ht hkey hsound).congr_at hs.tasks fun u hu => ?_
    rw [ht] at hu
    cases hu
    exact (Task.moved_of_ok happly).symm
  · rw [hcommit]
    -- a transaction that fails writes nothing, and the move is none where the change of status is
    -- refused
    refine maps_changeAt_of_eq hs.tasks fun t ht => ?_
    cases hmoved : t.applyStatus target now with
    | error e => rw [Task.moved, hmoved]
    | ok t' =>
      have happly : t.apply now { status := some target } = .ok t' := hmoved
      have hok := Task.change_eq_ok.2 ⟨t, t', ht, hauthorize t, happly, rfl, rfl⟩
      rw [herror] at hok
      cases hok

/-- In a regular store a cascade never fails. -/
theorem Regular.exists_cascade (hs : s.Regular) (status : JobStatus) (job : String) :
    ∃ n s', (status.cascade job).commit s = (.ok n, s') ∧ Maps (Task.followIf job status) s s' := by
  -- three statuses have a cascade, each with its sources and its target
  have hmove (sources : List TaskStatus) (target : TaskStatus)
      (hfollow : ∀ t, status.follow t = if t ∈ sources then target else t) :
      ∃ n s', (Task.cascade job sources target).commit s = (.ok n, s') ∧
        Maps (Task.followIf job status) s s' := by
    obtain ⟨ts, hts⟩ := hs.tasks.exists_documents
    obtain ⟨n, s', hok⟩ : ∃ n s', Task.cascade job sources target s = .ok (n, s') :=
      ⟨_, _, Task.cascade_eq_ok.2 ⟨ts, hts, rfl, rfl⟩⟩
    refine ⟨n, s', commit_eq_ok.2 hok, ?_⟩
    have hkey (t : Task) : key { t with status := target } = key t := rfl
    have hsound (t : Task) (ht : Sound t) : Sound { t with status := target } :=
      Task.sound_of_qualities_eq ht rfl
    refine (maps_of_updateAll hs.wellFormed hs.tasks hkey hsound hok).congr fun k t _ => ?_
    rw [Task.followIf, Task.follow, hfollow]
    by_cases hjob : t.job = job
    · by_cases hmem : t.status ∈ sources
      · simp [hjob, hmem]
      · rw [if_neg hmem, ite_self]
        simp [hmem]
    · simp [hjob]
  have hrest (hfollow : ∀ t, status.follow t = t) :
      ∃ n s', (pure 0 : Transaction Nat).commit s = (.ok n, s') ∧
        Maps (Task.followIf job status) s s' := by
    refine ⟨0, s, rfl, (Maps.refl hs.tasks).congr fun k t _ => ?_⟩
    rw [Task.followIf, Task.follow, hfollow, ite_self]
  cases status with
  | pausing => exact hmove _ _ fun t => by cases t <;> rfl
  | resuming => exact hmove _ _ fun t => by cases t <;> rfl
  | terminating => exact hmove _ _ fun t => by cases t <;> rfl
  | _ => exact hrest fun t => by cases t <;> rfl

/-! ## Changes of jobs and tasks -/

/-- Each job and each task was changed as a function says, and nothing else. -/
structure Rewrites (f : Job → Job) (g : Task → Task) (s s' : Store) : Prop where
  regular : s'.Regular
  jobs : ∀ k (found : Option Job), s.document? k = .ok found → s'.document? k = .ok (found.map f)
  tasks : ∀ k (found : Option Task), s.document? k = .ok found → s'.document? k = .ok (found.map g)
  table : ∀ c, c ≠ .jobs → c ≠ .tasks → s'.table c = s.table c
  claims : s'.ordinalClaims = s.ordinalClaims

variable {f f' : Job → Job} {g g' : Task → Task}

/-- A transaction that rewrites jobs leaves the tasks as they were. -/
theorem Maps.rewrites_jobs (h : Maps f s s') (hs : s.Regular) : Rewrites f (fun t => t) s s' where
  regular := h.regular hs
  jobs := h.documents
  tasks k found hfound := by
    rw [Option.map_id', document?_eq_of_table (h.table .tasks (by decide))]
    exact hfound
  table c hc _ := h.table c hc
  claims := h.claims

/-- A transaction that rewrites tasks leaves the jobs as they were. -/
theorem Maps.rewrites_tasks (h : Maps g s s') (hs : s.Regular) : Rewrites (fun j => j) g s s' where
  regular := h.regular hs
  jobs k found hfound := by
    rw [Option.map_id', document?_eq_of_table (h.table .jobs (by decide))]
    exact hfound
  tasks := h.documents
  table c _ hc := h.table c hc
  claims := h.claims

/-- No transaction rewrites nothing. -/
theorem Regular.rewrites_refl (hs : s.Regular) : Rewrites (fun j => j) (fun t => t) s s :=
  (Maps.refl hs.jobs).rewrites_jobs hs

/-- Two rewritings one after another are one, by the composed functions. -/
theorem Rewrites.trans (h : Rewrites f g s s') (h' : Rewrites f' g' s' s'') :
    Rewrites (fun j => f' (f j)) (fun t => g' (g t)) s s'' where
  regular := h'.regular
  jobs k found hfound := by
    rw [h'.jobs k _ (h.jobs k found hfound), Option.map_map]
    rfl
  tasks k found hfound := by
    rw [h'.tasks k _ (h.tasks k found hfound), Option.map_map]
    rfl
  table c hjobs htasks := (h'.table c hjobs htasks).trans (h.table c hjobs htasks)
  claims := h'.claims.trans h.claims

/-- Only the jobs and tasks that are stored count. -/
theorem Rewrites.congr (h : Rewrites f g s s')
    (hjobs : ∀ k j, s.document? k = .ok (some j) → f j = f' j)
    (htasks : ∀ k t, s.document? k = .ok (some t) → g t = g' t) : Rewrites f' g' s s' := by
  have hmap {D : Type} {e e' : D → D} {found : Option D} (heq : ∀ d ∈ found, e d = e' d) :
      found.map e = found.map e' := Option.map_congr heq
  refine ⟨h.regular, fun k found hfound => ?_, fun k found hfound => ?_, h.table, h.claims⟩
  · rw [h.jobs k found hfound, hmap fun j hj => hjobs k j (hj ▸ hfound)]
  · rw [h.tasks k found hfound, hmap fun t ht => htasks k t (ht ▸ hfound)]

/-- Two runs that make the same of jobs and tasks end in the same store. -/
theorem Rewrites.unique (hs : s.Regular) (h : Rewrites f g s s') (h' : Rewrites f g s s'') :
    s' = s'' := by
  refine ext_find? (fun c k => ?_) (h.claims.trans h'.claims.symm)
  -- what a document is read as determines its text, in a regular store
  by_cases hjobs : c = .jobs
  · subst hjobs
    obtain ⟨found, hfound⟩ := hs.jobs.exists_document? k
    have hafter := h.regular.jobs.find?_eq (h.jobs k found hfound)
    have hafter' := h'.regular.jobs.find?_eq (h'.jobs k found hfound)
    exact hafter.trans hafter'.symm
  · by_cases htasks : c = .tasks
    · subst htasks
      obtain ⟨found, hfound⟩ := hs.tasks.exists_document? k
      have hafter := h.regular.tasks.find?_eq (h.tasks k found hfound)
      have hafter' := h'.regular.tasks.find?_eq (h'.tasks k found hfound)
      exact hafter.trans hafter'.symm
    · rw [h.table c hjobs htasks, h'.table c hjobs htasks]

end Store

/-! ## Settlements -/

namespace JobSettlement

variable {s : Store}

/-- Where a settlement stands behind a transaction. -/
def Phase.next : Phase → Phase
  | .cascading target => .changing target
  | .changing _ => .releasing
  | .releasing => .finished
  | .finished => .finished

/-- What the next transaction makes of a job. -/
def onJob (x : JobSettlement) (now : Millis) : Phase → Job → Job
  | .changing target => changeAt x.job (Job.moved target now)
  | .releasing => changeAt x.job (unhold x.process)
  | _ => fun j => j

/-- What the next transaction makes of a task. -/
def onTask (x : JobSettlement) : Phase → Task → Task
  | .cascading _ => Task.followIf x.job x.status
  | _ => fun t => t

/-- No transaction of a settlement changes the id of a job. -/
theorem id_onJob (x : JobSettlement) (now : Millis) (phase : Phase) (j : Job) :
    (x.onJob now phase j).id = j.id := by
  cases phase with
  | changing target => exact key_changeAt (fun i => (Job.tended_moved target now i).id) j
  | releasing => exact key_changeAt (key_unhold x.process) j
  | _ => rfl

/-- No transaction of a settlement moves a task to another job. -/
theorem job_onTask (x : JobSettlement) (phase : Phase) (t : Task) :
    (x.onTask phase t).job = t.job := by
  cases phase with
  | cascading target =>
    rw [onTask, Task.followIf]
    split <;> rfl
  | _ => rfl

/-- Other jobs are left alone. -/
theorem onJob_of_ne {x : JobSettlement} {j : Job} (h : j.id ≠ x.job) (now : Millis)
    (phase : Phase) :
    x.onJob now phase j = j := by
  cases phase with
  | changing target => exact changeAt_of_ne h
  | releasing => exact changeAt_of_ne h
  | _ => rfl

/-- The tasks of other jobs are left alone. -/
theorem onTask_of_ne {x : JobSettlement} {t : Task} (h : t.job ≠ x.job) (phase : Phase) :
    x.onTask phase t = t := by
  cases phase with
  | cascading target => exact if_neg h
  | _ => rfl

/-- A settlement of a transitional job starts with the cascade. -/
theorem start_eq_cascading {x : JobSettlement} {target : JobStatus}
    (h : x.status.settled? = some target) : x.start = .cascading target := by
  rw [start, h]

/-- One transaction of a settlement. -/
theorem rewrites_step (hs : s.Regular) (x : JobSettlement) (now : Millis) (phase : Phase) :
    (x.step now s phase).1 = phase.next ∧
      Rewrites (x.onJob now phase) (x.onTask phase) s (x.step now s phase).2 := by
  cases phase with
  | cascading target =>
    obtain ⟨n, s', hcascade, hmaps⟩ := hs.exists_cascade x.status x.job
    rw [step, hcascade]
    exact ⟨rfl, hmaps.rewrites_tasks hs⟩
  | changing target => exact ⟨rfl, (hs.maps_changeJob now x.job target).rewrites_jobs hs⟩
  | releasing => exact ⟨rfl, (hs.maps_release x.job x.process).rewrites_jobs hs⟩
  | finished => exact ⟨rfl, hs.rewrites_refl⟩

/-- In a regular store the phases follow each other. -/
theorem advance_succ (hs : s.Regular) (x : JobSettlement) (now : Millis) (count : Nat)
    (phase : Phase) :
    x.advance now (count + 1) (phase, s) =
      x.advance now count (phase.next, (x.step now s phase).2) := by
  rw [advance, ← (rewrites_step hs x now phase).1]

end JobSettlement

namespace TaskSettlement

variable {s : Store}

/-- Where a settlement stands behind a transaction. -/
def Phase.next : Phase → Phase
  | .changing _ => .releasing
  | .releasing => .finished
  | .finished => .finished

/-- What the next transaction makes of a task. -/
def onTask (x : TaskSettlement) (now : Millis) : Phase → Task → Task
  | .changing target => changeAt x.task (Task.moved target now)
  | .releasing => changeAt x.task (unhold x.process)
  | .finished => fun t => t

/-- No transaction of a settlement changes the id of a task. -/
theorem id_onTask (x : TaskSettlement) (now : Millis) (phase : Phase) (t : Task) :
    (x.onTask now phase t).id = t.id := by
  cases phase with
  | changing target => exact key_changeAt (fun u => (Task.tended_moved target now u).id) t
  | releasing => exact key_changeAt (key_unhold x.process) t
  | finished => rfl

/-- Other tasks are left alone. -/
theorem onTask_of_ne {x : TaskSettlement} {t : Task} (h : t.id ≠ x.task) (now : Millis)
    (phase : Phase) : x.onTask now phase t = t := by
  cases phase with
  | changing target => exact changeAt_of_ne h
  | releasing => exact changeAt_of_ne h
  | finished => rfl

/-- A settlement of a transitional task starts with the change of its status. -/
theorem start_eq_changing {x : TaskSettlement} {target : TaskStatus}
    (h : x.status.settled? = some target) : x.start = .changing target := by
  rw [start, h]

/-- One transaction of a settlement. -/
theorem maps_step (hs : s.Regular) (x : TaskSettlement) (now : Millis) (phase : Phase) :
    (x.step now s phase).1 = phase.next ∧ Maps (x.onTask now phase) s (x.step now s phase).2 := by
  cases phase with
  | changing target => exact ⟨rfl, hs.maps_changeTask now x.task target⟩
  | releasing => exact ⟨rfl, hs.maps_release x.task x.process⟩
  | finished => exact ⟨rfl, Maps.refl hs.tasks⟩

end TaskSettlement

/-! ## What a settlement makes of the table of tasks

This is all that can be said where documents do not lie under their own keys. -/

/-- The cascade of a job that pauses writes its scheduled and running tasks back, in the order in
which they are read. Each goes where its id says, whichever place it was read from. -/
theorem Task.cascade_pausing {s : Store} {ts : List Task} (hts : s.documents Task = .ok ts)
    (job : String) : ((JobStatus.pausing.cascade job).commit s).2 =
      s.putAll ((ts.filter fun t => t.job == job && [.scheduled, .running].contains t.status).map
        fun t => { t with status := .pausing }) := by
  have hok : Task.pauseAll job s = .ok (_, _) := Task.cascade_eq_ok.2 ⟨ts, hts, rfl, rfl⟩
  show ((Task.pauseAll job).commit s).2 = _
  rw [commit_eq_ok.2 hok]

/-- A cascade is over tasks only. -/
theorem JobStatus.jobs_of_cascade {status : JobStatus} {job : String} {n : Nat} {s s' : Store}
    (h : status.cascade job s = .ok (n, s')) : s'.table .jobs = s.table .jobs := by
  have hmoved {sources : List TaskStatus} {target : TaskStatus}
      (hcascade : Task.cascade job sources target s = .ok (n, s')) :
      s'.table .jobs = s.table .jobs := by
    obtain ⟨ts, -, -, rfl⟩ := Task.cascade_eq_ok.1 hcascade
    exact table_putAll_of_ne s _ (by decide)
  cases status with
  | pausing | resuming | terminating => exact hmoved h
  | _ =>
    obtain ⟨-, rfl⟩ := pure_eq_ok.1 h
    rfl

namespace JobSettlement

/-- Only the cascade of a settlement writes tasks, and it comes first. -/
theorem tasks_step {phase : Phase} (h : ∀ target, phase ≠ .cascading target) (x : JobSettlement)
    (now : Millis) (s : Store) : (∀ target, (x.step now s phase).1 ≠ .cascading target) ∧
      (x.step now s phase).2.table .tasks = s.table .tasks := by
  cases phase with
  | cascading target => exact absurd rfl (h target)
  | changing target =>
    refine ⟨nofun, ?_⟩
    -- the change of the job's status puts the job, and no task
    show ((Job.change now .root x.job { status := some target }).commit s).2.table .tasks = _
    rcases Transaction.commit_cases (Job.change now .root x.job { status := some target }) s with
      ⟨r, s', hok, hcommit⟩ | ⟨e, -, hcommit⟩
    · obtain ⟨j, j', -, -, -, rfl, -⟩ := Job.change_eq_ok.1 hok
      rw [hcommit]
      exact table_put_of_ne s j' (by decide)
    · rw [hcommit]
  | releasing =>
    refine ⟨nofun, ?_⟩
    -- so does giving the lease back
    show ((Transaction.release Job x.job x.process).commit s).2.table .tasks = _
    rcases Transaction.commit_cases (Transaction.release Job x.job x.process) s with
      ⟨r, s', hok, hcommit⟩ | ⟨e, -, hcommit⟩
    · obtain ⟨j, -, -, rfl⟩ := Transaction.release_eq_ok.1 hok
      rw [hcommit]
      exact table_put_of_ne s (Leasable.withHolder none j) (by decide)
    · rw [hcommit]
  | finished => exact ⟨nofun, rfl⟩

/-- Behind the cascade no number of transactions writes tasks. -/
theorem tasks_advance {phase : Phase} (h : ∀ target, phase ≠ .cascading target) (x : JobSettlement)
    (now : Millis) (count : Nat) (s : Store) :
    (x.advance now count (phase, s)).2.table .tasks = s.table .tasks := by
  induction count generalizing phase s with
  | zero => rfl
  | succ count ih =>
    obtain ⟨hphase, hstep⟩ := tasks_step h x now s
    exact (ih hphase _).trans hstep

/-- Whether the cascade goes through or fails, it is the only thing that the first transaction does. -/
theorem step_cascading (x : JobSettlement) (now : Millis) (target : JobStatus) (s : Store) :
    (∀ i, (x.step now s (.cascading target)).1 ≠ .cascading i) ∧
      (x.step now s (.cascading target)).2 = ((x.status.cascade x.job).commit s).2 := by
  rw [step]
  split
  case h_1 hcommit =>
    rw [hcommit]
    exact ⟨nofun, rfl⟩
  case h_2 hcommit =>
    rw [hcommit]
    exact ⟨nofun, rfl⟩

section

variable {process job : String} {status target : JobStatus}

/-- A settlement leaves the tasks as its cascade does. -/
theorem tasks_settle (h : status.settled? = some target) (now : Millis) (s : Store) :
    (settle now ⟨process, job, status⟩ s).table .tasks =
      ((status.cascade job).commit s).2.table .tasks := by
  obtain ⟨hphase, hstore⟩ := step_cascading ⟨process, job, status⟩ now target s
  rw [settle, start_eq_cascading h, ← hstore]
  exact tasks_advance hphase _ now 2 _

end

end JobSettlement

/-! ## A job and its task -/

namespace Store

/-- A store with one job and one task. -/
def ofPair (j : Job) (t : Task) : Store := (Store.empty.put j).put t

variable {j : Job} {t : Task}

/-- A store with one job and one task is regular where the task can be read back. -/
theorem regular_ofPair (ht : Sound t) : (ofPair j t).Regular := by
  have hj : Sound j := LawfulDocument.decode_encode j
  exact (regular_empty.put hj).put ht

/-- The job of the pair is in the store. -/
theorem has_ofPair (j : Job) (t : Task) : (ofPair j t).Has j := by
  rw [ofPair, has_put_of_collection_ne _ (by decide)]
  exact has_put_self _ _

/-- There is no other job in it. -/
theorem id_eq_of_has_ofPair {i : Job} (h : (ofPair j t).Has i) : i.id = j.id := by
  rw [ofPair, has_put_of_collection_ne _ (by decide), has_put_iff] at h
  rcases h with rfl | ⟨-, h⟩
  · rfl
  · cases h

/-- There is no other task in it. -/
theorem eq_id_of_document?_ofPair {k : String} {u : Task}
    (h : (ofPair j t).document? k = .ok (some u)) : k = t.id := by
  obtain ⟨text, hfind, -⟩ := document?_eq_ok_some.1 h
  rw [ofPair, find?_put] at hfind
  split at hfind
  case isTrue hplace => exact hplace.2.symm
  case isFalse => cases hfind

end Store

end Fleet
