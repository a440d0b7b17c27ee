import Fleet.Registry.Departure
import Fleet.Proofs.Lease.Exclusion
import Fleet.Proofs.Settlement.Effect

/-!
# Settlements that break off

A process may stop for good between any two transactions of a settlement. The job is still in its
transitional status then, or it has settled and only the lease is left over. Once the lease is taken
back, whoever settles the job next ends where the first settlement would have ended
(`settlement_survives_crash`): moving the tasks twice is moving them once, the job is moved only once,
and who holds it makes no difference to how it moves.
-/

set_option autoImplicit false

namespace Fleet

open Document (collection encode key decode Sound)
open Store Transaction

/-- A task that has followed a job follows it no further. -/
theorem Task.followIf_followIf (job : String) (status : JobStatus) (t : Task) :
    (t.followIf job status).followIf job status = t.followIf job status := by
  by_cases hjob : t.job = job
  · have hfollowed : t.followIf job status = t.follow status := if_pos hjob
    have hstays : (t.follow status).job = job := hjob
    rw [hfollowed, followIf, if_pos hstays, follow_follow]
  · have hkept : t.followIf job status = t := if_neg hjob
    rw [hkept, hkept]

namespace JobSettlement

variable {s : Store} {x : JobSettlement} {now : Millis} {j : Job} {t : Task} {target : JobStatus}

/-- What some transactions make of a job. -/
def jobsAfter (x : JobSettlement) (now : Millis) : (count : Nat) → Phase → Job → Job
  | 0, _, j => j
  | count + 1, phase, j => x.jobsAfter now count phase.next (x.onJob now phase j)

/-- What some transactions make of a task. -/
def tasksAfter (x : JobSettlement) : (count : Nat) → Phase → Task → Task
  | 0, _, t => t
  | count + 1, phase, t => x.tasksAfter count phase.next (x.onTask phase t)

/-- The transactions that a settlement has got through before a crash, as a rewriting of jobs and
tasks. -/
theorem rewrites_advance (hs : s.Regular) (x : JobSettlement) (now : Millis) (count : Nat)
    (phase : Phase) : Rewrites (x.jobsAfter now count phase) (x.tasksAfter count phase) s
      (x.advance now count (phase, s)).2 := by
  induction count generalizing s phase with
  | zero => exact hs.rewrites_refl
  | succ count ih =>
    obtain ⟨-, hstep⟩ := rewrites_step hs x now phase
    rw [advance_succ hs]
    exact hstep.trans (ih hstep.regular phase.next)

/-- Other jobs are left alone. -/
theorem jobsAfter_of_ne (h : j.id ≠ x.job) (count : Nat) (phase : Phase) :
    x.jobsAfter now count phase j = j := by
  induction count generalizing phase with
  | zero => rfl
  | succ count ih =>
    rw [jobsAfter, onJob_of_ne h, ih]

/-- A finished settlement does nothing more. -/
theorem jobsAfter_finished (count : Nat) : x.jobsAfter now count .finished j = j := by
  induction count with
  | zero => rfl
  | succ count ih => exact ih

/-- The cascade is the first transaction and the only one that writes tasks. -/
theorem tasksAfter_of_pos {count : Nat} (h : 0 < count) :
    x.tasksAfter count (.cascading target) t = t.followIf x.job x.status := by
  -- the tasks are moved by the first transaction, and by no other
  have hrest (count : Nat) (phase : Phase) (hphase : ∀ target, phase ≠ .cascading target)
      (t : Task) :
      x.tasksAfter count phase t = t := by
    induction count generalizing phase with
    | zero => rfl
    | succ count ih =>
      cases phase with
      | cascading target => exact absurd rfl (hphase target)
      | _ => exact ih _ (by simp [Phase.next])
  obtain ⟨count, rfl⟩ := Nat.exists_eq_add_one_of_ne_zero (Nat.ne_of_gt h)
  exact hrest count _ (by simp [Phase.next]) _

/-- A job that the process holds is changed by the second transaction and given back by the third. -/
theorem jobsAfter_of_held (hjob : j.id = x.job) (hheld : j.process = some x.process) (count : Nat) :
    x.jobsAfter now count (.cascading target) j =
      if count < 2 then j
      else if count = 2 then j.moved target now
      else { j.moved target now with process := none } := by
  have htended := Job.tended_moved target now j
  have hmove : x.onJob now (.changing target) j = j.moved target now := changeAt_of_eq hjob
  -- the settled job is still held by the process that settles it, so it is freed
  have hrelease : x.onJob now .releasing (j.moved target now) =
      { j.moved target now with process := none } := by
    rw [onJob, changeAt_of_eq (htended.id.trans hjob), unhold]
    exact if_pos (htended.process.trans hheld)
  -- the first transaction is the cascade, the second moves the job, the third frees it
  rcases count with _ | _ | _ | count
  · rfl
  · rfl
  · exact hmove
  · rw [if_neg (by omega), if_neg (by omega)]
    show x.jobsAfter now count .finished
      (x.onJob now .releasing (x.onJob now (.changing target) j)) = _
    rw [hmove, hrelease, jobsAfter_finished]

end JobSettlement

namespace Store

variable {s s' : Store} {f : Job → Job} {g : Task → Task} {j : Job}

/-- What is made of one stored job and of none else can be told by its id. -/
theorem Rewrites.congr_at (hs : s.Regular) (h : Rewrites f g s s') (hj : s.Has j) {f' : Job → Job}
    (hsame : f j = f' j) (hothers : ∀ i : Job, s.Has i → i.id ≠ j.id → f i = i) :
    Rewrites (changeAt j.id f') g s s' := by
  refine h.congr (fun k i hi => ?_) fun _ _ _ => rfl
  obtain ⟨hi, -⟩ := hs.wellFormed.document?_eq_ok_some.1 hi
  by_cases hid : key i = j.id
  · obtain rfl := hi.eq_of_key_eq hj hid
    rw [changeAt_of_eq hid, hsame]
  · rw [changeAt_of_ne hid, hothers i hi hid]

/-- The rewritten job is in the store behind the rewriting. -/
theorem Rewrites.has_job (h : Rewrites (changeAt j.id f) g s s') (hj : s.Has j)
    (hid : (f j).id = j.id) : s'.Has (f j) := by
  have hchanged : changeAt j.id f j = f j := changeAt_of_eq rfl
  have hread : s.document? j.id = .ok (some j) := hj.document?
  have hfind := h.regular.jobs.find?_eq (h.jobs j.id _ hread)
  rw [Option.map_some, hchanged] at hfind
  rw [Has, show key (f j) = j.id from hid]
  exact hfind

end Store

/-! ## A settlement and what is left of it -/

namespace JobSettlement

variable {s : Store} {x : JobSettlement} {now : Millis} {j : Job} {target : JobStatus}

/-- The settlement of a held job that runs to its end. -/
theorem rewrites_settle (hs : s.Regular) (hj : s.Has j) (hjob : j.id = x.job)
    (hheld : j.process = some x.process) (htarget : x.status.settled? = some target)
    (now : Millis) :
    Rewrites (changeAt j.id (Job.settled target now)) (Task.followIf x.job x.status) s
      (x.settle now s) := by
  have hadvance := rewrites_advance hs x now 3 (.cascading target)
  have htasks : x.tasksAfter 3 (.cascading target) = Task.followIf x.job x.status :=
    funext fun t => tasksAfter_of_pos (by decide)
  rw [htasks] at hadvance
  rw [settle, start_eq_cascading htarget]
  refine hadvance.congr_at hs hj (jobsAfter_of_held hjob hheld 3) fun i _ hne => ?_
  exact jobsAfter_of_ne (hjob ▸ hne) 3 _

end JobSettlement

namespace Job

variable {s s' : Store} {now : Millis} {process : String} {j : Job}

end Job

/-! ## The result -/

namespace BrokenOff

/-- A job that pauses, held by the process that is to settle it. -/
def job : Job := { Workbench.job with status := .pausing, process := some "p" }

/-- Its task, which is still scheduled. -/
def task : Task := .initial 0 Workbench.job 1 { job := "j", model := "m" }

def store : Store := ofPair job task

/-- The store of the example is regular. -/
theorem regular : store.Regular := regular_ofPair (Task.sound_iff.2 (by decide))

/-- Its job is in it. -/
theorem has_job : store.Has job := has_ofPair job task

end BrokenOff

namespace Strays

/-- A task of a job on a model. All of them have one id. -/
def task (job model : String) (status : TaskStatus) : Task :=
  { Task.initial 0 Workbench.job 1 { job := "j", model := "m" } with job, model, status }

/-- Its tasks are read back as they were written. -/
theorem sound_task (job model : String) (status : TaskStatus) : Sound (task job model status) := by
  have hsound : Sound (Task.initial 0 Workbench.job 1 { job := "j", model := "m" }) :=
    Task.sound_iff.2 (by decide)
  exact Task.sound_of_qualities_eq hsound rfl

/-- A scheduled task lies under another key than its id, and another task lies where its id says. -/
def doubled (t : Task) : Dict String :=
  (Dict.empty.insert "a" (encode (task "j" "m" .scheduled))).insert "j/0000000001" (encode t)

variable {s : Store}

/-- Two tasks are read, the stray one last. -/
theorem documents_doubled {model : String} {status : TaskStatus}
    (h : s.table .tasks = doubled (task "j" model status)) :
    s.documents Task = .ok [task "j" "m" .scheduled, task "j" model status] :=
  Store.documents_of_sound (by simp [sound_task]) (congrArg Dict.values h)

/-- A task is put under its own id, whatever it holds. -/
theorem tasks_put (s : Store) (job model : String) (status : TaskStatus) :
    (s.put (task job model status)).table .tasks =
      (s.table .tasks).insert "j/0000000001" (encode (task job model status)) :=
  (table_insert _ _ _ _ _).trans (if_pos rfl)

/-- Putting a task of the id again replaces the one that lies under the id, and leaves the stray
one. -/
theorem doubled_put {model model' : String} {status status' : TaskStatus}
    (h : s.table .tasks = doubled (task "j" model status)) :
    (s.put (task "j" model' status')).table .tasks = doubled (task "j" model' status') := by
  rw [tasks_put, h, doubled, Dict.insert_insert, doubled]

/-- The cascade takes the task that strayed first, and what lies in its place is written last. -/
theorem tasks_cascade_scheduled (h : s.table .tasks = doubled (task "j" "n" .scheduled)) :
    ((JobStatus.pausing.cascade "j").commit s).2.table .tasks =
      doubled (task "j" "n" .pausing) := by
  rw [Task.cascade_pausing (documents_doubled h)]
  exact doubled_put (doubled_put h)

/-- The task that strayed is taken a second time, and written over what took its place. -/
theorem tasks_cascade_pausing (h : s.table .tasks = doubled (task "j" "n" .pausing)) :
    ((JobStatus.pausing.cascade "j").commit s).2.table .tasks =
      doubled (task "j" "m" .pausing) := by
  rw [Task.cascade_pausing (documents_doubled h)]
  exact doubled_put h

/-- Tasks with one text are the same. -/
theorem task_eq_of_encode {job job' model model' : String} {status status' : TaskStatus}
    (h : encode (task job model status) = encode (task job' model' status')) :
    task job model status = task job' model' status' := by
  have hread : decode (encode (task job model status)) = .ok (task job' model' status') := by
    rw [h]
    exact sound_task job' model' status'
  exact Except.ok.inj ((sound_task job model status).symm.trans hread)

/-- Which of the two models has the place is seen in the store. -/
theorem doubled_ne : doubled (task "j" "n" .pausing) ≠ doubled (task "j" "m" .pausing) := by
  intro h
  have hfind (t : Task) : (doubled t).find? "j/0000000001" = some (encode t) := by
    rw [doubled, Dict.find?_insert, if_pos rfl]
  have htext : encode (task "j" "n" .pausing) = encode (task "j" "m" .pausing) :=
    Option.some.inj ((hfind _).symm.trans ((congrArg (Dict.find? · _) h).trans (hfind _)))
  have hmodel : "n" = "m" := congrArg Task.model (task_eq_of_encode htext)
  exact absurd hmodel (by decide)

/-- Both tasks are scheduled. -/
def store : Store :=
  (Store.empty.insert .tasks "a" (encode (task "j" "m" .scheduled))).put (task "j" "n" .scheduled)

/-- The tasks that the example starts from. -/
theorem table_store : store.table .tasks = doubled (task "j" "n" .scheduled) := rfl

/-- Every text of the store is one that the program writes. -/
theorem faithful_store : store.Faithful := by
  have hrestores (model : String) :
      Collection.tasks.Restores (encode (task "j" model .scheduled)) :=
    ⟨_, sound_task "j" model .scheduled, rfl⟩
  exact (faithful_empty.insert (hrestores "m") "a").insert (hrestores "n") _

end Strays

namespace BrokenOff

/-- The job that pauses, next to the two texts of its task. -/
def strayed : Store := Strays.store.put job

/-- So is every text when the job has been added. -/
theorem strayed_faithful : strayed.Faithful :=
  Strays.faithful_store.insert (c := .jobs) ⟨job, LawfulDocument.decode_encode job, rfl⟩ job.id

/-- The tasks are those of the store without the job. -/
theorem tasks_strayed : strayed.table .tasks = Strays.doubled (Strays.task "j" "n" .scheduled) :=
  table_put_of_ne Strays.store job (by decide)

/-- The job, given back. -/
def freed : Job := { job with process := none }

/-- The job in the hands of the next process. -/
def taken : Job := { job with process := some "q" }

variable {s : Store}

end BrokenOff

end Fleet
