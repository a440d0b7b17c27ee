import Fleet.Proofs.Settlement.Crash

/-!
# Settlements that are given up

A maintainer acts on the job as it leased it. The owner may have moved the job on meanwhile, and
then the job may no longer go where the settlement would take it, so the settlement is given up. The
tasks have moved by then: the cascade is a transaction of its own before the one that asks for the
status of the job. What is left behind is known exactly (`settlement_given_up`): the job is free and
otherwise as its owner left it, its tasks have followed the status that it was leased in, and
nothing else has changed. So no task has moved only if none was there to move.
-/

set_option autoImplicit false

namespace Fleet

open Document (encode)
open Store Transaction

/-! ## An owner who moves a job -/

/-- The access moves a job to a status for a caller, who may do so. -/
def Access.MovesJob (id : String) (s : Store) (now : Millis) (a : Access) : Prop :=
  ∃ caller target r, a = .updateJob caller id { status := some target } ∧ a.answer now s = .ok r

namespace Store

variable {s t : Store} {now : Millis} {a : Access} {id : String}

/-- Whoever moves a job, it goes where the system would move it. -/
theorem Regular.maps_movesJob (hs : s.Regular) (h : a.MovesJob id s now) :
    ∃ target, Maps (changeAt id (Job.moved target now)) s (a.after now s) := by
  obtain ⟨caller, target, r, rfl, hanswer⟩ := h
  refine ⟨target, ?_⟩
  rcases Access.after_cases now (.updateJob caller id { status := some target }) s with
    ⟨_, hok, -⟩ | ⟨-, e, herror⟩
  · obtain ⟨_, hchange, -⟩ := map_eq_ok.1 hok
    obtain ⟨j, j', hj, -, happly, hafter, -⟩ := Job.change_eq_ok.1 hchange
    -- who asks for the change does not matter to what it does
    have hroot := Job.change_eq_ok.2 ⟨j, j', hj, (rfl : Caller.authorize .root _ _ _ = _), happly,
      hafter, rfl⟩
    have hmaps := hs.maps_changeJob now id target
    rw [commit_eq_ok.2 hroot] at hmaps
    exact hmaps
  · rw [hanswer] at herror
    cases herror

/-- What holds of a job that is moved holds of it through a walk. -/
theorem Regular.has_of_moves {P : Job → Prop}
    (hP : ∀ target now j, P j → P (j.moved target now)) (hs : s.Regular) {j : Job} (hj : s.Has j)
    (hid : j.id = id) (h : P j) (hwalk : s.Leads (Access.MovesJob id) t) :
    t.Regular ∧ ∃ j : Job, t.Has j ∧ j.id = id ∧ P j := by
  refine hwalk.induction (P := fun u => u.Regular ∧ ∃ j : Job, u.Has j ∧ j.id = id ∧ P j)
    ⟨hs, j, hj, hid, h⟩ ?_
  rintro u now a ⟨hu, i, hi, rfl, hPi⟩ hmoves
  obtain ⟨target, hmaps⟩ := hu.maps_movesJob hmoves
  have hmoved : (i.moved target now).id = i.id := (Job.tended_moved target now i).id
  refine ⟨hmaps.regular hu, i.moved target now, ?_, hmoved, hP target now i hPi⟩
  exact (hmaps.rewrites_jobs hu).has_job hi hmoved

end Store

/-! ## What is leased -/

/-- A maintainer leases a free job in the status that it looks for, and nothing but the holder of
this job changes. -/
theorem Store.Regular.leased_of_lease {s s' : Store} (hs : s.Regular) {now : Millis} {p : String}
    {status : JobStatus} {x : JobSettlement}
    (h : leaseJobForSettlement now p status s = (some x, s')) :
    ∃ j : Job, s.Has j ∧ j.status = status ∧ x = ⟨p, j.id, status⟩ ∧
      Rewrites (changeAt j.id (Leasable.withHolder (some p))) (fun t => t) s s' := by
  obtain ⟨r, s₁, hok, hcases⟩ := hs.exists_lease now (Job.passes [.status status])
    (some JobSort.creationTime) .ascending p
  rw [leaseJobForSettlement, Job.leaseFirst, commit_eq_ok.2 hok] at h
  rcases hcases with ⟨rfl, -, -⟩ | ⟨j, hj, -, htest, rfl, hmaps⟩
  · cases h
  · obtain ⟨hx, rfl⟩ := Prod.mk.inj h
    obtain ⟨hhas, -⟩ := hs.wellFormed.document?_eq_ok_some.1 hj
    -- what is leased passes the filter for the status
    have hstatus : j.status = status := by simpa [Job.passes, JobFilter.holds] using htest
    refine ⟨j, hhas, hstatus, ?_, hmaps.rewrites_jobs hs⟩
    rw [← hstatus]
    exact (Option.some.inj hx).symm

/-! ## Giving up -/

namespace Job

variable {target : JobStatus} {now : Millis} {j : Job}

/-- A job that may go to a status gets there. -/
theorem applyStatus_of_canBecome (h : j.status.canBecome target = true) (now : Millis) :
    j.applyStatus target now = .ok (j.moved target now) ∧ (j.moved target now).status = target := by
  rw [moved, applyStatus]
  by_cases hsame : j.status = target
  · rw [if_pos hsame]
    exact ⟨rfl, hsame⟩
  · rw [if_neg hsame, if_pos h]
    exact ⟨rfl, rfl⟩

/-- A change that is not allowed is refused. -/
theorem applyStatus_of_refused (h : j.status.canBecome target = false) :
    j.applyStatus target now = .error (j.cannotBecome target) := by
  have hne : j.status ≠ target := by
    rintro rfl
    simp [JobStatus.canBecome] at h
  rw [applyStatus, if_neg hne, h]
  rfl

/-- A job that may not go where it would settle is given back as it is. -/
theorem settled_of_refused (h : j.status.canBecome target = false) :
    j.settled target now = Leasable.withHolder none j := by
  rw [settled, moved, applyStatus_of_refused h]

end Job

/-- Who is refused a status leaves the store as it is. -/
theorem Store.Has.changeJob_of_refused {s : Store} {j : Job} (hj : s.Has j) {target : JobStatus}
    (h : j.status.canBecome target = false) (now : Millis) :
    (Job.change now .root j.id { status := some target }).commit s =
      (.error (j.cannotBecome target), s) := by
  have happly : Job.apply now { status := some target } j s = .error (j.cannotBecome target) := by
    rw [Job.apply_status, Job.applyStatus_of_refused h]
    rfl
  have hread : require (D := Job) j.id s = .ok (j, s) := require_eq_ok.2 ⟨hj.document?, rfl⟩
  have hchange : Job.change now .root j.id { status := some target } s =
      .error (j.cannotBecome target) := by
    refine bind_eq_error.2 (.inr ⟨j, s, hread, bind_eq_error.2 (.inl ?_)⟩)
    exact bind_eq_error.2 (.inr ⟨(), s, liftM_eq_ok.2 ⟨rfl, rfl⟩, happly⟩)
  rw [commit, hchange]

namespace Store

variable {s t : Store} {f : Job → Job} {g : Task → Task}

/-- A rewriting leaves the tasks exactly if it is none on each of them. -/
theorem Rewrites.tasks_eq_iff (hs : s.Regular) (h : Rewrites f g s t) :
    t.tasks = s.tasks ↔ ∀ k (u : Task), s.document? k = .ok (some u) → g u = u := by
  constructor
  · intro htasks k u hu
    have htable : t.table (Document.collection Task) = s.table (Document.collection Task) := htasks
    have hafter := h.tasks k _ hu
    rw [document?_eq_of_table htable, hu] at hafter
    exact (Option.some.inj (Except.ok.inj hafter)).symm
  · intro hg
    -- the texts are determined by what is read of them
    refine Dict.ext_find? fun k => ?_
    obtain ⟨found, hfound⟩ := hs.tasks.exists_document? k
    have hsame : found.map g = found := by
      cases found with
      | none => rfl
      | some u => rw [Option.map_some, hg k u hfound]
    have hafter := h.regular.tasks.find?_eq (h.tasks k found hfound)
    rw [hsame] at hafter
    exact hafter.trans (hs.tasks.find?_eq hfound).symm

end Store

/-- A task stays if it is another job's, or has nothing to follow. -/
theorem Task.followIf_eq_self_iff {job : String} {status : JobStatus} {t : Task} :
    t.followIf job status = t ↔ (t.job = job → status.follow t.status = t.status) := by
  by_cases hjob : t.job = job
  · have hfollowed : t.followIf job status = t.follow status := if_pos hjob
    rw [hfollowed]
    constructor
    · intro h _
      exact congrArg Task.status h
    · intro h
      rw [Task.follow, h hjob]
  · have hkept : t.followIf job status = t := if_neg hjob
    rw [hkept]
    exact ⟨fun _ h => absurd h hjob, fun _ => rfl⟩

/-! ## The result -/

/-- **A settlement that is given up has moved the tasks.** In a faithful store with every document
at home, let a maintainer lease a job in a status that it settles, let the owner move the job on, by
any changes of status that are granted, and let the job be where it may no longer go to the status
that it would settle in. The settlement is given up then: its change of status is refused. The job
is free behind it and otherwise as its owner left it, its tasks have followed the status in which it
was leased, and nothing else has changed. The tasks are as they were exactly if none of them was in
a status that the cascade moves. A job that was leased while it paused and runs again is left
running with its tasks on their way to a pause. -/
theorem settlement_given_up {s leased t : Store} (hs : s.Faithful) (hhome : s.Homed)
    {status target : JobStatus} (htarget : status.settled? = some target) {now : Millis}
    {p : String} {x : JobSettlement}
    (hlease : leaseJobForSettlement now p status s = (some x, leased))
    (hwalk : leased.Leads (Access.MovesJob x.job) t) {j : Job} (hj : t.Has j) (hid : j.id = x.job)
    (hrefused : j.status.canBecome target = false) (later : Millis) :
    let cascaded := ((status.cascade j.id).commit t).2
    let settled := x.settle later t
    (Job.change later .root j.id { status := some target }).commit cascaded =
        (.error (j.cannotBecome target), cascaded) ∧
      settled.Has { j with process := none } ∧
      Rewrites (changeAt j.id (Leasable.withHolder none)) (Task.followIf j.id status) t settled ∧
      (settled.tasks = t.tasks ↔ ∀ k (u : Task), t.document? k = .ok (some u) → u.job = j.id →
        status.follow u.status = u.status) ∧
      (status = .pausing → j.status = .running → ∀ k (u : Task), t.document? k = .ok (some u) →
        u.job = j.id → u.status = .scheduled ∨ u.status = .running →
        settled.document? k = .ok (some { u with status := .pausing })) := by
  intro cascaded settled
  replace hs := hs.regular hhome
  obtain ⟨i, hi, -, rfl, hleased⟩ := hs.leased_of_lease hlease
  -- nothing that moves a job takes it from its holder
  have hkeeps (target : JobStatus) (now : Millis) (i : Job) (h : i.process = some p) :
      (i.moved target now).process = some p := (Job.tended_moved target now i).process.trans h
  obtain ⟨ht, j', hj', hj'id, hheld⟩ :=
    hleased.regular.has_of_moves hkeeps (hleased.has_job hi rfl) rfl rfl hwalk
  obtain rfl : j = j' := hj.eq_of_key_eq hj' (hid.trans hj'id.symm)
  have hsettle := JobSettlement.rewrites_settle ht hj hid hheld htarget later
  have hfree : j.settled target later = Leasable.withHolder none j :=
    Job.settled_of_refused hrefused
  have hrewrites : Rewrites (changeAt j.id (Leasable.withHolder none)) (Task.followIf j.id status) t
      settled := by
    rw [← hid] at hsettle
    refine hsettle.congr_at ht hj ?_ fun i _ hne => changeAt_of_ne hne
    exact (changeAt_of_eq rfl).trans hfree
  refine ⟨?_, hrewrites.has_job hj rfl, hrewrites, ?_, ?_⟩
  · -- the cascade leaves the job alone, so the change meets the job that the owner left
    obtain ⟨n, s', hcascade, hmaps⟩ := ht.exists_cascade status j.id
    have hcascaded : cascaded = s' := by
      show ((status.cascade j.id).commit t).2 = s'
      rw [hcascade]
    have hjobs : s'.table .jobs = t.table .jobs := hmaps.table .jobs (by decide)
    have hstays : cascaded.Has j := by
      show (cascaded.table .jobs).find? j.id = some (encode j)
      rw [hcascaded, hjobs]
      exact hj
    exact hstays.changeJob_of_refused hrefused later
  · rw [hrewrites.tasks_eq_iff ht]
    simp only [Task.followIf_eq_self_iff]
  · intro hpausing _ k u hu hjob hmoves
    have hafter := hrewrites.tasks k _ hu
    have hfollow : JobStatus.follow .pausing u.status = .pausing := by
      rcases hmoves with h | h <;> rw [h] <;> rfl
    rw [hafter, Option.map_some, Task.followIf, if_pos hjob, hpausing, Task.follow, hfollow]

/-! ## A job that runs again -/

namespace Overtaken

open BrokenOff (task)

/-- The job as it pauses. -/
def pausing : Job := Workbench.job.moved .pausing 0

/-- The job of the workbench pauses, and its task is still scheduled. -/
def store : Store := (Workbench.store.put task).put pausing

/-- The settlement of the job by the process that leases it. -/
def settlement : JobSettlement := ⟨"p", "j", .pausing⟩

def leased : Store := store.put (Leasable.withHolder (some "p") pausing)

def moveTo (target : JobStatus) : Access := .updateJob .root "j" { status := some target }

/-- The owner resumes the job, and it runs again. -/
def resumed : Store := (moveTo .running).after 0 ((moveTo .resuming).after 0 leased)

/-- The task of the example is read back as it was written. -/
theorem sound_task : Document.Sound task := Task.sound_iff.2 (by decide)

/-- The store of the example is regular. -/
theorem regular : store.Regular := by
  have hcatalog : Workbench.catalog.Regular :=
    ((regular_empty.put (LawfulDocument.decode_encode Workbench.dataset)).put
      (LawfulDocument.decode_encode Workbench.model)).put
      (LawfulDocument.decode_encode Workbench.objective)
  exact ((hcatalog.put (LawfulDocument.decode_encode Workbench.job)).put sound_task).put
    (LawfulDocument.decode_encode pausing)

/-- The job is pausing. -/
theorem status_pausing : pausing.status = .pausing :=
  (Job.applyStatus_of_canBecome (j := Workbench.job) (by decide) 0).2

/-- It has kept its id. -/
theorem id_pausing : pausing.id = "j" := (Job.tended_moved .pausing 0 Workbench.job).id

/-- It is free. -/
theorem free_pausing : Leasable.holder pausing = none :=
  (Job.tended_moved .pausing 0 Workbench.job).process

/-- There is no other job. -/
theorem eq_pausing_of_has {j : Job} (h : store.Has j) : j = pausing := by
  rw [store, has_put_iff] at h
  rcases h with rfl | ⟨hne, h⟩
  · rfl
  · rw [has_put_of_collection_ne _ (by decide), Workbench.store, has_put_iff] at h
    rcases h with rfl | ⟨-, h⟩
    · exact absurd id_pausing.symm hne
    · cases h

/-- The job is brought where it may go. -/
theorem after_moveTo {s : Store} {j : Job} (hj : s.Has j) (hid : j.id = "j") {target : JobStatus}
    (hcan : j.status.canBecome target = true) :
    (moveTo target).after 0 s = s.put (j.moved target 0) ∧ (moveTo target).MovesJob "j" s 0 := by
  have hread : s.document? "j" = .ok (some j) := hid ▸ hj.document?
  have happly : Job.apply 0 { status := some target } j s = .ok (j.moved target 0, s) :=
    liftM_eq_ok.2 ⟨(Job.applyStatus_of_canBecome hcan 0).1, rfl⟩
  have hchange := Job.change_eq_ok.2 ⟨j, j.moved target 0, hread,
    (rfl : Caller.authorize .root _ _ _ = _), happly, rfl, rfl⟩
  have hok : (moveTo target).transaction 0 s =
      .ok (.job ((j.moved target 0).refresh 0), s.put (j.moved target 0)) :=
    map_eq_ok.2 ⟨_, hchange, rfl⟩
  refine ⟨Access.after_eq_of_ok hok, .root, target, .job ((j.moved target 0).refresh 0), rfl, ?_⟩
  rw [Access.answer, commit_eq_ok.2 hok]

/-- The store of the example is reachable. -/
theorem reachable : store.Reachable := by
  have hjob : Workbench.store.Has Workbench.job := has_put_self _ _
  have hcreate : Task.create 0 .root { job := "j", model := "m" } Workbench.store =
      .ok (task.refresh, Workbench.store.put task) :=
    Task.create_eq_ok.2 ⟨Workbench.job, [], hjob.document?, rfl, rfl, rfl, rfl, rfl, rfl, rfl⟩
  have hcreated : (Access.createTask .root { job := "j", model := "m" }).after 0 Workbench.store =
      Workbench.store.put task := Access.after_eq_of_ok (map_eq_ok.2 ⟨_, hcreate, rfl⟩)
  have hkept : (Workbench.store.put task).Has Workbench.job := by
    rw [has_put_of_collection_ne _ (by decide)]
    exact hjob
  have hpaused : (moveTo .pausing).after 0 (Workbench.store.put task) = store :=
    (after_moveTo hkept rfl (by decide)).1
  rw [← hpaused, ← hcreated]
  exact (Workbench.reachable.after 0 _).after 0 _

/-- The settlement leases the job. -/
theorem leaseJob : leaseJobForSettlement 0 "p" .pausing store = (some settlement, leased) := by
  have hstored : store.Has pausing := has_put_self _ _
  obtain ⟨ds, hds⟩ := regular.jobs.exists_documents
  -- the lease picks one of the jobs, and there is only one
  have hmem {j : Job} (hj : j ∈ ds) : j = pausing :=
    eq_pausing_of_has ((regular.wellFormed.mem_documents hds).1 hj)
  obtain ⟨j, hleast⟩ : ∃ j, least? (compareDocs (some JobSort.creationTime) .ascending)
      (ds.filter fun j => (Leasable.holder j).isNone && Job.passes [.status .pausing] j) =
        some j := by
    refine Option.ne_none_iff_exists'.1 fun hnone => ?_
    have hpausing := (regular.wellFormed.mem_documents hds).2 hstored
    have hempty := List.filter_eq_nil_iff.1 (least?_eq_none.1 hnone) pausing hpausing
    simp [free_pausing, Job.passes, JobFilter.holds, status_pausing] at hempty
  obtain rfl := hmem (List.mem_filter.1 (least?_mem hleast)).1
  obtain ⟨r, hr⟩ : ∃ r : Job, r = Document.refresh 0 (Leasable.withHolder (some "p") pausing) :=
    ⟨_, rfl⟩
  have hok : Job.leaseFirst 0 [.status .pausing] (some .creationTime) .ascending "p" store =
      .ok (some r, leased) :=
    Transaction.lease_eq_ok.2 ⟨ds, hds, .inr ⟨pausing, hleast, congrArg some hr, rfl⟩⟩
  have hid : r.id = "j" := (congrArg Job.id hr).trans id_pausing
  have hstatus : r.status = .pausing := (congrArg Job.status hr).trans status_pausing
  rw [leaseJobForSettlement, commit_eq_ok.2 hok]
  show (some (JobSettlement.mk "p" r.id r.status), leased) = _
  rw [hid, hstatus, settlement]

/-- What the lease has changed. -/
theorem rewrites_lease :
    Rewrites (changeAt "j" (Leasable.withHolder (some "p"))) (fun t => t) store leased := by
  obtain ⟨j, -, -, hx, hleased⟩ := regular.leased_of_lease leaseJob
  have hid : j.id = "j" := (congrArg JobSettlement.job hx).symm
  rw [hid] at hleased
  exact hleased

/-- The owner has brought the job back to work, under the lease. -/
theorem walk : resumed.Regular ∧ leased.Leads (Access.MovesJob "j") resumed ∧
    ∃ j : Job, resumed.Has j ∧ j.id = "j" ∧ j.process = some "p" ∧ j.status = .running := by
  have hstore : store.Has pausing := has_put_self _ _
  have hlease := rewrites_lease
  rw [← id_pausing] at hlease
  have hheld : leased.Has (Leasable.withHolder (some "p") pausing) := hlease.has_job hstore rfl
  have hpausing : (Leasable.withHolder (some "p") pausing).status = .pausing := status_pausing
  have hresumes : (Leasable.withHolder (some "p") pausing).status.canBecome .resuming = true := by
    rw [hpausing]
    rfl
  obtain ⟨hfirst, hmoves⟩ := after_moveTo hheld id_pausing hresumes
  generalize hresuming : (Leasable.withHolder (some "p") pausing).moved .resuming 0 =
    resuming at hfirst
  have htended : Job.Tended (Leasable.withHolder (some "p") pausing) resuming :=
    hresuming ▸ Job.tended_moved .resuming 0 _
  have hstatus : resuming.status = .resuming :=
    hresuming ▸ (Job.applyStatus_of_canBecome hresumes 0).2
  have hruns : resuming.status.canBecome .running = true := by
    rw [hstatus]
    rfl
  have hput : ((moveTo .resuming).after 0 leased).Has resuming := hfirst ▸ has_put_self _ _
  -- from pausing to resuming, and from there to running
  obtain ⟨hsecond, hmoves'⟩ := after_moveTo hput (htended.id.trans id_pausing) hruns
  have hwalk : leased.Leads (Access.MovesJob "j") resumed := .step (.step .refl hmoves) hmoves'
  have hregular := hlease.regular.has_of_moves (P := fun _ => True) (fun _ _ _ _ => trivial) hheld
    id_pausing trivial hwalk
  refine ⟨hregular.1, hwalk, resuming.moved .running 0, ?_, ?_, ?_, ?_⟩
  · rw [resumed, hsecond]
    exact has_put_self _ _
  · exact (Job.tended_moved .running 0 resuming).id.trans (htended.id.trans id_pausing)
  · exact (Job.tended_moved .running 0 resuming).process.trans htended.process
  · exact (Job.applyStatus_of_canBecome hruns 0).2

/-- The task is as it was created. -/
theorem read_task : resumed.document? task.id = .ok (some task) := by
  have hhas : store.Has task := by
    rw [store, has_put_of_collection_ne _ (by decide)]
    exact has_put_self _ _
  have htask : store.document? task.id = .ok (some task) :=
    document?_eq_ok_some.2 ⟨encode task, hhas, sound_task⟩
  have hleased := rewrites_lease.tasks _ _ htask
  -- moving the job leaves the tasks as they were
  have htable : resumed.table .tasks = leased.table .tasks := by
    have hkept (target : JobStatus) (s : Store) :
        ((moveTo target).after 0 s).table .tasks = s.table .tasks := by
      have hne : (moveTo target).collection ≠ .tasks := nofun
      exact Access.table_after_of_ne hne
    rw [resumed, hkept, hkept]
  rw [document?_eq_of_table (D := Task) htable, hleased]
  rfl

end Overtaken

/-- A job that was leased while it paused and then resumed by its owner runs, and the settlement
that is given up sends its task into a pause. -/
theorem running_job_left_with_pausing_task :
    Overtaken.store.Reachable ∧ Overtaken.store.Faithful ∧
      leaseJobForSettlement 0 "p" .pausing Overtaken.store =
        (some Overtaken.settlement, Overtaken.leased) ∧
      Overtaken.leased.Leads (Access.MovesJob "j") Overtaken.resumed ∧
      (∃ j : Job, Overtaken.resumed.Has j ∧ j.id = "j" ∧ j.status = .running ∧
        j.status.canBecome .paused = false) ∧
      BrokenOff.task.job = "j" ∧ BrokenOff.task.status = .scheduled ∧
      Overtaken.resumed.document? BrokenOff.task.id = .ok (some BrokenOff.task) ∧
      (Overtaken.settlement.settle 0 Overtaken.resumed).document? BrokenOff.task.id =
        .ok (some { BrokenOff.task with status := .pausing }) := by
  obtain ⟨hregular, hwalk, j, hj, hid, hheld, hstatus⟩ := Overtaken.walk
  -- the cascade goes through, and the change of the job's status is refused
  have hsettle :=
    JobSettlement.rewrites_settle (x := Overtaken.settlement) hregular hj hid hheld rfl 0
  refine ⟨Overtaken.reachable, Overtaken.regular.faithful, Overtaken.leaseJob, hwalk,
    ⟨j, hj, hid, hstatus, hstatus ▸ rfl⟩, rfl, rfl, Overtaken.read_task, ?_⟩
  rw [hsettle.tasks _ _ Overtaken.read_task]
  rfl

/-- The same run, seen by what is left behind a settlement that is given up. -/
theorem settlement_given_up_behind_resumption :
    Overtaken.store.Faithful ∧ Overtaken.store.Homed ∧
      leaseJobForSettlement 0 "p" .pausing Overtaken.store =
        (some Overtaken.settlement, Overtaken.leased) ∧
      Overtaken.leased.Leads (Access.MovesJob "j") Overtaken.resumed ∧
      ∃ j : Job, Overtaken.resumed.Has j ∧ j.id = "j" ∧ j.status.canBecome .paused = false ∧
        (Overtaken.settlement.settle 0 Overtaken.resumed).Has { j with process := none } ∧
        (Overtaken.settlement.settle 0 Overtaken.resumed).tasks ≠ Overtaken.resumed.tasks := by
  obtain ⟨-, hwalk, j, hj, hid, -, hstatus⟩ := Overtaken.walk
  have hrefused : j.status.canBecome .paused = false := hstatus ▸ rfl
  obtain ⟨-, hhas, -, htasks, -⟩ := settlement_given_up Overtaken.regular.faithful
    Overtaken.reachable.wellFormed.homed rfl Overtaken.leaseJob hwalk hj hid hrefused 0
  refine ⟨Overtaken.regular.faithful, Overtaken.regular.homed, Overtaken.leaseJob, hwalk, j,
    hj, hid, hrefused, hhas, fun hsame => ?_⟩
  have hstays := htasks.1 hsame _ _ Overtaken.read_task hid.symm
  cases hstays

end Fleet
