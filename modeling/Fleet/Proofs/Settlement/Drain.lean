import Fleet.Proofs.Lease.Exclusion
import Fleet.Proofs.Settlement.Poll

/-!
# Draining

A poll settles one document for each status in which a free one waits, and puts none into such a
status. So the numbers of those that wait go down with every poll, and as many polls as documents
wait in any one status settle them all (`maintainers_drain`). Documents that somebody holds are not
touched.
-/

set_option autoImplicit false

namespace Fleet

open Document (collection key)
open Store

/-! ## Counting -/

/-- How many documents nobody holds pass a test. -/
def Store.countFree {D : Type} [Leasable D] (test : D → Bool) (s : Store) : Nat :=
  match s.documents D with
  | .ok ds => ds.countP fun d => (Leasable.holder d).isNone && test d
  | .error _ => 0

section

variable {D : Type} [Leasable D] [Workable D] {s s' : Store} {test : D → Bool} {n : Nat}

/-- Documents are counted by their keys. -/
theorem Store.Regular.countFree_le_iff (hs : s.Regular) :
    s.countFree test ≤ n ↔ ∃ keys : List String, keys.length ≤ n ∧
      ∀ k (d : D), s.document? k = .ok (some d) → Leasable.holder d = none → test d = true →
        k ∈ keys := by
  have hread : s.RegularOn D := Workable.regularOn hs
  obtain ⟨ds, hds⟩ := hread.exists_documents
  have hcount : s.countFree test =
      ((ds.filter fun d => (Leasable.holder d).isNone && test d).map key).length := by
    rw [countFree, hds, List.length_map]
    exact List.countP_eq_length_filter
  have hmem {k : String} : k ∈ (ds.filter fun d => (Leasable.holder d).isNone && test d).map key ↔
      ∃ d : D, s.document? k = .ok (some d) ∧ Leasable.holder d = none ∧ test d = true := by
    rw [List.mem_map]
    constructor
    · rintro ⟨d, hd, rfl⟩
      obtain ⟨hd, htest⟩ := List.mem_filter.1 hd
      obtain ⟨k, hk⟩ := (mem_documents hds).1 hd
      obtain rfl := hread.key_eq hk
      rw [Bool.and_eq_true, Option.isNone_iff_eq_none] at htest
      exact ⟨d, hk, htest⟩
    · rintro ⟨d, hd, hfree, htest⟩
      refine ⟨d, List.mem_filter.2 ⟨(mem_documents hds).2 ⟨k, hd⟩, ?_⟩, hread.key_eq hd⟩
      rw [hfree, htest]
      rfl
  -- a document lies under its own id only, so each key is counted once
  have hnodup : ((ds.filter fun d => (Leasable.holder d).isNone && test d).map key).Nodup :=
    (hs.wellFormed.nodup_map_key_documents hds).sublist (List.filter_sublist.map key)
  rw [hcount]
  constructor
  · intro hle
    exact ⟨_, hle, fun k d hd hfree htest => hmem.2 ⟨d, hd, hfree, htest⟩⟩
  · rintro ⟨keys, hkeys, hcover⟩
    -- distinct keys that are all covered are no more than what covers them
    have hsub : (ds.filter fun d => (Leasable.holder d).isNone && test d).map key ⊆ keys := by
      intro k hk
      obtain ⟨d, hd, hfree, htest⟩ := hmem.1 hk
      exact hcover k d hd hfree htest
    exact (List.subperm_of_subset hnodup hsub).length_le.trans hkeys

/-- If a free document that passes the test was picked, where there was one, then there is one less. -/
theorem Turns.countFree_le {picked : D → Prop} {outcome : D → D → Prop}
    (h : Turns picked outcome s s') (hs : s.Regular) (hs' : s'.Regular)
    (hdone : ∀ d d', outcome d d' → test d' = false)
    (hpicked : ∀ k (d : D), s.document? k = .ok (some d) → Leasable.holder d = none →
      test d = true →
      ∃ e, picked e ∧ s.document? (key e) = .ok (some e) ∧ Leasable.holder e = none ∧ test e = true)
    (hn : s.countFree test ≤ n + 1) : s'.countFree test ≤ n := by
  have hread : s.RegularOn D := Workable.regularOn hs
  obtain ⟨keys, hkeys, hcover⟩ := hs.countFree_le_iff.1 hn
  -- none is new
  have hback {k : String} {d : D} (hd : s'.document? k = .ok (some d)) (htest : test d = true) :
      s.document? k = .ok (some d) ∧ ¬ picked d := by
    rcases h.of_document? hread hd with ⟨e, -, -, houtcome⟩ | hkept
    · rw [hdone e d houtcome] at htest
      cases htest
    · exact hkept
  refine hs'.countFree_le_iff.2 ?_
  by_cases hsome : ∃ e, picked e ∧ s.document? (key e) = .ok (some e) ∧ Leasable.holder e = none ∧
    test e = true
  · obtain ⟨e, he, hstored, hfree, htest⟩ := hsome
    refine ⟨keys.erase (key e), ?_, fun k d hd hdfree hdtest => ?_⟩
    · rw [List.length_erase_of_mem (hcover _ e hstored hfree htest)]
      omega
    · obtain ⟨hd, hnot⟩ := hback hd hdtest
      have hne : k ≠ key e := by
        intro hk
        rw [hk, hstored] at hd
        cases hd
        exact hnot he
      exact (List.mem_erase_of_ne hne).2 (hcover k d hd hdfree hdtest)
  · refine ⟨[], Nat.zero_le n, fun k d hd hdfree hdtest => ?_⟩
    exact absurd (hpicked k d (hback hd hdtest).1 hdfree hdtest) hsome

end

/-! ## Polls in a row -/

/-- A number of polls, one behind the other. -/
inductive Repeated (poll : Store → Store → Prop) : Nat → Store → Store → Prop
  | zero {s : Store} : Repeated poll 0 s s
  | succ {n : Nat} {s s' s'' : Store} :
      poll s s' → Repeated poll n s' s'' → Repeated poll (n + 1) s s''

/-- There are as many polls in a row as one likes. -/
theorem repeated_iterate {poll : Store → Store → Prop} {next : Store → Store}
    (h : ∀ s, poll s (next s)) (n : Nat) (s : Store) : Repeated poll n s (next^[n] s) := by
  induction n generalizing s with
  | zero => exact .zero
  | succ n ih => exact .succ (h s) (ih (next s))

variable {clock : Millis → Prop} {process : String} {n : Nat} {s s' s'' : Store}

/-- The job is free and has to settle. -/
def Job.Pending (j : Job) : Prop := j.process = none ∧ j.status ∈ JobStatus.transitional

/-- A settled job is not transitional. -/
theorem Job.Settles.not_mem {j j' : Job} (h : j.Settles clock j') :
    j'.status ∉ JobStatus.transitional := by
  obtain ⟨target, now, i, htarget, -, -, hstatus, rfl⟩ := h
  rw [JobStatus.mem_transitional]
  rintro ⟨target', htarget'⟩
  rw [show i.status = target from hstatus, (JobStatus.settled?_of_settled htarget).1] at htarget'
  cases htarget'

/-- Nor is it pending. -/
theorem Job.Settles.not_pending {j j' : Job} (h : j.Settles clock j') : ¬ j'.Pending :=
  fun hpending => h.not_mem hpending.2

namespace JobsSettled

/-- Where no job is pending nothing is left to settle. -/
theorem refl (hs : s.Regular) (hnone : ∀ k j, s.document? k = .ok (some j) → ¬ Job.Pending j) :
    JobsSettled clock Job.Pending s s where
  regular := hs
  jobs := turns_refl hnone
  tasks := turns_refl fun _ t _ ⟨j, hj, hpending⟩ => hnone t.job j hj hpending
  table _ _ _ := rfl
  claims := rfl

variable {picked : Job → Prop}

/-- A job that has to settle yet was left alone. -/
theorem document?_of_pending (hs : s.Regular) (h : JobsSettled clock picked s s') {k : String}
    {j : Job} (hj : s'.document? k = .ok (some j)) (hpending : j.Pending) :
    s.document? k = .ok (some j) ∧ ¬ picked j := by
  rcases h.jobs.of_document? hs.jobs hj with ⟨i, -, -, hsettles⟩ | hkept
  · exact absurd hpending hsettles.not_pending
  · exact hkept

/-- No job that settled has to settle again, so its tasks stay where they went with it. -/
theorem trans (hs : s.Regular) (h : JobsSettled clock picked s s')
    (hpicked : ∀ j, picked j → j.Pending) (h' : JobsSettled clock Job.Pending s' s'') :
    JobsSettled clock Job.Pending s s'' where
  regular := h'.regular
  jobs := h.jobs.trans hpicked (fun _ _ => Job.Settles.not_pending) h'.jobs
  tasks := by
    constructor
    · intro k t ht ⟨j, hj, hpending⟩
      by_cases hp : picked j
      · -- its job has settled, and nothing moves the task again
        obtain ⟨t', hfollows, ht'⟩ := h.tasks.turned k t ht ⟨j, hj, hp⟩
        have hjob : t'.job = t.job := by
          obtain ⟨-, -, rfl⟩ := hfollows
          rfl
        refine ⟨t', hfollows, h'.tasks.kept k (some t') ht' ?_⟩
        intro u hu ⟨i, hi, hpending'⟩
        obtain rfl := Option.some.inj hu
        obtain ⟨hi, hnot⟩ := h.document?_of_pending hs hi hpending'
        rw [hjob, hj] at hi
        cases hi
        exact hnot hp
      · -- neither the job nor the task was touched, and both come later
        have htkept : s'.document? k = .ok (some t) := by
          refine h.tasks.kept k (some t) ht fun u hu ⟨i, hi, hi'⟩ => ?_
          obtain rfl := Option.some.inj hu
          rw [hj] at hi
          cases hi
          exact hp hi'
        have hjkept : s'.document? t.job = .ok (some j) :=
          h.jobs.kept t.job (some j) hj fun i hi => Option.some.inj hi ▸ hp
        obtain ⟨t', ⟨i, hi, rfl⟩, ht'⟩ := h'.tasks.turned k t htkept ⟨j, hjkept, hpending⟩
        rw [hjkept] at hi
        cases hi
        exact ⟨_, ⟨j, hj, rfl⟩, ht'⟩
    · intro k found hfound hnone
      refine h'.tasks.kept k found (h.tasks.kept k found hfound ?_) ?_
      · exact fun t ht ⟨j, hj, hp⟩ => hnone t ht ⟨j, hj, hpicked j hp⟩
      · intro t ht ⟨j, hj, hpending⟩
        exact hnone t ht ⟨j, (h.document?_of_pending hs hj hpending).1, hpending⟩
  table c hjobs htasks := (h'.table c hjobs htasks).trans (h.table c hjobs htasks)
  claims := h'.claims.trans h.claims

/-- Behind the polls no job has to settle. -/
theorem not_pending (hs : s.Regular) (h : JobsSettled clock Job.Pending s s') {k : String} {j : Job}
    (hj : s'.document? k = .ok (some j)) : ¬ j.Pending :=
  fun hpending => (h.document?_of_pending hs hj hpending).2 hpending

end JobsSettled

/-- As many polls for jobs as there are free jobs in any transitional status. -/
theorem jobsSettled_of_repeated (h : Repeated (JobPoll clock process) n s s') (hs : s.Regular)
    (hn : ∀ status ∈ JobStatus.transitional, s.countFree (fun j : Job => j.status == status) ≤ n) :
    JobsSettled clock Job.Pending s s' := by
  induction h with
  | zero =>
    refine .refl hs fun k j hj hpending => ?_
    obtain ⟨keys, hkeys, hcover⟩ := hs.countFree_le_iff.1 (hn j.status hpending.2)
    have hmem := hcover k j hj hpending.1 (beq_self_eq_true j.status)
    rw [List.length_eq_zero_iff.1 (Nat.le_zero.1 hkeys)] at hmem
    cases hmem
  | succ hpoll _ ih =>
    -- the poll takes one job out of each status in which there is one, and puts none into any
    obtain ⟨picks, hsettled, hpicks, hcomplete⟩ := hpoll.settles hs
    refine hsettled.trans hs (fun j hj => (hpicks j hj).2) ?_
    refine ih hsettled.regular fun status hstatus => ?_
    refine hsettled.jobs.countFree_le hs hsettled.regular ?_ ?_ (hn status hstatus)
    · intro j j' hsettles
      refine beq_eq_false_iff_ne.2 fun heq => hsettles.not_mem ?_
      rw [heq]
      exact hstatus
    · intro k j hj hfree hj'
      obtain ⟨i, hi, histatus⟩ := hcomplete status hstatus k j hj hfree (beq_iff_eq.1 hj')
      obtain ⟨hstored, hifree, -⟩ := hpicks i hi
      exact ⟨i, hi, hstored, hifree, beq_iff_eq.2 histatus⟩

/-- The task is free and has to settle. -/
def Task.Pending (t : Task) : Prop := t.process = none ∧ t.status ∈ TaskStatus.transitional

/-- A settled task is not transitional. -/
theorem Task.Settles.not_mem {t t' : Task} (h : t.Settles clock t') :
    t'.status ∉ TaskStatus.transitional := by
  obtain ⟨target, now, u, htarget, -, -, hstatus, rfl⟩ := h
  rw [TaskStatus.mem_transitional]
  rintro ⟨target', htarget'⟩
  rw [show u.status = target from hstatus, TaskStatus.settled?_of_settled htarget] at htarget'
  cases htarget'

/-- Nor is it pending. -/
theorem Task.Settles.not_pending {t t' : Task} (h : t.Settles clock t') : ¬ t'.Pending :=
  fun hpending => h.not_mem hpending.2

namespace TasksSettled

/-- Where no task is pending nothing is left to settle. -/
theorem refl (hs : s.Regular) (hnone : ∀ k t, s.document? k = .ok (some t) → ¬ Task.Pending t) :
    TasksSettled clock Task.Pending s s where
  regular := hs
  tasks := turns_refl hnone
  table _ _ := rfl
  claims := rfl

/-- Settling some tasks and then the others is settling all. -/
theorem trans {picked : Task → Prop} (h : TasksSettled clock picked s s')
    (hpicked : ∀ t, picked t → t.Pending) (h' : TasksSettled clock Task.Pending s' s'') :
    TasksSettled clock Task.Pending s s'' where
  regular := h'.regular
  tasks := h.tasks.trans hpicked (fun _ _ => Task.Settles.not_pending) h'.tasks
  table c hc := (h'.table c hc).trans (h.table c hc)
  claims := h'.claims.trans h.claims

/-- Behind the polls no task has to settle. -/
theorem not_pending (hs : s.Regular) (h : TasksSettled clock Task.Pending s s') {k : String}
    {t : Task} (ht : s'.document? k = .ok (some t)) : ¬ t.Pending := by
  rcases h.tasks.of_document? hs.tasks ht with ⟨u, -, -, hsettles⟩ | ⟨-, hnot⟩
  · exact hsettles.not_pending
  · exact hnot

end TasksSettled

/-- As many polls for tasks as there are free tasks in any transitional status. -/
theorem tasksSettled_of_repeated (h : Repeated (TaskPoll clock process) n s s') (hs : s.Regular)
    (hn : ∀ status ∈ TaskStatus.transitional,
      s.countFree (fun t : Task => t.status == status) ≤ n) :
    TasksSettled clock Task.Pending s s' := by
  induction h with
  | zero =>
    refine .refl hs fun k t ht hpending => ?_
    obtain ⟨keys, hkeys, hcover⟩ := hs.countFree_le_iff.1 (hn t.status hpending.2)
    have hmem := hcover k t ht hpending.1 (beq_self_eq_true t.status)
    rw [List.length_eq_zero_iff.1 (Nat.le_zero.1 hkeys)] at hmem
    cases hmem
  | succ hpoll _ ih =>
    -- one poll settles a task of each status that has one, which takes one off each count
    obtain ⟨picks, hsettled, hpicks, hcomplete⟩ := hpoll.settles hs
    refine hsettled.trans (fun t ht => (hpicks t ht).2) ?_
    refine ih hsettled.regular fun status hstatus => ?_
    refine hsettled.tasks.countFree_le hs hsettled.regular ?_ ?_ (hn status hstatus)
    · intro t t' hsettles
      refine beq_eq_false_iff_ne.2 fun heq => hsettles.not_mem ?_
      rw [heq]
      exact hstatus
    · intro k t ht hfree ht'
      obtain ⟨u, hu, hustatus⟩ := hcomplete status hstatus k t ht hfree (beq_iff_eq.1 ht')
      obtain ⟨hstored, hufree, -⟩ := hpicks u hu
      exact ⟨u, hu, hstored, hufree, beq_iff_eq.2 hustatus⟩

/-! ## The result -/

/-- Where no job has to settle a poll does nothing. -/
theorem pollJobs_eq (hs : s.Regular) (hnone : ∀ k j, s.document? k = .ok (some j) → ¬ Job.Pending j)
    (now : Millis) (process : String) : pollJobs now process s = (0, s) := by
  have hleased : leaseTransitionalJobs now process JobStatus.transitional s = ([], s) := by
    rw [leaseTransitionalJobs_eq, hs.leaseEach_eq_nil]
    · rfl
    · intro test htest k j hj hfree
      obtain ⟨status, hstatus, rfl⟩ := List.mem_map.1 htest
      refine Bool.eq_false_iff.2 fun hpasses => hnone k j hj ⟨hfree, ?_⟩
      rw [Job.passes_status.1 hpasses]
      exact hstatus
  rw [pollJobs, hleased]
  rfl

/-- A poll that finds no pending task does nothing. -/
theorem pollTasks_eq (hs : s.Regular)
    (hnone : ∀ k t, s.document? k = .ok (some t) → ¬ Task.Pending t) (now : Millis)
    (process : String) : pollTasks now process s = (0, s) := by
  have hleased : leaseTransitionalTasks now process TaskStatus.transitional s = ([], s) := by
    rw [leaseTransitionalTasks_eq, hs.leaseEach_eq_nil]
    · rfl
    · intro test htest k t ht hfree
      obtain ⟨status, hstatus, rfl⟩ := List.mem_map.1 htest
      refine Bool.eq_false_iff.2 fun hpasses => hnone k t ht ⟨hfree, ?_⟩
      rw [Task.passes_status.1 hpasses]
      exact hstatus
  rw [pollTasks, hleased]
  rfl

/-- **The maintainers drain what has to settle, and touch nothing else.** Let the store be faithful
with every document at home, and let there be as many polls for jobs as there are free jobs in any
one transitional status. Then each free job in such a status has settled and is free, the tasks of
these jobs have gone with them in their statuses and in nothing else, and all other documents are as
they were. Let there be as many polls for tasks as there are free tasks in any one transitional
status then. Then each of these tasks has settled and is free, all other documents are as they were,
and further polls find nothing to do. -/
theorem maintainers_drain {s S T : Store} (hs : s.Faithful) (hhome : s.Homed)
    {clock : Millis → Prop} {process : String} {n m : Nat}
    (hn : ∀ status ∈ JobStatus.transitional, s.countFree (fun j : Job => j.status == status) ≤ n)
    (hjobs : Repeated (JobPoll clock process) n s S)
    (hm : ∀ status ∈ TaskStatus.transitional, S.countFree (fun t : Task => t.status == status) ≤ m)
    (htasks : Repeated (TaskPoll clock process) m S T) :
    JobsSettled clock Job.Pending s S ∧ TasksSettled clock Task.Pending S T ∧
      ∀ now q, pollJobs now q T = (0, T) ∧ pollTasks now q T = (0, T) := by
  replace hs := hs.regular hhome
  -- the jobs first, and then the tasks, which the cascades have left pending
  have hfirst := jobsSettled_of_repeated hjobs hs hn
  have hsecond := tasksSettled_of_repeated htasks hfirst.regular hm
  refine ⟨hfirst, hsecond, fun now q => ⟨?_, ?_⟩⟩
  · -- the polls for tasks have left the jobs alone
    refine pollJobs_eq hsecond.regular (fun k j hj => hfirst.not_pending hs (k := k) ?_) now q
    rw [← document?_eq_of_table (hsecond.table .jobs nofun)]
    exact hj
  · exact pollTasks_eq hsecond.regular (fun k t ht => hsecond.not_pending hfirst.regular ht) now q

/-! ## A job that pauses -/

namespace Waiting

/-- A job that pauses, which nobody holds. -/
def job : Job := { Workbench.job with status := .pausing }

/-- Its task, which is still scheduled. -/
def task : Task := .initial 0 Workbench.job 1 { job := "j", model := "m" }

def store : Store := ofPair job task

/-- The store behind a poll for jobs. -/
def paused : Store := (fun s => (pollJobs 5 "p" s).2)^[1] store

/-- The store behind a poll for tasks. -/
def drained : Store := (fun s => (pollTasks 5 "p" s).2)^[1] paused

theorem regular : store.Regular := regular_ofPair (Task.sound_iff.2 (by decide))

theorem repeated_jobPoll : Repeated (JobPoll (Eq 5) "p") 1 store paused :=
  repeated_iterate (fun s => jobPoll_pollJobs rfl "p" s) 1 store

theorem repeated_taskPoll : Repeated (TaskPoll (Eq 5) "p") 1 paused drained :=
  repeated_iterate (fun s => taskPoll_pollTasks rfl "p" s) 1 paused

theorem countFree_jobs (status : JobStatus) :
    store.countFree (fun j : Job => j.status == status) ≤ 1 := by
  refine regular.countFree_le_iff.2 ⟨["j"], Nat.le_refl 1, fun k j hj _ _ => ?_⟩
  obtain ⟨hstored, rfl⟩ := regular.wellFormed.document?_eq_ok_some.1 hj
  exact List.mem_singleton.2 (id_eq_of_has_ofPair hstored)

theorem countFree_tasks (status : TaskStatus) :
    paused.countFree (fun t : Task => t.status == status) ≤ 1 := by
  have hsettled := jobsSettled_of_repeated repeated_jobPoll regular
    fun status _ => countFree_jobs status
  refine hsettled.regular.countFree_le_iff.2 ⟨[task.id], Nat.le_refl 1, fun k t ht _ _ => ?_⟩
  rcases hsettled.tasks.of_document? regular.tasks ht with ⟨u, hu, -, -⟩ | ⟨hkept, -⟩
  · exact List.mem_singleton.2 (eq_id_of_document?_ofPair hu)
  · exact List.mem_singleton.2 (eq_id_of_document?_ofPair hkept)

end Waiting

/-- One poll each is enough for a job with its task. -/
theorem maintainers_drain_pair :
    Waiting.store.Faithful ∧ Waiting.store.Homed ∧
      (∀ status ∈ JobStatus.transitional,
        Waiting.store.countFree (fun j : Job => j.status == status) ≤ 1) ∧
      Repeated (JobPoll (Eq 5) "p") 1 Waiting.store Waiting.paused ∧
      (∀ status ∈ TaskStatus.transitional,
        Waiting.paused.countFree (fun t : Task => t.status == status) ≤ 1) ∧
      Repeated (TaskPoll (Eq 5) "p") 1 Waiting.paused Waiting.drained ∧
      JobsSettled (Eq 5) Job.Pending Waiting.store Waiting.paused ∧
      TasksSettled (Eq 5) Task.Pending Waiting.paused Waiting.drained ∧
      ∀ now q, pollJobs now q Waiting.drained = (0, Waiting.drained) ∧
        pollTasks now q Waiting.drained = (0, Waiting.drained) :=
  have hjobs : ∀ status ∈ JobStatus.transitional,
      Waiting.store.countFree (fun j : Job => j.status == status) ≤ 1 :=
    fun status _ => Waiting.countFree_jobs status
  have htasks : ∀ status ∈ TaskStatus.transitional,
      Waiting.paused.countFree (fun t : Task => t.status == status) ≤ 1 :=
    fun status _ => Waiting.countFree_tasks status
  ⟨Waiting.regular.faithful, Waiting.regular.homed, hjobs, Waiting.repeated_jobPoll, htasks,
    Waiting.repeated_taskPoll,
    maintainers_drain Waiting.regular.faithful Waiting.regular.homed hjobs Waiting.repeated_jobPoll
      htasks Waiting.repeated_taskPoll⟩

/-! ## A job that strayed -/

namespace Job.Astray

variable {j : Job} {k : String}

/-- No transaction of a settlement reaches the job, whichever job it is about. -/
theorem step (h : j.Astray k s) (now : Millis) (x : JobSettlement) (phase : JobSettlement.Phase) :
    j.Astray k (x.step now s phase).2 := by
  cases phase with
  | cascading target =>
    obtain ⟨-, hstore⟩ := x.step_cascading now target s
    rw [hstore]
    exact h.commit fun n s' hok => h.of_table (JobStatus.jobs_of_cascade hok)
  | changing target =>
    refine h.commit fun r s' hok => ?_
    obtain ⟨i, i', hi, -, happly, rfl, -⟩ := Job.change_eq_ok.1 hok
    exact h.put ((Job.apply_eq_ok happly).1.id ▸ h.elsewhere _ i hi)
  | releasing =>
    refine h.commit fun r s' hok => ?_
    obtain ⟨i, hi, -, rfl⟩ := Transaction.release_eq_ok.1 hok
    exact h.put (h.elsewhere _ i hi)
  | finished => exact h

/-- No lease for settlement does, either. -/
theorem leaseTransitional (h : j.Astray k s) (now : Millis) (process : String)
    (statuses : List JobStatus) : j.Astray k (leaseTransitionalJobs now process statuses s).2 := by
  induction statuses generalizing s with
  | nil => exact h
  | cons status rest ih =>
    have hlease : j.Astray k (leaseJobForSettlement now process status s).2 := by
      have hcommit :=
        h.commit (m := Job.leaseFirst now [.status status] (some .creationTime) .ascending
        process) fun _ _ hok => h.lease hok
      rw [leaseJobForSettlement]
      split
      case h_1 heq =>
        rw [heq] at hcommit
        exact hcommit
      case h_2 heq =>
        rw [heq] at hcommit
        exact hcommit
    exact ih hlease

theorem jobPoll (h : j.Astray k s) {clock : Millis → Prop} {process : String}
    (hpoll : JobPoll clock process s s') : j.Astray k s' := by
  obtain ⟨now, ws, -, -, hrun⟩ := hpoll
  induction hrun with
  | start => exact h.leaseTransitional now process _
  | @next _ _ x phase _ now' _ _ ih => exact ih.step now' x phase

/-- No number of polls for jobs settles a job that strayed. -/
theorem repeated (h : j.Astray k s) {clock : Millis → Prop} {process : String} {n : Nat}
    (hpolls : Repeated (JobPoll clock process) n s s') : j.Astray k s' := by
  induction hpolls with
  | zero => exact h
  | succ hpoll _ ih => exact ih (h.jobPoll hpoll)

end Job.Astray

theorem countFree_alone (j : Job) (k : String) (test : Job → Bool) :
    (j.alone k).countFree test ≤ 1 := by
  rw [countFree, Job.documents_alone]
  exact List.countP_le_length

/-- That no document has strayed is needed. A job that pauses and does not lie under its own id is
leased by every poll, and what settles is a copy of it under the id. However many polls there are,
the job waits. -/
theorem stray_job_never_settles :
    (Waiting.job.alone "x").Faithful ∧
      (∀ status ∈ JobStatus.transitional,
        (Waiting.job.alone "x").countFree (fun j : Job => j.status == status) ≤ 1) ∧
      Waiting.job.Pending ∧ (Waiting.job.alone "x").document? "x" = .ok (some Waiting.job) ∧
      ∀ n, (∃ S, Repeated (JobPoll (Eq 5) "p") n (Waiting.job.alone "x") S) ∧
        ∀ S, Repeated (JobPoll (Eq 5) "p") n (Waiting.job.alone "x") S →
          S.document? "x" = .ok (some Waiting.job) := by
  have hastray : Waiting.job.Astray "x" (Waiting.job.alone "x") := Job.astray_alone (by decide)
  refine ⟨Job.faithful_alone _ _, fun _ _ => countFree_alone _ _ _, ⟨rfl, by decide⟩, hastray.read,
    fun n => ⟨⟨_, repeated_iterate (fun s => jobPoll_pollJobs rfl "p" s) n _⟩, fun S hpolls => ?_⟩⟩
  exact (hastray.repeated hpolls).read

end Fleet
