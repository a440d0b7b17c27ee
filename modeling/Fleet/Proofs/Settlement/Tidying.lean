import Fleet.Proofs.Settlement.Leasing
import Fleet.Proofs.Store.Tidying

/-!
# Settlements are tidy

What a maintainer leases, moves and gives back it writes as it should be: under the key of the
document, so that it can be read again, and never with a holder in error. That holds in every store,
whatever lies in it, because a settlement moves nothing to an error (`JobSettlement.Phase.Orderly`,
`TaskSettlement.Phase.Orderly`).
-/

set_option autoImplicit false

namespace Fleet

open Document (collection key encode decode)
open Store Transaction

/-! ## Moves -/

/-- Every job without an error is released. -/
theorem Job.releasable_of_status_ne {j : Job} (h : j.status ≠ .error) :
    Leasable.releasable j = true :=
  bne_iff_ne.2 h

/-- Every task without an error is released. -/
theorem Task.releasable_of_status_ne {t : Task} (h : t.status ≠ .error) :
    Leasable.releasable t = true :=
  bne_iff_ne.2 h

/-- A task that was read is tidy in every status but that of an error. -/
theorem Task.tidy_of_status_ne {text : String} {t t' : Task} (ht : decode text = .ok t)
    (hqualities : t'.qualities = t.qualities) (hstatus : t'.status ≠ .error) :
    Collection.Tidy .tasks t'.id (encode t') := by
  have hfinite : ∀ x ∈ t'.qualities, x.isFinite = true := by
    rw [hqualities]
    exact Task.isFinite_of_decode ht
  refine tidy_encode (D := Task) ⟨_, Task.decode_encode_of_isFinite hfinite⟩ fun hfailed => ?_
  rw [Task.releasable_of_status_ne hstatus] at hfailed
  cases hfailed

/-- A job without an error is tidy, held or not. -/
theorem Job.tidy_of_status_ne {j : Job} (hstatus : j.status ≠ .error) :
    Collection.Tidy .jobs j.id (encode j) := by
  refine tidy_encode (D := Job) ⟨j, LawfulDocument.decode_encode j⟩ fun hfailed => ?_
  rw [Job.releasable_of_status_ne hstatus] at hfailed
  cases hfailed

namespace Store

variable {s s' : Store}

/-- A lease that takes nothing in error. -/
theorem tidied_lease {D S : Type} [Leasable D] [Rewritable D] [SortField S D] {now : Millis}
    {test : D → Bool} (htest : ∀ d, test d = true → Leasable.releasable d = true) {sort : Option S}
    {direction : Direction} {process : String} {r : Option D}
    (h : lease now test sort direction process s = .ok (r, s')) : s.Tidied s' := by
  obtain ⟨ds, hds, ⟨-, -, rfl⟩ | ⟨d, hleast, -, rfl⟩⟩ := lease_eq_ok.1 h
  · exact .refl _
  · obtain ⟨hmem, hpasses⟩ := List.mem_filter.1 (least?_mem hleast)
    obtain ⟨text, hdecode⟩ := exists_decode_of_mem hds hmem
    obtain ⟨d', hd'⟩ := Rewritable.exists_decode_withHolder hdecode (some process)
    rw [Bool.and_eq_true] at hpasses
    -- who holds the document does not matter to whether it is released
    refine tidied_put (tidy_encode ⟨d', hd'⟩ fun hfailed => ?_)
    rw [Rewritable.releasable_withHolder, htest d hpasses.2] at hfailed
    cases hfailed

/-- Giving a lease back leaves the store tidied. -/
theorem tidied_release {D : Type} [Leasable D] [Rewritable D] {k process : String} {u : Unit}
    (h : release D k process s = .ok (u, s')) : s.Tidied s' := by
  obtain ⟨d, hd, -, rfl⟩ := release_eq_ok.1 h
  obtain ⟨text, -, hdecode⟩ := document?_eq_ok_some.1 hd
  refine tidied_put ?_
  rw [LawfulLeasable.key_withHolder]
  exact tidy_withHolder_none hdecode

/-- A cascade that sends no task to the error state leaves the store tidied. -/
theorem tidied_cascade {job : String} {sources : List TaskStatus} {target : TaskStatus}
    (htarget : target ≠ .error) {n : Nat} (h : Task.cascade job sources target s = .ok (n, s')) :
    s.Tidied s' := by
  obtain ⟨ts, hts, -, rfl⟩ := Task.cascade_eq_ok.1 h
  refine tidied_putAll fun t' ht' => ?_
  obtain ⟨t, ht, rfl⟩ := List.mem_map.1 ht'
  obtain ⟨text, hdecode⟩ := exists_decode_of_mem hts (List.mem_filter.1 ht).1
  exact Task.tidy_of_status_ne hdecode rfl htarget

/-- The cascade of a settlement leaves the store tidied. -/
theorem tidied_cascadeOf {status : JobStatus} {job : String} {n : Nat}
    (h : status.cascade job s = .ok (n, s')) : s.Tidied s' := by
  cases status with
  | pausing => exact tidied_cascade (show TaskStatus.pausing ≠ .error by decide) h
  | resuming => exact tidied_cascade (show TaskStatus.scheduled ≠ .error by decide) h
  | terminating => exact tidied_cascade (show TaskStatus.terminating ≠ .error by decide) h
  | scheduled | running | paused | completed | terminated | error =>
    obtain ⟨-, rfl⟩ := pure_eq_ok.1 h
    exact .refl _

/-- A change of a job's status leaves the store tidied, unless it is to the error state. -/
theorem tidied_changeJob {target : JobStatus} (htarget : target ≠ .error) {now : Millis}
    {caller : Caller} {k : String} {r : Job}
    (h : Job.change now caller k { status := some target } s = .ok (r, s')) : s.Tidied s' := by
  obtain ⟨j, j', -, -, happly, rfl, -⟩ := Job.change_eq_ok.1 h
  rw [Job.apply_status] at happly
  have hstatus := Job.status_of_applyStatus (liftM_eq_ok.1 happly).1
  exact tidied_put (Job.tidy_of_status_ne (hstatus ▸ htarget))

/-- A change of a task's status leaves the store tidied, unless it is to the error state. -/
theorem tidied_changeTask {target : TaskStatus} (htarget : target ≠ .error) {now : Millis}
    {caller : Caller} {k : String} {r : Task}
    (h : Task.change now caller k { status := some target } s = .ok (r, s')) : s.Tidied s' := by
  obtain ⟨t, t', ht, -, happly, rfl, -⟩ := Task.change_eq_ok.1 h
  rw [Task.apply_status] at happly
  obtain ⟨text, -, hdecode⟩ := document?_eq_ok_some.1 ht
  exact tidied_put (Task.tidy_of_status_ne hdecode (Task.qualities_applyStatus happly)
    (Task.status_of_applyStatus happly ▸ htarget))

end Store

/-! ## Settlements -/

namespace JobSettlement

/-- The settlement is not going to move the job to an error. -/
def Phase.Orderly : Phase → Prop
  | .cascading target | .changing target => target ≠ .error
  | .releasing | .finished => True

variable {j : JobSettlement}

/-- A settlement of a job starts out orderly. -/
theorem orderly_start : j.start.Orderly := by
  unfold start
  split
  case h_1 target h => exact (JobStatus.settled?_of_settled h).2.1
  case h_2 => trivial

/-- It stays orderly from one transaction to the next. -/
theorem orderly_step {phase : Phase} (h : phase.Orderly) (now : Millis) (s : Store) :
    (j.step now s phase).1.Orderly := by
  cases phase with
  | cascading target =>
    rw [step]
    rcases commit_cases (j.status.cascade j.job) s with ⟨n, s', -, hcommit⟩ | ⟨e, -, hcommit⟩
    · rw [hcommit]
      exact h
    · rw [hcommit]
      trivial
  | changing target => trivial
  | releasing => trivial
  | finished => trivial

/-- No transaction of an orderly settlement makes a document untidy. -/
theorem step_tidied {phase : Phase} (h : phase.Orderly) (now : Millis) (s : Store) :
    s.Tidied (j.step now s phase).2 := by
  cases phase with
  | cascading target =>
    have hcascade : s.Tidied ((j.status.cascade j.job).commit s).2 :=
      tidied_commit fun _ _ hok => tidied_cascadeOf hok
    rw [step]
    -- the cascade is tidied whether the settlement goes on behind it or gives up
    rcases commit_cases (j.status.cascade j.job) s with ⟨n, s', -, hcommit⟩ | ⟨e, -, hcommit⟩
    · rw [hcommit] at hcascade ⊢
      exact hcascade
    · rw [hcommit]
      exact .refl s
  | changing target => exact tidied_commit fun _ _ hok => tidied_changeJob h hok
  | releasing => exact tidied_commit fun _ _ hok => tidied_release hok
  | finished => exact .refl s

end JobSettlement

namespace TaskSettlement

/-- The settlement is not going to move the task to an error. -/
def Phase.Orderly : Phase → Prop
  | .changing target => target ≠ .error
  | .releasing | .finished => True

variable {t : TaskSettlement}

/-- A settlement of a task starts out orderly. -/
theorem orderly_start : t.start.Orderly := by
  unfold start TaskStatus.settled?
  cases t.status <;> first | trivial | exact TaskStatus.noConfusion

/-- It stays orderly from one transaction to the next. -/
theorem orderly_step {phase : Phase} (now : Millis) (s : Store) :
    (t.step now s phase).1.Orderly := by
  cases phase <;> trivial

/-- No transaction of an orderly settlement of a task makes a document untidy. -/
theorem step_tidied {phase : Phase} (h : phase.Orderly) (now : Millis) (s : Store) :
    s.Tidied (t.step now s phase).2 := by
  cases phase with
  | changing target => exact tidied_commit fun _ _ hok => tidied_changeTask h hok
  | releasing => exact tidied_commit fun _ _ hok => tidied_release hok
  | finished => exact .refl s

end TaskSettlement

/-! ## Leases for settlements -/

/-- What is to be settled is not in error. -/
theorem Job.releasable_of_passes {status : JobStatus} (hstatus : status ∈ JobStatus.transitional)
    {j : Job} (hj : j.passes [.status status] = true) : Leasable.releasable j = true := by
  obtain ⟨target, htarget⟩ := JobStatus.mem_transitional.1 hstatus
  exact releasable_of_status_ne (passes_status.1 hj ▸ (JobStatus.settled?_of_settled htarget).2.2)

/-- A task in a transitional state is without an error, so it is released. -/
theorem Task.releasable_of_passes {status : TaskStatus} (hstatus : status ∈ TaskStatus.transitional)
    {t : Task} (ht : t.passes [.status status] = true) : Leasable.releasable t = true := by
  have hne : status ≠ .error := by
    rintro rfl
    revert hstatus
    decide
  exact releasable_of_status_ne (passes_status.1 ht ▸ hne)

namespace Store

/-- Leasing a job for its settlement leaves the store tidied: transitional jobs only are leased. -/
theorem tidied_leaseJobForSettlement {status : JobStatus}
    (hstatus : status ∈ JobStatus.transitional) (now : Millis) (process : String) (s : Store) :
    s.Tidied (leaseJobForSettlement now process status s).2 := by
  have hlease : s.Tidied ((Job.leaseFirst now [.status status] (some .creationTime) .ascending
      process).commit s).2 :=
    tidied_commit fun _ _ hok => tidied_lease (fun _ => Job.releasable_of_passes hstatus) hok
  rw [leaseJobForSettlement]
  generalize
    (Job.leaseFirst now [.status status] (some .creationTime) .ascending process).commit s =
    answer at hlease
  obtain ⟨e | none | j, s'⟩ := answer
  · exact hlease
  · exact hlease
  · exact hlease

/-- Leasing a task for its settlement leaves the store tidied: transitional tasks only are leased.
-/
theorem tidied_leaseTaskForSettlement {status : TaskStatus}
    (hstatus : status ∈ TaskStatus.transitional) (now : Millis) (process : String) (s : Store) :
    s.Tidied (leaseTaskForSettlement now process status s).2 := by
  have hlease : s.Tidied ((Task.leaseFirst now [.status status] (some .creationTime) .ascending
      process).commit s).2 :=
    tidied_commit fun _ _ hok => tidied_lease (fun _ => Task.releasable_of_passes hstatus) hok
  rw [leaseTaskForSettlement]
  generalize
    (Task.leaseFirst now [.status status] (some .creationTime) .ascending process).commit s =
    answer at hlease
  obtain ⟨e | none | t, s'⟩ := answer
  · exact hlease
  · exact hlease
  · exact hlease

end Store

end Fleet
