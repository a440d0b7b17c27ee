import Fleet.Proofs.Settlement.Crash

/-!
# Settling twice

A maintainer may settle what it has settled before, and what it knows of the document may be out of
date. What a settlement makes of a document does not depend on that: it moves the document where the
status that the maintainer knows settles, if the document may go there, and takes the lease back, if
the maintainer holds it (`JobSettlement.concluded`, `TaskSettlement.concluded`). A document that has
moved has the status already, or may still not go there; a document that has been given back is held
by somebody else or by nobody. So the second settlement changes nothing
(`settling_twice_is_settling_once`).
-/

set_option autoImplicit false

namespace Fleet

open Document (key)
open Store Transaction

/-! ## Moving twice -/

namespace Job

variable {target : JobStatus} {now : Millis} {j : Job}

/-- A job that has the status already makes no move. -/
theorem moved_of_status_eq (h : j.status = target) (now : Millis) : j.moved target now = j :=
  moved_of_ok (if_pos h)

/-- Nor does one that may not have it. -/
theorem moved_of_not_canBecome (hne : j.status ≠ target) (hcan : j.status.canBecome target = false)
    (now : Millis) : j.moved target now = j := by
  have hrefused : j.applyStatus target now = .error (j.cannotBecome target) := by
    rw [applyStatus, if_neg hne, hcan]
    rfl
  rw [moved, hrefused]

/-- One that may have it moves to it. -/
theorem status_moved_of_canBecome (hne : j.status ≠ target)
    (hcan : j.status.canBecome target = true)
    (now : Millis) : (j.moved target now).status = target := by
  obtain ⟨j', htaken, hstatus⟩ : ∃ j', j.applyStatus target now = .ok j' ∧ j'.status = target := by
    rw [applyStatus, if_neg hne, if_pos hcan]
    exact ⟨_, rfl, rfl⟩
  rw [moved_of_ok htaken, hstatus]

/-- A job that has moved has the status, or it was refused and is refused again. -/
theorem moved_moved (target : JobStatus) (now later : Millis) (j : Job) :
    (j.moved target now).moved target later = j.moved target now := by
  by_cases hsame : j.status = target
  · rw [moved_of_status_eq hsame, moved_of_status_eq hsame]
  · cases hcan : j.status.canBecome target with
    | true => rw [moved_of_status_eq (status_moved_of_canBecome hsame hcan now)]
    | false => rw [moved_of_not_canBecome hsame hcan, moved_of_not_canBecome hsame hcan]

end Job

namespace Task

variable {target : TaskStatus} {now : Millis} {t : Task}

/-- A task that has the status already makes no move. -/
theorem moved_of_status_eq (h : t.status = target) (now : Millis) : t.moved target now = t :=
  moved_of_ok (if_pos h)

/-- Nor does one that may not have it. -/
theorem moved_of_not_canBecome (hne : t.status ≠ target) (hcan : t.status.canBecome target = false)
    (now : Millis) : t.moved target now = t := by
  have hrefused : t.applyStatus target now = .error (t.cannotBecome target) := by
    rw [applyStatus, if_neg hne, hcan]
    rfl
  rw [moved, hrefused]

/-- One that may have it moves to it. -/
theorem status_moved_of_canBecome (hne : t.status ≠ target)
    (hcan : t.status.canBecome target = true)
    (now : Millis) : (t.moved target now).status = target := by
  obtain ⟨t', htaken, hstatus⟩ : ∃ t', t.applyStatus target now = .ok t' ∧ t'.status = target := by
    rw [applyStatus, if_neg hne, if_pos hcan]
    exact ⟨_, rfl, rfl⟩
  rw [moved_of_ok htaken, hstatus]

/-- A task that has moved has the status, or it was refused and is refused again. -/
theorem moved_moved (target : TaskStatus) (now later : Millis) (t : Task) :
    (t.moved target now).moved target later = t.moved target now := by
  by_cases hsame : t.status = target
  · rw [moved_of_status_eq hsame, moved_of_status_eq hsame]
  · cases hcan : t.status.canBecome target with
    | true => rw [moved_of_status_eq (status_moved_of_canBecome hsame hcan now)]
    | false => rw [moved_of_not_canBecome hsame hcan, moved_of_not_canBecome hsame hcan]

end Task

/-! ## Following a job that settles nowhere -/

/-- A job that does not settle is followed by no task. -/
theorem JobStatus.follow_of_settled?_eq_none {status : JobStatus} (h : status.settled? = none)
    (t : TaskStatus) : status.follow t = t := by
  cases status with
  | pausing | resuming | terminating => cases h
  | _ => rfl

/-- Where a job is in no transitional status its tasks stay as they are. -/
theorem Task.followIf_of_settled?_eq_none {status : JobStatus} (h : status.settled? = none)
    (job : String) (t : Task) : t.followIf job status = t := by
  rw [followIf, follow, JobStatus.follow_of_settled?_eq_none h, ite_self]

/-! ## Giving back twice -/

section

variable {D : Type} [Leasable D] [LawfulLeasable D]

/-- What need not be moved twice, whoever holds it, need not be moved and given back twice. -/
theorem unhold_move_twice {move again : D → D} (hagain : ∀ d, again (move d) = move d)
    (hholder : ∀ d, again (Leasable.withHolder none d) = Leasable.withHolder none (again d))
    (process : String) (d : D) :
    unhold process (again (unhold process (move d))) = unhold process (move d) := by
  by_cases hheld : Leasable.holder (move d) = some process
  · have hgiven : unhold process (move d) = Leasable.withHolder none (move d) := if_pos hheld
    have hfree : Leasable.holder (Leasable.withHolder none (move d)) ≠ some process := by
      rw [LawfulLeasable.holder_withHolder]
      exact nofun
    rw [hgiven, hholder, hagain]
    exact if_neg hfree
  · have hkept : unhold process (move d) = move d := if_neg hheld
    rw [hkept, hagain, hkept]

end

/-! ## What a settlement makes of its document -/

namespace JobSettlement

variable {s : Store}

/-- The job where the status settles, if the job may go there and if it settles at all, and given
back. -/
def concluded (x : JobSettlement) (now : Millis) (j : Job) : Job :=
  unhold x.process (match x.status.settled? with
    | some target => j.moved target now
    | none => j)

/-- What has been concluded has nothing left to conclude, at whatever time. -/
theorem concluded_concluded (x : JobSettlement) (now later : Millis) (j : Job) :
    x.concluded later (x.concluded now j) = x.concluded now j := by
  unfold concluded
  cases x.status.settled? with
  | some target =>
    exact unhold_move_twice (Job.moved_moved target now later)
      (fun i => Job.moved_withHolder target later i none) x.process j
  | none => exact unhold_move_twice (fun _ => rfl) (fun _ => rfl) x.process j

/-- Concluding keeps the id of a job. -/
theorem key_concluded (x : JobSettlement) (now : Millis) (j : Job) :
    key (x.concluded now j) = key j := by
  unfold concluded
  rw [key_unhold]
  cases x.status.settled? with
  | some target => exact (Job.tended_moved target now j).id
  | none => rfl

/-- What a settlement comes to, whether it does what it is for or is abandoned. -/
theorem rewrites_settle_concluded (hs : s.Regular) (x : JobSettlement) (now : Millis) :
    Rewrites (changeAt x.job (x.concluded now)) (Task.followIf x.job x.status) s
      (x.settle now s) := by
  have hadvance := rewrites_advance hs x now 3 x.start
  cases htarget : x.status.settled? with
  | some target =>
    rw [start_eq_cascading htarget] at hadvance
    rw [settle, start_eq_cascading htarget]
    refine hadvance.congr (fun _ j _ => ?_) fun _ t _ => tasksAfter_of_pos (by decide)
    show changeAt x.job (unhold x.process) (changeAt x.job (Job.moved target now) j) = _
    rw [changeAt_changeAt fun i => (Job.tended_moved target now i).id]
    unfold concluded
    rw [htarget]
  -- where nothing settles the lease is given back only
  | none =>
    have hstart : x.start = .releasing := by rw [start, htarget]
    rw [hstart] at hadvance
    rw [settle, hstart]
    refine hadvance.congr (fun _ j _ => ?_) fun _ t _ =>
      (Task.followIf_of_settled?_eq_none htarget x.job t).symm
    show changeAt x.job (unhold x.process) j = _
    unfold concluded
    rw [htarget]

/-- **Settling a job twice is settling it once**, in a regular store. -/
theorem settle_settle (hs : s.Regular) (x : JobSettlement) (now later : Millis) :
    x.settle later (x.settle now s) = x.settle now s := by
  have honce := rewrites_settle_concluded hs x now
  have htwice := honce.trans (rewrites_settle_concluded honce.regular x later)
  refine (htwice.congr (fun _ j _ => ?_) fun _ t _ =>
    Task.followIf_followIf x.job x.status t).unique
    hs honce
  rw [changeAt_changeAt (x.key_concluded now)]
  simp only [concluded_concluded]

end JobSettlement

namespace TaskSettlement

variable {s : Store}

/-- The task where the status settles, if the task may go there and if it settles at all, and given
back. -/
def concluded (x : TaskSettlement) (now : Millis) (t : Task) : Task :=
  unhold x.process (match x.status.settled? with
    | some target => t.moved target now
    | none => t)

/-- A task that has been concluded has nothing left to conclude. -/
theorem concluded_concluded (x : TaskSettlement) (now later : Millis) (t : Task) :
    x.concluded later (x.concluded now t) = x.concluded now t := by
  unfold concluded
  cases x.status.settled? with
  | some target =>
    exact unhold_move_twice (Task.moved_moved target now later)
      (fun u => Task.moved_withHolder target later u none) x.process t
  | none => exact unhold_move_twice (fun _ => rfl) (fun _ => rfl) x.process t

/-- Concluding keeps the id of a task. -/
theorem key_concluded (x : TaskSettlement) (now : Millis) (t : Task) :
    key (x.concluded now t) = key t := by
  unfold concluded
  rw [key_unhold]
  cases x.status.settled? with
  | some target => exact (Task.tended_moved target now t).id
  | none => rfl

/-- What a settlement comes to, whether it does what it is for or is abandoned. -/
theorem maps_settle_concluded (hs : s.Regular) (x : TaskSettlement) (now : Millis) :
    Maps (changeAt x.task (x.concluded now)) s (x.settle now s) := by
  cases htarget : x.status.settled? with
  | some target =>
    have hchange := hs.maps_changeTask now x.task target
    have hrelease := (hchange.regular hs).maps_release (D := Task) x.task x.process
    rw [settle, start_eq_changing htarget]
    refine (hchange.trans hrelease).congr fun _ t _ => ?_
    rw [changeAt_changeAt fun u => (Task.tended_moved target now u).id]
    unfold concluded
    rw [htarget]
  -- where nothing settles the lease is given back only
  | none =>
    have hstart : x.start = .releasing := by rw [start, htarget]
    rw [settle, hstart]
    refine (hs.maps_release x.task x.process).congr fun _ t _ => ?_
    unfold concluded
    rw [htarget]

/-- **Settling a task twice is settling it once**, in a regular store. -/
theorem settle_settle (hs : s.Regular) (x : TaskSettlement) (now later : Millis) :
    x.settle later (x.settle now s) = x.settle now s := by
  have honce := maps_settle_concluded hs x now
  have htwice := honce.trans (maps_settle_concluded (honce.regular hs) x later)
  have hsame : ∀ t, changeAt x.task (x.concluded later) (changeAt x.task (x.concluded now) t) =
      changeAt x.task (x.concluded now) t := fun t => by
    rw [changeAt_changeAt (x.key_concluded now)]
    simp only [concluded_concluded]
  exact ((htwice.congr fun _ t _ => hsame t).rewrites_tasks hs).unique hs (honce.rewrites_tasks hs)

end TaskSettlement

/-! ## The result -/

/-- **Settling twice is settling once**, in a faithful store with every document at home. Whatever a
maintainer knows of a job or of a task, in a status that settles or in another one, and whatever has
become of the document and of its lease since, settling it again leaves the store as the first
settlement left it. -/
theorem settling_twice_is_settling_once {s : Store} (hs : s.Faithful) (hhome : s.Homed)
    (now later : Millis) :
    (∀ x : JobSettlement, x.settle later (x.settle now s) = x.settle now s) ∧
      ∀ x : TaskSettlement, x.settle later (x.settle now s) = x.settle now s :=
  ⟨fun x => x.settle_settle (hs.regular hhome) now later,
    fun x => x.settle_settle (hs.regular hhome) now later⟩

/-- The job pauses, and the maintainer, which does not hold it any more, knows it as terminating. -/
theorem settling_twice_is_settling_once_outdated :
    BrokenOff.store.Faithful ∧ BrokenOff.store.Homed ∧
      let x : JobSettlement := ⟨"q", "j", .terminating⟩
      x.settle 9 (x.settle 5 BrokenOff.store) = x.settle 5 BrokenOff.store :=
  ⟨BrokenOff.regular.faithful, BrokenOff.regular.homed,
    (settling_twice_is_settling_once BrokenOff.regular.faithful BrokenOff.regular.homed 5 9).1 _⟩

/-- That no document has strayed is needed. The task that strayed is found in its old status by the
second settlement too, and written over what the first one left in its place. -/
theorem settling_twice_shows_where_tasks_strayed :
    Strays.store.Faithful ∧
      let x : JobSettlement := ⟨"p", "j", .pausing⟩
      x.settle 5 (x.settle 5 Strays.store) ≠ x.settle 5 Strays.store := by
  refine ⟨Strays.faithful_store, fun heq => Strays.doubled_ne ?_⟩
  have honce : (JobSettlement.settle 5 ⟨"p", "j", .pausing⟩ Strays.store).table .tasks = _ :=
    (JobSettlement.tasks_settle rfl 5 _).trans (Strays.tasks_cascade_scheduled Strays.table_store)
  have htwice : (JobSettlement.settle 5 ⟨"p", "j", .pausing⟩
      (JobSettlement.settle 5 ⟨"p", "j", .pausing⟩ Strays.store)).table .tasks = _ :=
    (JobSettlement.tasks_settle rfl 5 _).trans (Strays.tasks_cascade_pausing honce)
  rw [← honce, ← htwice, heq]

end Fleet
