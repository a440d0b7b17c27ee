import Fleet.Operation
import Fleet.Proofs.Job.Table
import Fleet.Proofs.Process.Table
import Fleet.Proofs.Task.Table

/-!
# Accesses

All that ever happens to a store is that transactions are committed on it, and only some of them
write. An `Access` is one of these as data, and a store that accesses lead to from another one may be
reached by any number of them in any order, whoever makes them and whatever the clocks say
(`Store.Leads`, `Store.Reachable`). The accesses of all operations at once may be interleaved at
will in such a run.

What holds of the empty store and is kept by every access holds of every reachable store; that
stores are well-formed is the first such thing.
-/

set_option autoImplicit false

namespace Fleet

/-- A transaction that may write, as data. -/
inductive Access where
  | putDataset (d : Dataset)
  | putModule (m : Module)
  | putProcess (p : Process)
  | createProcess (id : String) (new : NewProcess)
  | claimOrdinal (id : String) (ordinal : UInt32)
  | recordKeepalive (id : String)
  | setProcessStatus (id : String) (status : ProcessStatus)
  | terminateStale (cutoff : Millis)
  | createJob (id : String) (caller : Caller) (new : NewJob)
  | updateJob (caller : Caller) (id : String) (u : JobUpdate)
  | leaseJob (filters : List JobFilter) (sort : Option JobSort) (direction : Direction)
      (process : String)
  | releaseJob (id process : String)
  | appendModel (id model : String)
  | createTask (caller : Caller) (new : NewTask)
  | updateTask (caller : Caller) (id : String) (u : TaskUpdate)
  | leaseTask (filters : List TaskFilter) (sort : Option TaskSort) (direction : Direction)
      (process : String)
  | releaseTask (id process : String)
  | cascade (job : String) (sources : List TaskStatus) (target : TaskStatus)
  | releaseHeld (c : Collection) (process : String)

namespace Access

open Transaction

/-- The transaction of an access, with what it replies. -/
def transaction (now : Millis) : Access → Transaction Reply
  | putDataset d => (fun _ => .done) <$> put d
  | putModule m => (fun _ => .done) <$> put m
  | putProcess p => (fun _ => .done) <$> put p
  | createProcess id new => .process <$> Process.create now id new
  | claimOrdinal id ordinal => .process <$> Process.claimOrdinal now id ordinal
  | recordKeepalive id => .process <$> Process.keepalive now id
  | setProcessStatus id status => .process <$> Process.setStatus now id status
  | terminateStale cutoff => .foundProcess <$> Process.terminateStale now cutoff
  | createJob id caller new => .job <$> Job.create now id caller new
  | updateJob caller id u => .job <$> Job.change now caller id u
  | leaseJob filters sort direction process =>
    .foundJob <$> Job.leaseFirst now filters sort direction process
  | releaseJob id process => (fun _ => .done) <$> release Job id process
  | appendModel id model => .changed <$> Job.appendModel id model
  | createTask caller new => .task <$> Task.create now caller new
  | updateTask caller id u => .task <$> Task.change now caller id u
  | leaseTask filters sort direction process =>
    .foundTask <$> Task.leaseFirst now filters sort direction process
  | releaseTask id process => (fun _ => .done) <$> release Task id process
  | cascade job sources target => .count <$> Task.cascade job sources target
  | releaseHeld c process => .count <$> releaseIn c process

/-- The collection whose documents an access writes. -/
def collection : Access → Collection
  | putDataset _ => .datasets
  | putModule _ => .modules
  | putProcess _ | createProcess _ _ | claimOrdinal _ _ | recordKeepalive _ | setProcessStatus _ _
  | terminateStale _ => .processes
  | createJob _ _ _ | updateJob _ _ _ | leaseJob _ _ _ _ | releaseJob _ _ | appendModel _ _ => .jobs
  | createTask _ _ | updateTask _ _ _ | leaseTask _ _ _ _ | releaseTask _ _ | cascade _ _ _ =>
    .tasks
  | releaseHeld c _ => c

/-- The answer to an access that is made at a time on a store. -/
def answer (now : Millis) (a : Access) (s : Store) : Except StateError Reply :=
  ((a.transaction now).commit s).1

/-- The store behind an access. -/
def after (now : Millis) (a : Access) (s : Store) : Store := ((a.transaction now).commit s).2

variable {now : Millis} {a : Access} {s s' : Store}

/-- An access succeeds, or changes nothing. -/
theorem after_cases (now : Millis) (a : Access) (s : Store) :
    (∃ r, a.transaction now s = .ok (r, a.after now s) ∧ a.answer now s = .ok r) ∨
      (a.after now s = s ∧ ∃ e, a.answer now s = .error e) := by
  unfold after answer
  rcases commit_cases (a.transaction now) s with ⟨r, s', hok, hcommit⟩ | ⟨e, -, hcommit⟩
  · rw [hcommit]
    exact .inl ⟨r, hok, rfl⟩
  · rw [hcommit]
    exact .inr ⟨rfl, e, rfl⟩

/-- The store behind an access that comes to an end. -/
theorem after_eq_of_ok {r : Reply} (h : a.transaction now s = .ok (r, s')) :
    a.after now s = s' := by
  rw [after, commit_eq_ok.2 h]

/-- What holds where nothing happens and behind every success holds behind an access. -/
theorem after_induction {P : Store → Prop} (hstay : P s)
    (hok : ∀ r s', a.transaction now s = .ok (r, s') → P s') : P (a.after now s) := by
  rcases after_cases now a s with ⟨r, hr, -⟩ | ⟨hs, -⟩
  · exact hok r _ hr
  · rw [hs]
    exact hstay

end Access

/-! ## What an access may write -/

namespace Store

/-- Documents of one collection were written, and numbers drawn if it is that of the processes. -/
inductive Edits (c : Collection) (s : Store) : Store → Prop where
  | refl : Edits c s s
  | put {s' : Store} {D : Type} [Document D] [Filed D] (d : D) (hc : Document.collection D = c) :
    Edits c s s' → Edits c s (s'.put d)
  | draw {s' : Store} (claim : UInt64) (hc : Collection.processes = c) :
    Edits c s s' → Edits c s (Process.drawn s' claim)

variable {c : Collection} {s s' : Store}

/-- Documents that are written one behind the other. -/
theorem Edits.putAll {D : Type} [Document D] [Filed D] (hc : Document.collection D = c)
    (h : Edits c s s') (ds : List D) : Edits c s (s'.putAll ds) := by
  induction ds generalizing s' with
  | nil => exact h
  | cons d ds ih => exact ih (.put d hc h)

/-- Whatever is written is written under its own key. -/
theorem Edits.wellFormed (h : Edits c s s') (hs : s.WellFormed) : s'.WellFormed := by
  induction h with
  | refl => exact hs
  | put d _ _ ih => exact ih.put d
  | draw claim _ _ ih => exact ih.of_table fun _ => Process.table_drawn _ claim _

/-- The other tables are as they were. -/
theorem Edits.table_of_ne (h : Edits c s s') {c' : Collection} (hne : c ≠ c') :
    s'.table c' = s.table c' := by
  induction h with
  | refl => rfl
  | put d hc _ ih =>
    subst hc
    rw [table_put_of_ne _ d hne, ih]
  | draw claim _ _ ih => rw [Process.table_drawn, ih]

/-- Numbers are drawn for processes only. -/
theorem Edits.ordinalClaims_of_ne (h : Edits c s s') (hne : c ≠ .processes) :
    s'.ordinalClaims = s.ordinalClaims := by
  induction h with
  | refl => rfl
  | put d _ _ ih => rw [ordinalClaims_put, ih]
  | draw claim hc => exact absurd hc.symm hne

end Store

namespace Access

open Transaction

variable {now : Millis} {a : Access} {s s' : Store}

/-- What is replied to a transaction does not matter to what it does. -/
theorem of_map_eq_ok {α : Type} {P : Prop} {t : Transaction α} {f : α → Reply} {r : Reply}
    (h : (f <$> t) s = .ok (r, s')) (ht : ∀ a, t s = .ok (a, s') → P) : P := by
  obtain ⟨a, hok, -⟩ := map_eq_ok.1 h
  exact ht a hok

/-- Putting a document writes it. -/
theorem edits_put {D : Type} [Document D] [Filed D] {d : D} {u : Unit}
    (h : put d s = .ok (u, s')) : s.Edits (Document.collection D) s' := by
  obtain rfl := put_eq_ok.1 h
  exact .put d rfl .refl

section Leased

variable {D : Type} [Leasable D] [Filed D]

/-- A lease writes the document that it takes, with its holder. -/
theorem edits_lease {S : Type} [SortField S D] {test : D → Bool} {sort : Option S}
    {direction : Direction} {process : String} {r : Option D}
    (h : lease now test sort direction process s = .ok (r, s')) :
    s.Edits (Document.collection D) s' := by
  obtain ⟨ds, -, ⟨-, -, rfl⟩ | ⟨d, -, -, rfl⟩⟩ := lease_eq_ok.1 h
  · exact .refl
  · exact .put _ rfl .refl

/-- Giving back one document writes it without its holder. -/
theorem edits_release {k process : String} {u : Unit} (h : release D k process s = .ok (u, s')) :
    s.Edits (Document.collection D) s' := by
  obtain ⟨d, -, -, rfl⟩ := release_eq_ok.1 h
  exact .put (Leasable.withHolder none d) rfl .refl

/-- Giving back writes the documents without their holder. -/
theorem edits_releaseHeld {process : String} {n : Nat}
    (h : Transaction.releaseHeld D process s = .ok (n, s')) :
    s.Edits (Document.collection D) s' := by
  obtain ⟨ds, -, -, rfl⟩ := releaseHeld_eq_ok.1 h
  exact .putAll rfl .refl _

end Leased

/-- Releasing a collection writes that collection only. -/
theorem edits_releaseIn {c : Collection} {process : String} {n : Nat}
    (h : releaseIn c process s = .ok (n, s')) : s.Edits c s' := by
  cases c with
  | processes =>
    obtain ⟨-, rfl⟩ := pure_eq_ok.1 h
    exact .refl
  | jobs => exact edits_releaseHeld h
  | tasks => exact edits_releaseHeld h
  | datasets => exact edits_releaseHeld h
  | modules => exact edits_releaseHeld h

section Processes

variable {id : String} {p : Process}

/-- A new process is written behind the number that was drawn for it. -/
theorem edits_createProcess {new : NewProcess} (h : Process.create now id new s = .ok (p, s')) :
    s.Edits .processes s' := by
  obtain ⟨claim, -, -, -, rfl⟩ := Process.create_eq_ok.1 h
  exact .put p rfl (.draw claim rfl .refl)

/-- So is a process that claims an ordinal. -/
theorem edits_claimOrdinal {ordinal : UInt32}
    (h : Process.claimOrdinal now id ordinal s = .ok (p, s')) :
    s.Edits .processes s' := by
  obtain ⟨_, claim, -, -, -, rfl⟩ := Process.claimOrdinal_eq_ok.1 h
  exact .put p rfl (.draw claim rfl .refl)

/-- A sign of life writes the process that gives it. -/
theorem edits_keepalive (h : Process.keepalive now id s = .ok (p, s')) : s.Edits .processes s' := by
  obtain ⟨_, -, -, rfl⟩ := Process.keepalive_eq_ok.1 h
  exact .put p rfl .refl

/-- A change of status writes the process whose status it is. -/
theorem edits_setStatus {status : ProcessStatus}
    (h : Process.setStatus now id status s = .ok (p, s')) :
    s.Edits .processes s' := by
  obtain ⟨_, -, -, rfl⟩ := Process.setStatus_eq_ok.1 h
  exact .put p rfl .refl

/-- A look for a stale process writes the one that it terminates, if there is one. -/
theorem edits_terminateStale {cutoff : Millis} {found : Option Process}
    (h : Process.terminateStale now cutoff s = .ok (found, s')) : s.Edits .processes s' := by
  obtain ⟨_, -, ⟨-, -, rfl⟩ | ⟨_, -, -, rfl⟩⟩ := Process.terminateStale_eq_ok.1 h
  · exact .refl
  · exact .put _ rfl .refl

end Processes

section Jobs

variable {id : String} {caller : Caller} {j : Job}

/-- A new job is written. -/
theorem edits_createJob {new : NewJob} (h : Job.create now id caller new s = .ok (j, s')) :
    s.Edits .jobs s' := by
  obtain ⟨_, _, _, _, -, -, -, -, -, -, rfl, -⟩ := Job.create_eq_ok.1 h
  exact .put _ rfl .refl

/-- So is one that has changed. -/
theorem edits_changeJob {u : JobUpdate} (h : Job.change now caller id u s = .ok (j, s')) :
    s.Edits .jobs s' := by
  obtain ⟨_, j', -, -, -, rfl, -⟩ := Job.change_eq_ok.1 h
  exact .put j' rfl .refl

/-- So is one that a model is appended to, if it takes the model. -/
theorem edits_appendModel {model : String} {taken : Bool}
    (h : Job.appendModel id model s = .ok (taken, s')) : s.Edits .jobs s' := by
  obtain ⟨_, -, ⟨-, _, -, rfl⟩ | ⟨-, rfl⟩⟩ := Job.appendModel_eq_ok h
  · exact .put _ rfl .refl
  · exact .refl

end Jobs

section Tasks

variable {caller : Caller} {t : Task}

/-- A new task is written. -/
theorem edits_createTask {new : NewTask} (h : Task.create now caller new s = .ok (t, s')) :
    s.Edits .tasks s' := by
  obtain ⟨_, _, -, -, -, -, -, -, rfl, -⟩ := Task.create_eq_ok.1 h
  exact .put _ rfl .refl

/-- So is one that has changed. -/
theorem edits_changeTask {id : String} {u : TaskUpdate}
    (h : Task.change now caller id u s = .ok (t, s')) :
    s.Edits .tasks s' := by
  obtain ⟨_, t', -, -, -, rfl, -⟩ := Task.change_eq_ok.1 h
  exact .put t' rfl .refl

/-- A cascade writes the tasks that it moves. -/
theorem edits_cascade {job : String} {sources : List TaskStatus} {target : TaskStatus} {n : Nat}
    (h : Task.cascade job sources target s = .ok (n, s')) : s.Edits .tasks s' := by
  obtain ⟨_, -, -, rfl⟩ := Task.cascade_eq_ok.1 h
  exact Store.Edits.putAll (D := Task) rfl .refl _

end Tasks

/-- An access that succeeds writes documents of its collection and no others. -/
theorem edits_of_ok {r : Reply} (h : a.transaction now s = .ok (r, s')) :
    s.Edits a.collection s' := by
  cases a with
  | putDataset d => exact of_map_eq_ok h fun _ => edits_put
  | putModule m => exact of_map_eq_ok h fun _ => edits_put
  | putProcess p => exact of_map_eq_ok h fun _ => edits_put
  | createProcess id new => exact of_map_eq_ok h fun _ => edits_createProcess
  | claimOrdinal id ordinal => exact of_map_eq_ok h fun _ => edits_claimOrdinal
  | recordKeepalive id => exact of_map_eq_ok h fun _ => edits_keepalive
  | setProcessStatus id status => exact of_map_eq_ok h fun _ => edits_setStatus
  | terminateStale cutoff => exact of_map_eq_ok h fun _ => edits_terminateStale
  | createJob id caller new => exact of_map_eq_ok h fun _ => edits_createJob
  | updateJob caller id u => exact of_map_eq_ok h fun _ => edits_changeJob
  | leaseJob filters sort direction process => exact of_map_eq_ok h fun _ => edits_lease
  | releaseJob id process => exact of_map_eq_ok h fun _ => edits_release
  | appendModel id model => exact of_map_eq_ok h fun _ => edits_appendModel
  | createTask caller new => exact of_map_eq_ok h fun _ => edits_createTask
  | updateTask caller id u => exact of_map_eq_ok h fun _ => edits_changeTask
  | leaseTask filters sort direction process => exact of_map_eq_ok h fun _ => edits_lease
  | releaseTask id process => exact of_map_eq_ok h fun _ => edits_release
  | cascade job sources target => exact of_map_eq_ok h fun _ => edits_cascade
  | releaseHeld c process => exact of_map_eq_ok h fun _ => edits_releaseIn

/-- An access writes documents of its collection and no others. -/
theorem edits_after (now : Millis) (a : Access) (s : Store) :
    s.Edits a.collection (a.after now s) :=
  after_induction .refl fun _ _ h => edits_of_ok h

/-- No access makes a store ill-formed. -/
theorem wellFormed_after (hs : s.WellFormed) : (a.after now s).WellFormed :=
  (edits_after now a s).wellFormed hs

/-- An access writes documents of one type. -/
theorem table_after_of_ne {c : Collection} (hc : a.collection ≠ c) :
    (a.after now s).table c = s.table c := (edits_after now a s).table_of_ne hc

end Access

/-! ## Runs -/

namespace Store

variable {allowed : Store → Millis → Access → Prop} {s t u : Store}

/-- Accesses that are allowed where they are made lead from one store to another one. -/
inductive Leads (allowed : Store → Millis → Access → Prop) (s : Store) : Store → Prop where
  | refl : Leads allowed s s
  | step {t : Store} {now : Millis} {a : Access} : Leads allowed s t → allowed t now a →
    Leads allowed s (a.after now t)

/-- Runs of accesses can be put together. -/
theorem Leads.trans (hst : s.Leads allowed t) (htu : t.Leads allowed u) : s.Leads allowed u := by
  induction htu with
  | refl => exact hst
  | step _ ha ih => exact .step ih ha

/-- One access more. -/
theorem Leads.after (h : s.Leads allowed t) (now : Millis) (a : Access) (ha : allowed t now a) :
    s.Leads allowed (a.after now t) := .step h ha

/-- What is allowed in a run may be relaxed. -/
theorem Leads.mono {allowed' : Store → Millis → Access → Prop}
    (hmono : ∀ t now a, allowed t now a → allowed' t now a) (h : s.Leads allowed t) :
    s.Leads allowed' t := by
  induction h with
  | refl => exact .refl
  | step _ ha ih => exact .step ih (hmono _ _ _ ha)

/-- What every allowed access keeps is kept. -/
theorem Leads.induction {P : Store → Prop} (h : s.Leads allowed t) (hs : P s)
    (hstep : ∀ t now a, P t → allowed t now a → P (a.after now t)) : P t := by
  induction h with
  | refl => exact hs
  | step _ ha ih => exact hstep _ _ _ ih ha

/-- No run of accesses makes a store ill-formed. -/
theorem Leads.wellFormed (h : s.Leads allowed t) (hs : s.WellFormed) : t.WellFormed :=
  h.induction hs fun _ _ _ ht _ => Access.wellFormed_after ht

/-- Some run from the empty store leads here. -/
def Reachable (s : Store) : Prop := Leads (fun _ _ _ => True) .empty s

/-- Whatever is done from the beginning, each text is the text of a document with the key of its
place. -/
theorem Reachable.wellFormed (h : s.Reachable) : s.WellFormed := Leads.wellFormed h wellFormed_empty

/-- A run from a reachable store leads to reachable stores. -/
theorem Reachable.leads (hs : s.Reachable) (h : s.Leads allowed t) : t.Reachable :=
  Leads.trans hs (h.mono fun _ _ _ _ => trivial)

/-- An access to a reachable store leads to a reachable store. -/
theorem Reachable.after (hs : s.Reachable) (now : Millis) (a : Access) :
    (a.after now s).Reachable := .step hs trivial

end Store

end Fleet
