import Fleet.Proofs.Lease.InOrder
import Fleet.Proofs.Registry.Pass
import Fleet.Proofs.Settlement.Tidying
import Mathlib.Data.List.Pairwise

/-!
# Listing and leasing by time

Times are unsigned words of sixty-four bits, and listings compare them as signed ones. So times from
`2 ^ 63` on, the *late* ones, are listed before all others (`Millis.ListedBefore`). Otherwise
listings by a time go by the time that is stored, and so do the leases of the maintainers, which are
listings by creation time of which the first free document is taken.

`times_are_listed_late_ones_first` says so for every store that can be read. It also says when the
order is that of the times: as long as late times and others do not meet.
-/

set_option autoImplicit false

namespace Fleet

open Document (key refresh)
open Store Transaction

/-! ## Late times -/

namespace Millis

/-- A time that a signed number of sixty-four bits does not hold. -/
def IsLate (t : Millis) : Prop := 2 ^ 63 ≤ t.toNat

instance (t : Millis) : Decidable t.IsLate := inferInstanceAs (Decidable (2 ^ 63 ≤ t.toNat))

/-- Late times come first, and among the late ones and among the others the earlier ones. -/
def ListedBefore (t u : Millis) : Prop :=
  t.IsLate ∧ ¬ u.IsLate ∨ (t.IsLate ↔ u.IsLate) ∧ t.toNat ≤ u.toNat

/-- This is the order of signed numbers. -/
theorem toInt_le_iff {t u : Millis} : t.toInt64.toInt ≤ u.toInt64.toInt ↔ ListedBefore t u := by
  have hsigned (t : Millis) :
      t.toInt64.toInt = if 2 * t.toNat < 2 ^ 64 then (t.toNat : Int) else t.toNat - 2 ^ 64 :=
    BitVec.toInt_eq_toNat_cond t.toBitVec
  have ht : t.toNat < 2 ^ 64 := t.toNat_lt
  have hu : u.toNat < 2 ^ 64 := u.toNat_lt
  rw [hsigned, hsigned, ListedBefore, IsLate, IsLate]
  split <;> split <;> omega

/-- Two times that are listed one before the other are out of order exactly if only one is late. -/
theorem ListedBefore.le_iff {t u : Millis} (h : ListedBefore t u) :
    t.toNat ≤ u.toNat ↔ (t.IsLate ↔ u.IsLate) := by
  rcases h with ⟨ht, hu⟩ | ⟨hsame, hle⟩
  · exact iff_of_false (fun hle => hu (Nat.le_trans ht hle)) fun hsame => hu (hsame.1 ht)
  · exact iff_of_true hle hsame

/-- All of some times are late, or none is. -/
def Together (P : Millis → Prop) : Prop := (∀ t, P t → t.IsLate) ∨ ∀ t, P t → ¬ t.IsLate

/-- Times are together if they are on one side of the turn. -/
theorem together_iff {P : Millis → Prop} {t : Millis} (ht : P t) :
    Together P ↔ ∀ u, P u → (t.IsLate ↔ u.IsLate) := by
  constructor
  · rintro (hall | hnone) u hu
    · exact iff_of_true (hall t ht) (hall u hu)
    · exact iff_of_false (hnone t ht) (hnone u hu)
  · intro hsame
    by_cases hlate : t.IsLate
    · exact .inl fun u hu => (hsame u hu).1 hlate
    · exact .inr fun u hu hulate => hlate ((hsame u hu).2 hulate)

/-- Times as they are listed. -/
structure Listed (times : List Millis) : Prop where
  late_first : times.Pairwise ListedBefore
  chronological_iff : times.Pairwise (fun t u => t.toNat ≤ u.toNat) ↔ Together (· ∈ times)

/-- A list in which each time is listed before the next is listed by time. -/
theorem Listed.of_pairwise {times : List Millis} (h : times.Pairwise ListedBefore) :
    Listed times where
  late_first := h
  chronological_iff := by
    constructor
    · intro hle
      -- neighbours in order are on one side, and the first one has all others behind it
      have hsame : times.Pairwise fun t u => t.IsLate ↔ u.IsLate :=
        (h.and hle).imp fun ⟨hbefore, hle⟩ => hbefore.le_iff.1 hle
      cases times with
      | nil => exact .inl nofun
      | cons t times =>
        obtain ⟨hfirst, -⟩ := List.pairwise_cons.1 hsame
        exact (together_iff List.mem_cons_self).2 (List.forall_mem_cons.2 ⟨Iff.rfl, hfirst⟩)
    · intro htogether
      exact h.imp_of_mem fun ht hu hbefore => hbefore.le_iff.2 ((together_iff ht).1 htogether _ hu)

end Millis

/-! ## Sort fields that are times -/

/-- The time of a job that it is listed by, zero for a bound that is still open. -/
def JobSort.time? : JobSort → Option (Job → Millis)
  | .creationTime => some Job.creationTime
  | .runningTimeStart => some fun j => j.runningTime.start.getD 0
  | .runningTimeEnd => some fun j => j.runningTime.stop.getD 0
  | _ => none

/-- The time of a task that it is listed by. -/
def TaskSort.time? : TaskSort → Option (Task → Millis)
  | .creationTime => some Task.creationTime
  | _ => none

/-- The time of a process that it is listed by. -/
def ProcessSort.time? : ProcessSort → Option (Process → Millis)
  | .startTime => some Process.startTime
  | _ => none

/-- The values of a sort field are times of the documents, and looking at a document does not change
its time. -/
structure Timed {S D : Type} [Document D] [SortField S D] (field : S) (time : D → Millis) :
    Prop where
  value_eq : ∀ d : D, SortField.value field d = .int (time d).toInt64
  time_refresh : ∀ (now : Millis) (d : D), time (refresh now d) = time d

/-- The fields of jobs that are times order by them. -/
theorem JobSort.timed {field : JobSort} {time : Job → Millis} (h : field.time? = some time) :
    Timed field time := by
  cases field <;> cases h <;> exact ⟨fun _ => rfl, fun _ _ => rfl⟩

/-- So do those of tasks. -/
theorem TaskSort.timed {field : TaskSort} {time : Task → Millis} (h : field.time? = some time) :
    Timed field time := by
  cases field <;> cases h
  exact ⟨fun _ => rfl, fun _ _ => rfl⟩

/-- So do those of processes. -/
theorem ProcessSort.timed {field : ProcessSort} {time : Process → Millis}
    (h : field.time? = some time) :
    Timed field time := by
  cases field <;> cases h
  exact ⟨fun _ => rfl, fun _ _ => rfl⟩

section

variable {S D : Type} [Document D] [SortField S D] {field : S} {time : D → Millis} {s : Store}

/-- What is not listed after another is listed before it in time. -/
theorem Timed.listedBefore (h : Timed field time) {a b : D}
    (hle : (compareDocs (some field) .ascending a b).isLE = true) :
    (time a).ListedBefore (time b) := by
  have hvalue : ((SortField.value field a).order (SortField.value field b)).isLE = true := by
    rcases Ordering.isLE_then_iff_or.1 hle with hlt | ⟨heq, -⟩
    · have hlt : (SortField.value field a).order (SortField.value field b) = .lt := hlt
      rw [hlt]
      rfl
    · have heq : (SortField.value field a).order (SortField.value field b) = .eq := heq
      rw [heq]
      rfl
  rw [h.value_eq, h.value_eq] at hvalue
  exact Millis.toInt_le_iff.1 (Int.isLE_compare.1 hvalue)

/-! ## Listing -/

/-- Ascending listings by a field go by the times of the documents, but for late ones, which come
first. -/
def ListsByTime (list : Millis → ListQuery S → Transaction (Page D)) (test : D → Bool) (field : S)
    (time : D → Millis) (s : Store) : Prop :=
  ∃ ds : List D, s.documents D = .ok ds ∧ ∀ (now : Millis) (q : ListQuery S), q.sort = some field →
    q.direction = .ascending → (∃ start, q.position = .ok start) → ∃ page,
      (list now q).commit s = (.ok page, s) ∧ Millis.Listed (page.items.map time) ∧
      (q.limit = 0 → q.cursor = none → page.items.Perm ((ds.filter test).map (refresh now)))

/-- A listing by a field that is a time lists by time. -/
theorem listsByTime [Decoded D] (hs : s.Readable (Document.collection D)) (test : D → Bool)
    (h : Timed field time) :
    ListsByTime (fun now q => do liftM (paginate (← scan now test) q)) test field time s := by
  obtain ⟨ds, hds, hlist⟩ := exists_listed (S := S) hs test
  refine ⟨ds, hds, fun now q hsort hdirection hstart => ?_⟩
  obtain ⟨page, hpage, hsorted, hall⟩ := hlist now q hstart
  rw [hsort, hdirection] at hsorted
  exact ⟨page, hpage, .of_pairwise (List.pairwise_map.2 (hsorted.imp h.listedBefore)), hall⟩

end

/-! ## Leasing -/

section

variable {S D : Type} [Leasable D] [SortField S D] {field : S} {time : D → Millis} {test : D → Bool}
  {s : Store}

/-- The document is stored, free and passes a test. -/
structure Offered (test : D → Bool) (s : Store) (d : D) : Prop where
  stored : ∃ k, s.document? k = .ok (some d)
  free : Leasable.holder d = none
  passes : test d = true

/-- The document is the first of those on offer to be listed by time. -/
structure FirstByTime (time : D → Millis) (test : D → Bool) (s : Store) (d : D) : Prop where
  offered : Offered test s d
  late_first : ∀ e, Offered test s e → (time d).ListedBefore (time e)
  earliest_iff : (∀ e, Offered test s e → (time d).toNat ≤ (time e).toNat) ↔
    Millis.Together fun t => ∃ e, Offered test s e ∧ time e = t

/-- What comes before all others on offer is the first. -/
theorem FirstByTime.of_listedBefore {d : D} (hd : Offered test s d)
    (h : ∀ e, Offered test s e → (time d).ListedBefore (time e)) : FirstByTime time test s d where
  offered := hd
  late_first := h
  earliest_iff := by
    rw [Millis.together_iff ⟨d, hd, rfl⟩]
    constructor
    · rintro hle _ ⟨e, he, rfl⟩
      exact (h e he).le_iff.1 (hle e he)
    · intro hsame e he
      exact (h e he).le_iff.2 (hsame _ ⟨e, he, rfl⟩)

/-- A lease by time hands out a document that is first, or there is none on offer. -/
inductive LeasesByTime (now : Millis) (process : String) (time : D → Millis) (test : D → Bool)
    (s : Store) : Except StateError (Option D) × Store → Prop
  | none (h : ∀ d, ¬ Offered test s d) : LeasesByTime now process time test s (.ok none, s)
  | first {d : D} (h : FirstByTime time test s d) : LeasesByTime now process time test s
      (handedOut process now d, s.put (Leasable.withHolder (some process) d))

/-- A lease by a field that is a time takes the first one in time. -/
theorem leasesByTime [Decoded D] (hs : s.Readable (Document.collection D)) (h : Timed field time)
    (now : Millis) (process : String) (test : D → Bool) :
    LeasesByTime now process time test s
      ((lease now test (some field) .ascending process).commit s) := by
  obtain ⟨ds, hds⟩ := hs.exists_documents (D := D)
  -- what is on offer is what is free and passes
  have hoffered (d : D) :
      (d ∈ ds.filter fun d => (Leasable.holder d).isNone && test d) ↔ Offered test s d :=
    (mem_filter_free hds).trans ⟨fun ⟨hstored, hfree, hpasses⟩ => ⟨hstored, hfree, hpasses⟩,
      fun h => ⟨h.stored, h.free, h.passes⟩⟩
  cases hleast : least? (compareDocs (some field) .ascending)
      (ds.filter fun d => (Leasable.holder d).isNone && test d) with
  | none =>
    rw [commit_eq_ok.2 (lease_eq_ok.2 ⟨ds, hds, .inl ⟨hleast, rfl, rfl⟩⟩)]
    refine .none fun d hd => ?_
    have hmem := (hoffered d).2 hd
    rw [least?_eq_none.1 hleast] at hmem
    cases hmem
  | some d =>
    obtain ⟨hmem, hfirst⟩ := least?_spec hleast
    rw [commit_eq_ok.2 (lease_eq_ok.2 ⟨ds, hds, .inr ⟨d, hleast, rfl, rfl⟩⟩)]
    exact .first (.of_listedBefore ((hoffered d).1 hmem) fun e he =>
      h.listedBefore (hfirst e ((hoffered e).2 he)))

/-- Leases by time, one for each of some tests, each in the store that the ones before it leave. -/
inductive LeasedInTurn (process : String) (time : D → Millis) :
    List (D → Bool) → Store → List D → Store → Prop
  | nil {s : Store} : LeasedInTurn process time [] s [] s
  | none {test : D → Bool} {tests : List (D → Bool)} {picks : List D} {s s' : Store}
      (h : ∀ d, ¬ Offered test s d) (rest : LeasedInTurn process time tests s picks s') :
      LeasedInTurn process time (test :: tests) s picks s'
  | first {test : D → Bool} {tests : List (D → Bool)} {d : D} {picks : List D} {s s' : Store}
      (h : FirstByTime time test s d)
      (rest : LeasedInTurn process time tests
        (s.put (Leasable.withHolder (some process) d)) picks s') :
      LeasedInTurn process time (test :: tests) s (d :: picks) s'

/-- So does each of the leases of a poll. -/
theorem leasedInTurn [Rewritable D] (hs : ∀ c, s.Readable c) (h : Timed field time) (now : Millis)
    (process : String) {tests : List (D → Bool)}
    (htests : ∀ test ∈ tests, ∀ d, test d = true → Leasable.releasable d = true) :
    ∃ picks : List D, (leaseEach now (some field) process tests s).1 =
        picks.map (fun d => refresh now (Leasable.withHolder (some process) d)) ∧
      LeasedInTurn process time tests s picks (leaseEach now (some field) process tests s).2 := by
  induction tests generalizing s with
  | nil => exact ⟨[], rfl, .nil⟩
  | cons test tests ih =>
    obtain ⟨htest, htests⟩ := List.forall_mem_cons.1 htests
    have hlease := leasesByTime (hs _) h now process test
    -- nothing in error passes a test, so the next lease finds a store that can be read
    have htidied : s.Tidied ((lease now test (some field) .ascending process).commit s).2 :=
      tidied_commit fun _ _ hok => tidied_lease htest hok
    rw [leaseEach]
    generalize (lease now test (some field) .ascending process).commit s = answer at hlease htidied
    cases hlease with
    | none hnone =>
      obtain ⟨picks, hpicks, hrest⟩ := ih hs htests
      exact ⟨picks, hpicks, .none hnone hrest⟩
    | @first d hfirst =>
      obtain ⟨picks, hpicks, hrest⟩ := ih (htidied.readable hs) htests
      exact ⟨d :: picks, congrArg (_ :: ·) hpicks, .first hfirst hrest⟩

end

/-! ## The result -/

/-- Listings and leases of a store by time. -/
structure ByTime (s : Store) : Prop where
  jobs : ∀ (caller : Caller) (filters : List JobFilter) (field : JobSort) (time : Job → Millis),
    field.time? = some time → ListsByTime (fun now => Job.list now caller filters)
      (Job.isListed caller filters) field time s
  tasks : ∀ (caller : Caller) (filters : List TaskFilter) (field : TaskSort) (time : Task → Millis),
    field.time? = some time → ListsByTime (fun now => Task.list now caller filters)
      (Task.isListed caller filters) field time s
  processes : ∀ (filters : List ProcessFilter) (field : ProcessSort) (time : Process → Millis),
    field.time? = some time → ListsByTime (fun now => Process.list now filters)
      (Process.passes filters) field time s
  jobLeases : ∀ (now : Millis) (process : String) (filters : List JobFilter) (field : JobSort)
    (time : Job → Millis), field.time? = some time →
      LeasesByTime now process time (Job.passes filters) s
        ((Job.leaseFirst now filters (some field) .ascending process).commit s)
  taskLeases : ∀ (now : Millis) (process : String) (filters : List TaskFilter) (field : TaskSort)
    (time : Task → Millis), field.time? = some time →
      LeasesByTime now process time (Task.passes filters) s
        ((Task.leaseFirst now filters (some field) .ascending process).commit s)
  settledJobs : ∀ (now : Millis) (process : String),
    let leased := leaseTransitionalJobs now process JobStatus.transitional s
    ∃ picks : List Job, leased.1 = picks.map (fun j => ⟨process, j.id, j.status⟩) ∧
      LeasedInTurn process Job.creationTime
        (JobStatus.transitional.map fun status => Job.passes [.status status]) s picks leased.2
  settledTasks : ∀ (now : Millis) (process : String),
    let leased := leaseTransitionalTasks now process TaskStatus.transitional s
    ∃ picks : List Task, leased.1 = picks.map (fun t => ⟨process, t.id, t.status⟩) ∧
      LeasedInTurn process Task.creationTime
        (TaskStatus.transitional.map fun status => Task.passes [.status status]) s picks leased.2

/-- **Late times are listed first.** In a store that can be read, ascending listings of jobs, tasks
and processes by a time, page by page, have the late times before the others, and otherwise go by
the stored time; so they are chronological exactly if late times and others do not meet. Leases by a
time, and those of the maintainers by creation time, hand out a free document that comes first in
this order, which is an earliest one under the same condition. -/
theorem times_are_listed_late_ones_first {s : Store} (hs : ∀ c, s.Readable c) : ByTime s where
  jobs caller filters _ _ h :=
    listsByTime (hs .jobs) (Job.isListed caller filters) (JobSort.timed h)
  tasks caller filters _ _ h :=
    listsByTime (hs .tasks) (Task.isListed caller filters) (TaskSort.timed h)
  processes filters _ _ h :=
    listsByTime (hs .processes) (Process.passes filters) (ProcessSort.timed h)
  jobLeases now process filters _ _ h :=
    leasesByTime (hs .jobs) (JobSort.timed h) now process (Job.passes filters)
  taskLeases now process filters _ _ h :=
    leasesByTime (hs .tasks) (TaskSort.timed h) now process (Task.passes filters)
  -- a poll leases by creation time, one status after the other
  settledJobs now process := by
    have htests : ∀ test ∈ JobStatus.transitional.map fun status => Job.passes [.status status],
        ∀ j, test j = true → Leasable.releasable j = true :=
      List.forall_mem_map.2 fun _ hstatus _ => Job.releasable_of_passes hstatus
    have htimed : Timed JobSort.creationTime Job.creationTime := JobSort.timed rfl
    obtain ⟨picks, hpicks, hturn⟩ := leasedInTurn hs htimed now process htests
    rw [leaseTransitionalJobs_eq]
    refine ⟨picks, ?_, hturn⟩
    show List.map _ (leaseEach _ _ _ _ _).1 = _
    rw [hpicks, List.map_map]
    rfl
  settledTasks now process := by
    have htests : ∀ test ∈ TaskStatus.transitional.map fun status => Task.passes [.status status],
        ∀ t, test t = true → Leasable.releasable t = true :=
      List.forall_mem_map.2 fun _ hstatus _ => Task.releasable_of_passes hstatus
    have htimed : Timed TaskSort.creationTime Task.creationTime := TaskSort.timed rfl
    obtain ⟨picks, hpicks, hturn⟩ := leasedInTurn hs htimed now process htests
    rw [leaseTransitionalTasks_eq]
    refine ⟨picks, ?_, hturn⟩
    show List.map _ (leaseEach _ _ _ _ _).1 = _
    rw [hpicks, List.map_map]
    rfl

namespace Queue

/-- A job of now, and one of the first late moment. -/
def soon : Job := { Workbench.job with id := "a" }

def late : Job := { Workbench.job with id := "b", creationTime := 0x8000000000000000 }

def drawnOut : Store := (Store.empty.put soon).put late

/-- The store of the example is regular. -/
theorem drawnOut_regular : drawnOut.Regular :=
  (regular_empty.put (LawfulDocument.decode_encode soon)).put (LawfulDocument.decode_encode late)

/-- The earlier job is in it. -/
theorem drawnOut_has_soon : drawnOut.Has soon :=
  (has_put_of_ne (by decide)).2 (has_put_self _ soon)

end Queue

/-- The late job is listed first, although it was created last. -/
theorem times_are_listed_late_ones_first_drawn_out :
    (∀ c, Queue.drawnOut.Readable c) ∧ ByTime Queue.drawnOut ∧
      ∃ page, (Job.list 3 .root [] { sort := some .creationTime }).commit Queue.drawnOut =
          (.ok page, Queue.drawnOut) ∧
        ¬ (page.items.map Job.creationTime).Pairwise fun t u => t.toNat ≤ u.toNat := by
  have hread := Queue.drawnOut_regular.readable
  have htimes := times_are_listed_late_ones_first hread
  refine ⟨hread, htimes, ?_⟩
  obtain ⟨ds, hds, hlist⟩ := htimes.jobs .root [] .creationTime Job.creationTime rfl
  obtain ⟨page, hpage, hlisted, hall⟩ := hlist 3 { sort := some .creationTime } rfl rfl ⟨none, rfl⟩
  have hmem {j : Job} (hj : Queue.drawnOut.Has j) :
      j.creationTime ∈ page.items.map Job.creationTime := by
    refine List.mem_map.2 ⟨refresh 3 j, (hall rfl rfl).mem_iff.2 (List.mem_map_of_mem ?_), rfl⟩
    exact List.mem_filter.2 ⟨(mem_documents hds).2 ⟨j.id, hj.document?⟩, rfl⟩
  refine ⟨page, hpage, fun hle => ?_⟩
  have hsoon := hmem Queue.drawnOut_has_soon
  have hlate := hmem (j := Queue.late) (has_put_self _ _)
  -- a list in order of time would have no late time beside an early one
  rcases hlisted.chronological_iff.1 hle with hall | hnone
  · exact absurd (hall _ hsoon) (by decide)
  · exact hnone _ hlate (by decide)

end Fleet
