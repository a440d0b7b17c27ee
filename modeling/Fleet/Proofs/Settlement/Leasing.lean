import Fleet.Proofs.Settlement.Effect

/-!
# Leasing for settlement

A maintainer leases one free document for each status that it settles, if there is one. In a regular
store no lease fails, a document that is leased for one status is not leased again for another, and
nothing but the holders of the leased documents changes (`Leased`).
-/

set_option autoImplicit false

namespace Fleet

open Document (collection encode key)
open Store Transaction

namespace Transaction

variable {D S : Type} [Leasable D] [SortField S D]

/-- Leases a free document for each of some tests. A failure counts as finding none. -/
def leaseEach (now : Millis) (sort : Option S) (process : String) :
    List (D → Bool) → Store → List D × Store
  | [], s => ([], s)
  | test :: rest, s =>
    match (lease now test sort .ascending process).commit s with
    | (.ok found, s) =>
      let (others, s) := leaseEach now sort process rest s
      (found.toList ++ others, s)
    | (.error _, s) => leaseEach now sort process rest s

end Transaction

/-- A poll for jobs leases the first free one of each transitional status. -/
theorem leaseTransitionalJobs_eq (now : Millis) (process : String) (statuses : List JobStatus)
    (s : Store) :
    leaseTransitionalJobs now process statuses s =
      let leased := leaseEach now (some JobSort.creationTime) process
        (statuses.map fun status => Job.passes [.status status]) s
      (leased.1.map fun j => ⟨process, j.id, j.status⟩, leased.2) := by
  induction statuses generalizing s with
  | nil => rfl
  | cons status rest ih =>
    rw [leaseTransitionalJobs, leaseJobForSettlement, Job.leaseFirst, List.map_cons, leaseEach]
    generalize (lease now (Job.passes [.status status]) (some JobSort.creationTime) .ascending
      process).commit s = answer
    match answer with
    | (.ok (some j), s') => simp [ih]
    | (.ok none, s') => simp [ih]
    | (.error e, s') => simp [ih]

/-- A poll for tasks does the same with tasks. -/
theorem leaseTransitionalTasks_eq (now : Millis) (process : String) (statuses : List TaskStatus)
    (s : Store) :
    leaseTransitionalTasks now process statuses s =
      let leased := leaseEach now (some TaskSort.creationTime) process
        (statuses.map fun status => Task.passes [.status status]) s
      (leased.1.map fun t => ⟨process, t.id, t.status⟩, leased.2) := by
  induction statuses generalizing s with
  | nil => rfl
  | cons status rest ih =>
    rw [leaseTransitionalTasks, leaseTaskForSettlement, Task.leaseFirst, List.map_cons, leaseEach]
    generalize (lease now (Task.passes [.status status]) (some TaskSort.creationTime) .ascending
      process).commit s = answer
    match answer with
    | (.ok (some t), s') => simp [ih]
    | (.ok none, s') => simp [ih]
    | (.error e, s') => simp [ih]

section

variable {D S : Type} [Leasable D] {process : String} {tests : List (D → Bool)} {picks : List D}
  {s s' : Store}

/-- A lease on each of some documents. -/
def leaseThese (process : String) (picks : List D) (d : D) : D :=
  if key d ∈ picks.map (key (D := D)) then Leasable.withHolder (some process) d else d

/-- The documents that were leased, as they were before: each free and passing a test, and one for
each test that a free document passes. -/
structure Leased (process : String) (tests : List (D → Bool)) (picks : List D) (s s' : Store) :
    Prop where
  stored : ∀ d ∈ picks, s.document? (key d) = .ok (some d)
  free : ∀ d ∈ picks, Leasable.holder d = none
  passes : ∀ d ∈ picks, ∃ test ∈ tests, test d = true
  nodup : (picks.map (key (D := D))).Nodup
  complete : ∀ test ∈ tests, ∀ k (d : D), s.document? k = .ok (some d) → Leasable.holder d = none →
    test d = true → ∃ e ∈ picks, test e = true
  maps : Maps (leaseThese process picks) s s'

/-- What is stored under the key of a leased document is this document. -/
theorem Leased.eq_of_key_eq (h : Leased process tests picks s s') (hs : s.RegularOn D) {k : String}
    {d e : D} (hd : s.document? k = .ok (some d)) (he : e ∈ picks) (hkey : key d = key e) :
    d = e := by
  have hstored := h.stored e he
  rw [← hkey, hs.key_eq hd, hd] at hstored
  exact Option.some.inj (Except.ok.inj hstored)

/-- What was picked is held by the process. -/
theorem leaseThese_of_mem {d : D} (h : d ∈ picks) :
    leaseThese process picks d = Leasable.withHolder (some process) d :=
  if_pos (List.mem_map.2 ⟨d, h, rfl⟩)

/-- What was not picked is as it was. -/
theorem Leased.leaseThese_of_not_mem (h : Leased process tests picks s s') (hs : s.RegularOn D)
    {k : String} {d : D} (hd : s.document? k = .ok (some d)) (hmem : d ∉ picks) :
    leaseThese process picks d = d := by
  refine if_neg fun hkey => hmem ?_
  obtain ⟨e, he, hkey⟩ := List.mem_map.1 hkey
  rw [h.eq_of_key_eq hs hd he hkey.symm]
  exact he

/-- Without statuses nothing is leased. -/
theorem leased_nil (hs : s.RegularOn D) : Leased process [] ([] : List D) s s where
  stored := nofun
  free := nofun
  passes := nofun
  nodup := List.nodup_nil
  complete := nofun
  maps := (Maps.refl hs).congr fun _ _ _ => (if_neg List.not_mem_nil).symm

/-- No free document passes the first test. -/
theorem Leased.cons_none {test : D → Bool} (h : Leased process tests picks s s')
    (hnothing : ∀ k (d : D), s.document? k = .ok (some d) → Leasable.holder d = none →
      test d = false) :
    Leased process (test :: tests) picks s s' where
  stored := h.stored
  free := h.free
  passes d hd := by
    obtain ⟨test', hmem, htest⟩ := h.passes d hd
    exact ⟨test', List.mem_cons_of_mem test hmem, htest⟩
  nodup := h.nodup
  complete := by
    intro test' hmem k d hd hfree htest
    rcases List.mem_cons.1 hmem with rfl | hmem
    · rw [hnothing k d hd hfree] at htest
      cases htest
    · exact h.complete test' hmem k d hd hfree htest
  maps := h.maps

/-- A lease more, on a document that the others are not about. -/
theorem leaseThese_changeAt [Workable D] {d : D} (hnot : key d ∉ picks.map (key (D := D))) (e : D) :
    leaseThese process picks (changeAt (key d) (Leasable.withHolder (some process)) e) =
      leaseThese process (d :: picks) e := by
  by_cases hkey : key e = key d
  · have hheld : key (Leasable.withHolder (some process) e) ∉ picks.map (key (D := D)) := by
      rw [LawfulLeasable.key_withHolder, hkey]
      exact hnot
    have hmem : key e ∈ (d :: picks).map (key (D := D)) := List.mem_cons.2 (.inl hkey)
    rw [changeAt_of_eq hkey, leaseThese, leaseThese, if_neg hheld, if_pos hmem]
  · have hmem : key e ∈ (d :: picks).map (key (D := D)) ↔ key e ∈ picks.map (key (D := D)) := by
      rw [List.map_cons, List.mem_cons, or_iff_right hkey]
    rw [changeAt_of_ne hkey, leaseThese, leaseThese, if_congr hmem rfl rfl]

/-- The document that is leased first is not free for the leases behind it. -/
theorem Leased.cons_some [Workable D] {test : D → Bool} {s'' : Store} {d : D} (hs : s.RegularOn D)
    (hd : s.document? (key d) = .ok (some d)) (hfree : Leasable.holder d = none)
    (htest : test d = true)
    (hmaps : Maps (changeAt (key d) (Leasable.withHolder (D := D) (some process))) s s')
    (h : Leased process tests picks s' s'') :
    Leased process (test :: tests) (d :: picks) s s'' := by
  -- what is leased later was free all the time
  have hlater : ∀ e ∈ picks, key e ≠ key d ∧ s.document? (key e) = .ok (some e) := by
    intro e he
    obtain ⟨e', he', rfl⟩ := hmaps.exists_of_document? hs (h.stored e he)
    by_cases hkey : key e' = key d
    · have hheld := h.free _ he
      rw [changeAt_of_eq hkey, LawfulLeasable.holder_withHolder] at hheld
      cases hheld
    · rw [changeAt_of_ne hkey] at he' ⊢
      exact ⟨hkey, he'⟩
  have hnot : key d ∉ picks.map (key (D := D)) := by
    intro hmem
    obtain ⟨e, he, hkey⟩ := List.mem_map.1 hmem
    exact (hlater e he).1 hkey
  refine ⟨?_, ?_, ?_, ?_, ?_, ?_⟩
  · exact List.forall_mem_cons.2 ⟨hd, fun e he => (hlater e he).2⟩
  · exact List.forall_mem_cons.2 ⟨hfree, h.free⟩
  · refine List.forall_mem_cons.2 ⟨⟨test, List.mem_cons_self, htest⟩, fun e he => ?_⟩
    obtain ⟨test', hmem, htest'⟩ := h.passes e he
    exact ⟨test', List.mem_cons_of_mem test hmem, htest'⟩
  · rw [List.map_cons, List.nodup_cons]
    exact ⟨hnot, h.nodup⟩
  · intro test' hmem k e he hefree htest'
    rcases List.mem_cons.1 hmem with rfl | hmem
    · exact ⟨d, List.mem_cons_self, htest⟩
    · by_cases hkey : key e = key d
      · rw [← hs.key_eq he, hkey, hd] at he
        cases he
        exact ⟨d, List.mem_cons_self, htest'⟩
      · have hkept : s'.document? k = .ok (some e) := by
          rw [hmaps.documents k _ he, Option.map_some, changeAt_of_ne hkey]
        obtain ⟨e', he', htest''⟩ := h.complete test' hmem k e hkept hefree htest'
        exact ⟨e', List.mem_cons_of_mem d he', htest''⟩
  · exact (hmaps.trans h.maps).congr fun _ e _ => leaseThese_changeAt hnot e

end

/-- **What a poll leases**: for each test a document that passes it, if there is a free one. -/
theorem Store.Regular.exists_leased {D S : Type} [Leasable D] [Workable D] [SortField S D]
    {s : Store} (hs : s.Regular) (now : Millis) (sort : Option S) (process : String)
    (tests : List (D → Bool)) :
    ∃ picks : List D, (leaseEach now sort process tests s).1 =
        picks.map (fun d => Document.refresh now (Leasable.withHolder (some process) d)) ∧
      Leased process tests picks s (leaseEach now sort process tests s).2 := by
  induction tests generalizing s with
  | nil => exact ⟨[], rfl, leased_nil (Workable.regularOn hs)⟩
  | cons test rest ih =>
    obtain ⟨r, s', hlease, hcases⟩ := hs.exists_lease now test sort .ascending process
    rw [leaseEach, commit_eq_ok.2 hlease]
    -- a status without a free document is passed over
    rcases hcases with ⟨rfl, rfl, hnothing⟩ | ⟨d, hd, hfree, htest, rfl, hmaps⟩
    · obtain ⟨picks, hpicks, hleased⟩ := ih hs
      exact ⟨picks, hpicks, hleased.cons_none hnothing⟩
    · obtain ⟨picks, hpicks, hleased⟩ := ih (hmaps.regular hs)
      refine ⟨d :: picks, ?_, hleased.cons_some (Workable.regularOn hs) hd hfree htest hmaps⟩
      rw [List.map_cons, ← hpicks]
      rfl

/-- The case of jobs. -/
theorem Store.Regular.exists_leased_jobs {s : Store} (hs : s.Regular) (now : Millis)
    (process : String) (statuses : List JobStatus) :
    ∃ picks : List Job, (leaseTransitionalJobs now process statuses s).1 =
        picks.map (fun j => ⟨process, j.id, j.status⟩) ∧
      Leased process (statuses.map fun status => Job.passes [.status status]) picks s
        (leaseTransitionalJobs now process statuses s).2 := by
  rw [leaseTransitionalJobs_eq]
  obtain ⟨picks, hpicks, hleased⟩ := hs.exists_leased now (some JobSort.creationTime) process
    (statuses.map fun status => Job.passes [.status status])
  refine ⟨picks, ?_, hleased⟩
  show List.map _ (leaseEach _ _ _ _ _).1 = _
  rw [hpicks, List.map_map]
  rfl

/-- The case of tasks. -/
theorem Store.Regular.exists_leased_tasks {s : Store} (hs : s.Regular) (now : Millis)
    (process : String) (statuses : List TaskStatus) :
    ∃ picks : List Task, (leaseTransitionalTasks now process statuses s).1 =
        picks.map (fun t => ⟨process, t.id, t.status⟩) ∧
      Leased process (statuses.map fun status => Task.passes [.status status]) picks s
        (leaseTransitionalTasks now process statuses s).2 := by
  rw [leaseTransitionalTasks_eq]
  obtain ⟨picks, hpicks, hleased⟩ := hs.exists_leased now (some TaskSort.creationTime) process
    (statuses.map fun status => Task.passes [.status status])
  refine ⟨picks, ?_, hleased⟩
  show List.map _ (leaseEach _ _ _ _ _).1 = _
  rw [hpicks, List.map_map]
  rfl

/-- A filter for a status passes the jobs of the status. -/
theorem Job.passes_status {status : JobStatus} {j : Job} :
    j.passes [.status status] = true ↔ j.status = status := by
  simp [passes, JobFilter.holds]

/-- A filter for a status passes the tasks of the status. -/
theorem Task.passes_status {status : TaskStatus} {t : Task} :
    t.passes [.status status] = true ↔ t.status = status := by
  simp [passes, TaskFilter.holds]

/-- There is nothing to lease. -/
theorem Store.Regular.leaseEach_eq_nil {D S : Type} [Leasable D] [Workable D] [SortField S D]
    {s : Store} (hs : s.Regular) (now : Millis) (sort : Option S) (process : String)
    {tests : List (D → Bool)}
    (hnothing : ∀ test ∈ tests, ∀ k (d : D), s.document? k = .ok (some d) →
      Leasable.holder d = none → test d = false) :
    leaseEach now sort process tests s = ([], s) := by
  induction tests with
  | nil => rfl
  | cons test rest ih =>
    obtain ⟨r, s', hlease, hcases⟩ := hs.exists_lease now test sort .ascending process
    rcases hcases with ⟨rfl, rfl, -⟩ | ⟨d, hd, hfree, htest, -, -⟩
    · rw [leaseEach, commit_eq_ok.2 hlease]
      simp only [ih fun test hmem => hnothing test (List.mem_cons_of_mem _ hmem), Option.toList,
        List.append_nil]
    · rw [hnothing test List.mem_cons_self _ d hd hfree] at htest
      cases htest

/-! ## Jobs that strayed

A job that does not lie under its own id is read by every lease and by every scan, and what is
written for it goes elsewhere. So it stays where it is, as it is, for good. -/

/-- A job lies under a key, and every job that is read, this one too, has another id. Whatever is
read is written under its id, so no write reaches the job. -/
structure Job.Astray (j : Job) (k : String) (s : Store) : Prop where
  read : s.document? k = .ok (some j)
  elsewhere : ∀ k' (i : Job), s.document? k' = .ok (some i) → i.id ≠ k

namespace Job.Astray

variable {s s' : Store} {j : Job} {k : String}

/-- Whether a job has strayed depends on the jobs only. -/
theorem of_table (h : j.Astray k s) (htable : s'.table .jobs = s.table .jobs) : j.Astray k s' where
  read := (document?_eq_of_table (D := Job) htable k).trans h.read
  elsewhere k' i hi := h.elsewhere k' i ((document?_eq_of_table (D := Job) htable k').symm.trans hi)

/-- What is written under another key changes nothing. -/
theorem put (h : j.Astray k s) {i : Job} (hi : i.id ≠ k) : j.Astray k (s.put i) where
  read := by
    rw [document?_put, if_neg (show key i ≠ k from hi)]
    exact h.read
  elsewhere k' i' hi' := by
    rw [document?_put, LawfulDocument.decode_encode] at hi'
    split at hi'
    case isTrue =>
      cases hi'
      exact hi
    case isFalse => exact h.elsewhere k' i' hi'

/-- A transaction that fails changes nothing anyhow. -/
theorem commit (h : j.Astray k s) {α : Type} {m : Transaction α}
    (hok : ∀ r s', m s = .ok (r, s') → j.Astray k s') : j.Astray k (m.commit s).2 := by
  rcases commit_cases m s with ⟨r, s', hrun, hcommit⟩ | ⟨e, -, hcommit⟩
  · rw [hcommit]
    exact hok r s' hrun
  · rw [hcommit]
    exact h

/-- The lease on a job that strayed is written in another place. -/
theorem lease (h : j.Astray k s) {now : Millis} {test : Job → Bool} {sort : Option JobSort}
    {direction : Direction} {process : String} {r : Option Job}
    (hok : Transaction.lease now test sort direction process s = .ok (r, s')) : j.Astray k s' := by
  obtain ⟨ds, hds, ⟨-, -, rfl⟩ | ⟨i, hleast, -, rfl⟩⟩ := lease_eq_ok.1 hok
  · exact h
  · obtain ⟨k', hi⟩ := (mem_documents hds).1 (List.mem_filter.1 (least?_mem hleast)).1
    exact h.put (h.elsewhere k' i hi)

/-- A free job that strayed is there for every lease, however often it was leased. -/
theorem lease_ne_none (h : j.Astray k s) (hfree : j.process = none) {now : Millis}
    {test : Job → Bool} (htest : test j = true) {sort : Option JobSort} {direction : Direction}
    {process : String} :
    ((Transaction.lease now test sort direction process).commit s).1 ≠ .ok none := by
  intro hnone
  rcases commit_cases (Transaction.lease now test sort direction process) s with
    ⟨r, s', hok, hcommit⟩ | ⟨e, -, hcommit⟩
  · rw [hcommit] at hnone
    obtain rfl : r = none := Except.ok.inj hnone
    obtain ⟨ds, hds, ⟨hempty, -, -⟩ | ⟨i, -, hr, -⟩⟩ := lease_eq_ok.1 hok
    · have hmem : j ∈ ds.filter fun i => (Leasable.holder i).isNone && test i :=
        List.mem_filter.2
          ⟨(mem_documents hds).2 ⟨k, h.read⟩, by simp [Leasable.holder, hfree, htest]⟩
      rw [least?_eq_none.1 hempty] at hmem
      cases hmem
    · cases hr
  · rw [hcommit] at hnone
    cases hnone

end Job.Astray

namespace Job

/-- A store in which a job lies under a key, and nothing else. -/
def alone (j : Job) (k : String) : Store := Store.empty.insert .jobs k (encode j)

/-- A store with a stray job only is faithful. -/
theorem faithful_alone (j : Job) (k : String) : (j.alone k).Faithful :=
  faithful_empty.insert (c := .jobs) ⟨j, LawfulDocument.decode_encode j, rfl⟩ k

/-- The stray job is read like any other. -/
theorem documents_alone (j : Job) (k : String) : (j.alone k).documents Job = .ok [j] :=
  documents_of_values rfl

/-- It lies under another id than its own. -/
theorem astray_alone {j : Job} {k : String} (h : j.id ≠ k) : j.Astray k (j.alone k) where
  read := by
    have hfind : ((j.alone k).table .jobs).find? k = some (encode j) := by
      rw [alone, table_insert, if_pos rfl, Dict.find?_insert, if_pos rfl]
    exact document?_eq_ok_some.2 ⟨encode j, hfind, LawfulDocument.decode_encode j⟩
  elsewhere k' i hi := by
    have hmem : i ∈ [j] := (mem_documents (documents_alone j k)).2 ⟨k', hi⟩
    rwa [List.mem_singleton.1 hmem]

end Job

end Fleet
