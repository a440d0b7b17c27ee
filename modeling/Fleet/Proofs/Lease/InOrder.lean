import Fleet.Proofs.Derived.Tables
import Fleet.Proofs.Lease.Exclusion
import Fleet.Proofs.Listing.Position
import Fleet.Proofs.Settlement.Leasing

/-!
# Leases in the order of a listing

A lease takes the least of the free documents that pass its filters, and a listing sorts all documents
that pass them, free or not, as they are at the time of the listing. That the two agree rests on the
order alone: it looks at nothing that is derived and at no more of the holder than that there is none,
and of two documents one comes before the other. What is still to be leased is therefore a strictly
sorted list (`Waiting`), of which each lease takes the first (`Waiting.lease_cons`), until it is empty
(`Waiting.lease_nil`); and at the beginning it is what the listing shows of free documents
(`filter_listed`). So leases with the same arguments follow the listing
(`leases_follow_listing`).
-/

set_option autoImplicit false

namespace Fleet

open Document (Akin Ignores key refresh)
open Store Transaction

/-- An element that comes before all others is the least one. -/
theorem least?_eq_some_of_first {α : Type} {order : α → α → Ordering} {as : List α} {a : α}
    (hmem : a ∈ as) (hfirst : ∀ b ∈ as, b ≠ a → order a b = .lt ∧ order b a ≠ .lt) :
    least? order as = some a := by
  induction as with
  | nil => cases hmem
  | cons c rest ih =>
    have hrest : ∀ b ∈ rest, b ≠ a → order a b = .lt ∧ order b a ≠ .lt :=
      fun b hb => hfirst b (List.mem_cons_of_mem c hb)
    rw [least?]
    -- the first of the list is either in the rest, or in front of it
    by_cases ha : a ∈ rest
    · rw [ih ha hrest]
      by_cases hc : c = a
      · rw [hc]
        exact congrArg some (ite_self a)
      · exact congrArg some (if_pos (hfirst c List.mem_cons_self hc).1)
    · obtain rfl := (List.mem_cons.1 hmem).resolve_right ha
      cases hleast : least? order rest with
      | none => rfl
      | some b =>
        have hb : b ∈ rest := least?_mem hleast
        exact congrArg some (if_neg (hrest b hb fun heq => ha (heq ▸ hb)).2)

/-! ## What is still to be leased -/

section

variable {S D : Type} [Leasable D] [SortField S D]

omit [SortField S D] in
/-- Distinct ids are so among those that pass. -/
theorem nodup_map_key_filter {ds : List D} (h : (ds.map key).Nodup) (test : D → Bool) :
    ((ds.filter test).map key).Nodup :=
  h.sublist (List.filter_sublist.map key)

omit [SortField S D] in
/-- What is free and passes, among the documents that are read. -/
theorem mem_filter_free {s : Store} {ds : List D} (hds : s.documents D = .ok ds) {test : D → Bool}
    {d : D} : (d ∈ ds.filter fun d => (Leasable.holder d).isNone && test d) ↔
      (∃ k, s.document? k = .ok (some d)) ∧ Leasable.holder d = none ∧ test d = true := by
  rw [List.mem_filter, Bool.and_eq_true, Option.isNone_iff_eq_none, mem_documents hds]

/-- The free documents that pass a test, in an order. -/
structure Waiting (test : D → Bool) (sort : Option S) (direction : Direction) (waiting : List D)
    (s : Store) : Prop where
  mem_iff : ∀ d, d ∈ waiting ↔
    s.document? (key d) = .ok (some d) ∧ Leasable.holder d = none ∧ test d = true
  ordered : waiting.Pairwise fun d e => Position.Before direction (.of sort d) (.of sort e)

variable {test : D → Bool} {sort : Option S} {direction : Direction} {d : D} {waiting : List D}
  {s : Store}

/-- Those that wait have different ids. -/
theorem Waiting.nodup (h : Waiting test sort direction waiting s) : (waiting.map key).Nodup := by
  refine List.pairwise_map.2 (h.ordered.imp_of_mem fun {d e} hd he hbefore hkey => ?_)
  have hstored := ((h.mem_iff d).1 hd).1
  rw [hkey, ((h.mem_iff e).1 he).1] at hstored
  exact hbefore.ne (by rw [Option.some.inj (Except.ok.inj hstored)])

variable [Workable D]

/-- In a regular store the candidates lie under their own ids. -/
theorem mem_candidates (hs : s.Regular) {ds : List D} (hds : s.documents D = .ok ds) (e : D) :
    (e ∈ ds.filter fun d => (Leasable.holder d).isNone && test d) ↔
      s.document? (key e) = .ok (some e) ∧ Leasable.holder e = none ∧ test e = true := by
  have hread : s.RegularOn D := Workable.regularOn hs
  refine (mem_filter_free hds).trans (and_congr_left fun _ => ⟨?_, fun h => ⟨key e, h⟩⟩)
  rintro ⟨k, he⟩
  exact (hread.key_eq he).symm ▸ he

/-- The sorted candidates are those that wait. -/
theorem waiting_sortDocs (hs : s.Regular) {ds : List D} (hds : s.documents D = .ok ds) :
    Waiting test sort direction
      (sortDocs sort direction (ds.filter fun d => (Leasable.holder d).isNone && test d)) s where
  mem_iff d := by
    rw [sortDocs, List.mem_mergeSort, mem_candidates hs hds]
  ordered := by
    have hnodup := hs.wellFormed.nodup_map_key_documents hds
    exact pairwise_sortDocs sort direction (nodup_map_key_filter hnodup _)

/-- Where nothing waits a lease finds nothing. -/
theorem Waiting.lease_nil (h : Waiting test sort direction [] s) (hs : s.Regular) (now : Millis)
    (process : String) : (lease now test sort direction process).commit s = (.ok none, s) := by
  obtain ⟨ds, hds⟩ := (Workable.regularOn (D := D) hs).exists_documents
  have hnone : (ds.filter fun d => (Leasable.holder d).isNone && test d) = [] :=
    List.eq_nil_iff_forall_not_mem.2 fun d hd =>
      absurd ((h.mem_iff d).2 ((mem_candidates hs hds d).1 hd)) List.not_mem_nil
  exact commit_eq_ok.2 (lease_eq_ok.2 ⟨ds, hds, .inl ⟨least?_eq_none.2 hnone, rfl, rfl⟩⟩)

/-- A lease takes the first document that waits, and the others go on waiting. -/
theorem Waiting.lease_cons (h : Waiting test sort direction (d :: waiting) s) (hs : s.Regular)
    (now : Millis) (process : String) :
    ∃ s' : Store, (lease now test sort direction process).commit s =
        (.ok (some (refresh now (Leasable.withHolder (some process) d))), s') ∧
      Maps (changeAt (key d) (Leasable.withHolder (D := D) (some process))) s s' ∧
      Waiting test sort direction waiting s' := by
  have hread : s.RegularOn D := Workable.regularOn hs
  obtain ⟨hd, hfree, htest⟩ := (h.mem_iff d).1 List.mem_cons_self
  obtain ⟨hfirst, hordered⟩ := List.pairwise_cons.1 h.ordered
  obtain ⟨hkeys, -⟩ := List.nodup_cons.1 h.nodup
  have hne : ∀ e ∈ waiting, key e ≠ key d := fun e he heq => hkeys (heq ▸ List.mem_map_of_mem he)
  obtain ⟨ds, hds⟩ := hread.exists_documents
  -- the head of the queue is the least candidate
  have hleast : least? (compareDocs sort direction)
      (ds.filter fun d => (Leasable.holder d).isNone && test d) = some d := by
    refine least?_eq_some_of_first ((mem_candidates hs hds d).2 ⟨hd, hfree, htest⟩)
      fun e he hed => ?_
    have hwaits := (h.mem_iff e).2 ((mem_candidates hs hds e).1 he)
    have hbefore := hfirst e ((List.mem_cons.1 hwaits).resolve_left hed)
    rw [compareDocs_eq, compareDocs_eq]
    exact ⟨hbefore, hbefore.asymm⟩
  have hmaps := hs.maps_withHolder hd (some process)
  refine ⟨_, commit_eq_ok.2 (lease_eq_ok.2 ⟨ds, hds, .inr ⟨d, hleast, rfl, rfl⟩⟩), hmaps, ?_,
    hordered⟩
  intro e
  constructor
  · intro he
    obtain ⟨hstored, hwaits⟩ := (h.mem_iff e).1 (List.mem_cons_of_mem d he)
    have hafter := hmaps.documents (key e) (some e) hstored
    rw [Option.map_some, changeAt_of_ne (hne e he)] at hafter
    exact ⟨hafter, hwaits⟩
  · rintro ⟨he, hwaits⟩
    obtain ⟨e', he', rfl⟩ := hmaps.exists_of_document? hread he
    by_cases hkey : key e' = key d
    · -- the leased document has a holder now
      rw [changeAt_of_eq hkey, LawfulLeasable.holder_withHolder] at hwaits
      cases hwaits.1
    · rw [changeAt_of_ne hkey] at he' hwaits ⊢
      have hmem := (h.mem_iff e').2 ⟨he', hwaits⟩
      exact (List.mem_cons.1 hmem).resolve_left fun heq => hkey (heq ▸ rfl)

end

/-! ## Leases one after the other -/

/-- The answers of leases with the same arguments, each at a reading of the clock, one after the
other, and the store behind them. -/
def leaseAtEach {D : Type} (lease : Millis → Transaction (Option D)) :
    List Millis → Store → List (Except StateError (Option D)) × Store
  | [], s => ([], s)
  | now :: times, s =>
    let (answer, s) := (lease now).commit s
    let (answers, s) := leaseAtEach lease times s
    (answer :: answers, s)

/-- What a lease hands out. -/
def handedOut {D : Type} [Leasable D] (process : String) (now : Millis) (d : D) :
    Except StateError (Option D) :=
  .ok (some (refresh now (Leasable.withHolder (some process) d)))

section

variable {S D : Type} [Leasable D] [SortField S D] [Workable D]
  {test : D → Bool} {sort : Option S} {direction : Direction} {waiting : List D} {s : Store}

/-- All that waits is handed out in its order, and then nothing. -/
theorem Waiting.leaseAtEach (h : Waiting test sort direction waiting s) (hs : s.Regular)
    (process : String) {times : List Millis} (htimes : times.length = waiting.length)
    (last : Millis) :
    ∃ s', leaseAtEach (fun now => lease now test sort direction process) (times ++ [last]) s =
        (List.zipWith (handedOut process) times waiting ++ [.ok none], s') ∧
      Maps (leaseThese process waiting) s s' := by
  induction waiting generalizing s times with
  | nil =>
    obtain rfl := List.length_eq_zero_iff.1 htimes
    have hkept := (Maps.refl (Workable.regularOn hs)).congr fun _ (d : D) _ =>
      show d = leaseThese process [] d from (if_neg List.not_mem_nil).symm
    refine ⟨s, ?_, hkept⟩
    rw [List.nil_append, Fleet.leaseAtEach, h.lease_nil hs]
    rfl
  | cons d waiting ih =>
    obtain ⟨now, times, rfl⟩ := List.exists_cons_of_length_eq_add_one htimes
    -- the first is leased, and the others wait behind it
    obtain ⟨s₁, hlease, hmaps, hrest⟩ := h.lease_cons hs now process
    obtain ⟨s', hanswers, hmaps'⟩ := ih hrest (hmaps.regular hs) (Nat.succ.inj htimes)
    obtain ⟨hnot, -⟩ := List.nodup_cons.1 h.nodup
    refine ⟨s', ?_, (hmaps.trans hmaps').congr fun _ e _ => leaseThese_changeAt hnot e⟩
    rw [List.cons_append, Fleet.leaseAtEach, hlease]
    simp only [hanswers]
    rfl

end

/-! ## Listings -/

section

variable {S D : Type} [Document D] [SortField S D]

/-- A listing is a page of the documents that pass its filters, as they are now. -/
theorem page_commit {s : Store} {ds : List D} (hds : s.documents D = .ok ds) (now : Millis)
    (test : D → Bool) {q : ListQuery S} {page : Page D}
    (hpage : paginate ((ds.filter test).map (refresh now)) q = .ok page) :
    (do liftM (paginate (← scan now test) q) : Transaction (Page D)).commit s = (.ok page, s) := by
  have hscan : scan now test s = .ok ((ds.filter test).map (refresh now), s) :=
    scan_eq_ok.2 ⟨ds, hds, rfl, rfl⟩
  exact commit_eq_ok.2 (bind_eq_ok.2 ⟨_, s, hscan, liftM_eq_ok.2 ⟨hpage, rfl⟩⟩)

/-- A listing without a limit and a cursor lists all, sorted. -/
theorem list_commit {s : Store} {ds : List D} (hds : s.documents D = .ok ds) (now : Millis)
    (test : D → Bool) (sort : Option S) (direction : Direction) :
    (do liftM (paginate (← scan now test) ({ sort, direction } : ListQuery S)) :
        Transaction (Page D)).commit s =
      (.ok ⟨sortDocs sort direction ((ds.filter test).map (refresh now)),
        ((ds.filter test).map (refresh now)).length, none⟩, s) :=
  page_commit hds now test (paginate_all sort direction _)

/-- Of documents that can be read every page is served, in the order of the listing, and the page
without limit and cursor holds all that pass. -/
theorem exists_listed [Decoded D] {s : Store} (hs : s.Readable (Document.collection D))
    (test : D → Bool) :
    ∃ ds : List D, s.documents D = .ok ds ∧ ∀ (now : Millis) (q : ListQuery S),
      (∃ start, q.position = .ok start) → ∃ page : Page D,
        (do liftM (paginate (← scan now test) q) : Transaction (Page D)).commit s = (.ok page, s) ∧
        page.items.Pairwise (fun a b => (compareDocs q.sort q.direction a b).isLE = true) ∧
        (q.limit = 0 → q.cursor = none → page.items.Perm ((ds.filter test).map (refresh now))) := by
  obtain ⟨ds, hds⟩ := hs.exists_documents (D := D)
  refine ⟨ds, hds, fun now q ⟨start, hstart⟩ => ?_⟩
  obtain ⟨page, hpage, hitems⟩ := exists_paginate ((ds.filter test).map (refresh now)) hstart
  refine ⟨page, page_commit hds now test hpage, (pairwise_isLE_sortDocs _ _ _).sublist hitems, ?_⟩
  obtain ⟨limit, cursor, sort, direction⟩ := q
  -- without a limit and a cursor the page is everything
  rintro rfl rfl
  rw [paginate_all] at hpage
  cases hpage
  exact perm_sortDocs _ _ _

end

/-! ## What is not derived -/

/-- Documents that can be leased, where nothing that has to do with leases is derived. -/
class LawfulRefresh (D : Type) [Leasable D] [Bare D] : Prop where
  akin_refresh : ∀ (now : Millis) (d : D), Akin (refresh now d) d
  holder : Ignores (Leasable.holder : D → Option String)
  withHolder : ∀ holder : Option String, Ignores fun d : D =>
    Bare.bare (Leasable.withHolder holder d)

instance : LawfulRefresh Job where
  akin_refresh _ _ := rfl
  holder _ := rfl
  withHolder _ _ := rfl

instance : LawfulRefresh Task where
  akin_refresh _ _ := rfl
  holder _ := rfl
  withHolder _ _ := rfl

section

variable {S D : Type} [Leasable D] [Bare D] [LawfulRefresh D]

/-- Refreshing keeps the holder. -/
theorem holder_refresh (now : Millis) (d : D) :
    Leasable.holder (refresh now d) = Leasable.holder d :=
  LawfulRefresh.holder.eq (LawfulRefresh.akin_refresh now d)

/-- When the document was looked at before does not matter. -/
theorem handedOut_refresh (process : String) (before now : Millis) (d : D) :
    handedOut process now (refresh before d) = handedOut process now d := by
  have hakin := (LawfulRefresh.withHolder (some process)).akin (LawfulRefresh.akin_refresh before d)
  rw [handedOut, handedOut, hakin.refresh_eq]

variable [SortField S D] (hsort : ∀ field : S, Ignores (SortField.value field : D → SortValue))

/-! ## What a listing shows of free documents -/

include hsort in
/-- Refreshing does not matter to the order. -/
theorem sortDocs_map_refresh (sort : Option S) (direction : Direction) (now : Millis)
    (ds : List D) :
    sortDocs sort direction (ds.map (refresh now)) =
      (sortDocs sort direction ds).map (refresh now) := by
  refine (List.map_mergeSort fun a _ b _ => ?_).symm
  have hakin (d : D) : Akin d (refresh now d) := (LawfulRefresh.akin_refresh now d).symm
  rw [compareDocs_eq_of_akin hsort sort direction (hakin a) (hakin b)]

omit [Bare D] [LawfulRefresh D] in
/-- Some of the documents of a listing are listed as they would be by themselves. -/
theorem filter_sortDocs (sort : Option S) (direction : Direction) {ds : List D}
    (hkeys : (ds.map key).Nodup) (test : D → Bool) :
    (sortDocs sort direction ds).filter test = sortDocs sort direction (ds.filter test) := by
  have hwhole := (pairwise_sortDocs sort direction hkeys).filter test
  have hpart := pairwise_sortDocs sort direction (nodup_map_key_filter hkeys test)
  have hperm : ((sortDocs sort direction ds).filter test).Perm
      (sortDocs sort direction (ds.filter test)) :=
    ((perm_sortDocs sort direction ds).filter test).trans (perm_sortDocs sort direction _).symm
  exact hperm.eq_of_pairwise (fun a b _ _ hab hba => absurd hba hab.asymm) hwhole hpart

variable [Workable D] {s : Store}

include hsort in
/-- What a listing shows of free documents is what waits, in the same order. -/
theorem filter_listed (hs : s.Regular) {ds : List D} (hds : s.documents D = .ok ds) (now : Millis)
    (test : D → Bool) (sort : Option S) (direction : Direction) :
    (sortDocs sort direction ((ds.filter test).map (refresh now))).filter
        (fun d => (Leasable.holder d).isNone) =
      (sortDocs sort direction (ds.filter fun d => (Leasable.holder d).isNone && test d)).map
        (refresh now) := by
  have hkeys := hs.wellFormed.nodup_map_key_documents hds
  have hfree : (fun d : D => (Leasable.holder d).isNone) ∘ refresh now =
      fun d => (Leasable.holder d).isNone :=
    funext fun d => congrArg Option.isNone (holder_refresh now d)
  rw [sortDocs_map_refresh hsort, List.filter_map, hfree,
    filter_sortDocs sort direction (nodup_map_key_filter hkeys test), List.filter_filter]

/-! ## Listing and leasing -/

/-- Leases with the same arguments hand out the free documents of a listing in its order, each as it
is at the time of the lease and with the process as its holder, and then nothing, and nothing else
changes. -/
def LeasesFollow (listing : Transaction (Page D)) (lease : Millis → Transaction (Option D))
    (process : String) (s : Store) : Prop :=
  ∃ page : Page D, listing.commit s = (.ok page, s) ∧
    let free := page.items.filter fun d => (Leasable.holder d).isNone
    (free.map key).Nodup ∧
      ∀ times last, times.length = free.length → ∃ s',
        leaseAtEach lease (times ++ [last]) s =
            (List.zipWith (handedOut process) times free ++ [.ok none], s') ∧
          Maps (leaseThese process free) s s'

include hsort in
/-- **Leases follow the listing**: asked for again and again, they hand out what was listed as free,
in the order of the list, and then nothing. -/
theorem leasesFollow (hs : s.Regular) (now : Millis) (test : D → Bool) (sort : Option S)
    (direction : Direction) (process : String) :
    LeasesFollow (do liftM (paginate (← scan now test) ({ sort, direction } : ListQuery S)))
      (fun now => lease now test sort direction process) process s := by
  obtain ⟨ds, hds⟩ := (Workable.regularOn (D := D) hs).exists_documents
  have hwaiting : Waiting test sort direction
      (sortDocs sort direction (ds.filter fun d => (Leasable.holder d).isNone && test d)) s :=
    waiting_sortDocs hs hds
  generalize hw : sortDocs sort direction
    (ds.filter fun d => (Leasable.holder d).isNone && test d) = waiting at hwaiting
  -- what is listed as free is what waits, refreshed
  have hfree : ((sortDocs sort direction ((ds.filter test).map (refresh now))).filter
      fun d => (Leasable.holder d).isNone) = waiting.map (refresh now) := by
    rw [filter_listed hsort hs hds, hw]
  have hkeys : (waiting.map (refresh now)).map key = waiting.map key := by
    rw [List.map_map]
    exact List.map_congr_left fun d _ => LawfulLeasable.key_refresh now d
  refine ⟨_, list_commit hds now test sort direction, ?_⟩
  simp only [hfree]
  refine ⟨hkeys.symm ▸ hwaiting.nodup, fun times last htimes => ?_⟩
  rw [List.length_map] at htimes
  obtain ⟨s', hanswers, hmaps⟩ := hwaiting.leaseAtEach hs process htimes last
  refine ⟨s', ?_, hmaps.congr fun _ d _ => ?_⟩
  · rw [hanswers, List.zipWith_map_right]
    simp only [handedOut_refresh]
  · rw [leaseThese, leaseThese, hkeys]

end

/-! ## The result -/

/-- **Leasing follows the listing**, in a faithful store with every document at home. Whatever the
filters, the sort field and the direction, leases of jobs with these arguments, one after the other,
hand out the jobs of the listing by root that were free, in its order, each once and with the
process as its holder, and then nothing; and besides their holders nothing in the store changes. So
do leases of tasks. -/
theorem leases_follow_listing {s : Store} (hs : s.Faithful) (hhome : s.Homed) (now : Millis)
    (process : String) (direction : Direction) :
    (∀ (filters : List JobFilter) (sort : Option JobSort),
      LeasesFollow (Job.list now .root filters { sort, direction })
        (fun now => Job.leaseFirst now filters sort direction process) process s) ∧
      ∀ (filters : List TaskFilter) (sort : Option TaskSort),
        LeasesFollow (Task.list now .root filters { sort, direction })
          (fun now => Task.leaseFirst now filters sort direction process) process s :=
  ⟨fun filters sort =>
      leasesFollow Job.ignores_sortValue (hs.regular hhome) now
        (Job.passes filters) sort direction process,
    fun filters sort =>
      leasesFollow Task.ignores_sortValue (hs.regular hhome) now
        (Task.passes filters) sort direction process⟩

namespace Queue

/-- Two free jobs, and one that is held. -/
def store : Store :=
  ((Store.empty.put Workbench.job).put { Workbench.job with id := "i", process := some "p" }).put
    { Workbench.job with id := "h" }

/-- The store of the example is regular. -/
theorem regular : store.Regular := by
  have hsound (j : Job) : Document.Sound j := LawfulDocument.decode_encode j
  exact ((regular_empty.put (hsound _)).put (hsound _)).put (hsound _)

end Queue

/-- The listing has the later keys first. -/
theorem leases_follow_listing_descending :
    Queue.store.Faithful ∧ Queue.store.Homed ∧
      LeasesFollow (Job.list 3 .root [] { sort := some .status, direction := .descending })
        (fun now => Job.leaseFirst now [] (some .status) .descending "q") "q" Queue.store :=
  ⟨Queue.regular.faithful, Queue.regular.homed,
    (leases_follow_listing Queue.regular.faithful Queue.regular.homed 3 "q" .descending).1 []
      (some .status)⟩

/-- A job that strayed is handed out again and again. -/
theorem Job.Astray.not_mem_leaseAtEach {s : Store} {j : Job} {k : String} (h : j.Astray k s)
    (hfree : j.process = none) {filters : List JobFilter} (hpasses : j.passes filters = true)
    (sort : Option JobSort) (direction : Direction) (process : String) (times : List Millis) :
    .ok none ∉
      (leaseAtEach (fun now => leaseFirst now filters sort direction process) times s).1 := by
  induction times generalizing s with
  | nil => exact List.not_mem_nil
  | cons now times ih =>
    rw [leaseAtEach, List.mem_cons, not_or]
    exact ⟨(h.lease_ne_none hfree hpasses).symm, ih (h.commit fun _ _ hok => h.lease hok)⟩

/-- That no document has strayed is needed. A free job that does not lie under its own id is listed
once, and the leases never come to an end. -/
theorem stray_job_leased_for_ever :
    (Workbench.job.alone "x").Faithful ∧
      ¬ LeasesFollow (Job.list 3 .root [] {})
        (fun now => Job.leaseFirst now [] none .ascending "q") "q"
        (Workbench.job.alone "x") := by
  have hastray : Workbench.job.Astray "x" (Workbench.job.alone "x") := Job.astray_alone (by decide)
  refine ⟨Job.faithful_alone _ _, ?_⟩
  rintro ⟨page, -, -, hleases⟩
  -- as many leases as the listing has free jobs, and one more, which is to find nothing
  obtain ⟨times, htimes⟩ : ∃ times : List Millis,
      times.length = (page.items.filter fun j => (Leasable.holder j).isNone).length :=
    ⟨List.replicate _ 3, List.length_replicate⟩
  obtain ⟨s', hanswers, -⟩ := hleases times 3 htimes
  have hpasses : Workbench.job.passes [] = true := rfl
  refine hastray.not_mem_leaseAtEach rfl hpasses none .ascending "q" (times ++ [3]) ?_
  rw [hanswers]
  exact List.mem_append_right _ (List.mem_singleton_self _)

end Fleet
