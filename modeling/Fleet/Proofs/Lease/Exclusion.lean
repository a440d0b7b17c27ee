import Fleet.Proofs.Access.Basic
import Fleet.Proofs.Store.Readable

/-!
# Leases exclude

A job or a task that is leased to a process is that process's alone until it is given back, whatever
happens to it meanwhile. Every access that writes over a job or a task writes the holder that it
read; there are only two that put another one in its place. A lease takes only documents without a
holder, and only two accesses take a holder away, each of them from the process that it names.

The proofs read the holder off the stored text (`Store.holder?`) and not off the document, since
there are texts that cannot be read: a task with a quality that is not finite is written, and from
then on it fails whoever meets it (`Store.Legible`). Its text names a holder all the same.
-/

set_option autoImplicit false

namespace Fleet

open Document (collection key encode decode)
open Transaction (map_eq_ok)

namespace Store

variable {s : Store} {c : Collection} {k : String}

/-- The holder that the stored text under a key names. -/
def holder? (s : Store) (c : Collection) (key : String) : Option String :=
  ((s.table c).find? key).bind holderIn

/-- The stored text under a key says that the work on the document failed. -/
def failed (s : Store) (c : Collection) (key : String) : Bool :=
  ((s.table c).find? key).any failedIn

/-- Who holds a document depends on its collection only. -/
theorem holder?_of_table {s s' : Store} (h : s'.table c = s.table c) :
    s'.holder? c k = s.holder? c k := by
  rw [holder?, h, holder?]

variable {D : Type} [Leasable D] [LawfulLeasable D]

/-- The holder of a document that was put is its own. -/
theorem holder?_put (s : Store) (d : D) (c : Collection) (k : String) :
    (s.put d).holder? c k =
      if collection D = c ∧ key d = k then Leasable.holder d else s.holder? c k := by
  rw [holder?, find?_put]
  split
  · rw [Option.bind_some, LawfulLeasable.holderIn_encode]
  · rfl

/-- What is read under a key has the holder that the text names, and failed if the text says so. -/
theorem WellFormed.holder?_of_document? [Filed D] (hs : s.WellFormed) {d : D}
    (h : s.document? k = .ok (some d)) : s.holder? (collection D) k = Leasable.holder d ∧
      s.failed (collection D) k = !Leasable.releasable d := by
  obtain ⟨text, hfind, hdecode⟩ := Store.document?_eq_ok_some.1 h
  obtain ⟨e, -, rfl, -⟩ := hs.exists_has (D := D) hfind
  constructor
  · rw [holder?, hfind, Option.bind_some, LawfulLeasable.holderIn_encode,
      LawfulLeasable.holder_of_decode e d hdecode]
  · rw [failed, hfind, Option.any_some, LawfulLeasable.failedIn_encode,
      LawfulLeasable.releasable_of_decode e d hdecode]

/-- The text under a key names a process if the document that it is the text of has it as holder. -/
theorem WellFormed.holder?_eq_some_iff [Filed D] (hs : s.WellFormed) {p : String} :
    s.holder? (collection D) k = some p ↔
      ∃ d : D, s.Has d ∧ key d = k ∧ Leasable.holder d = some p := by
  constructor
  · intro h
    obtain ⟨text, hfind, hholder⟩ := Option.bind_eq_some_iff.1 h
    obtain ⟨d, hkey, rfl, hd⟩ := hs.exists_has (D := D) hfind
    rw [LawfulLeasable.holderIn_encode] at hholder
    exact ⟨d, hd, hkey, hholder⟩
  · rintro ⟨d, hd, rfl, hholder⟩
    have hfind : (s.table (collection D)).find? (key d) = some (encode d) := hd
    rw [holder?, hfind, Option.bind_some, LawfulLeasable.holderIn_encode, hholder]

variable [Filed D] [LawfulKey D]

/-- Writing over a document under its key with its holder changes no holder. -/
theorem WellFormed.holder?_put_kept (hs : s.WellFormed) {d d' : D}
    (h : s.document? k = .ok (some d)) (hkey : key d' = key d)
    (hholder : Leasable.holder d' = Leasable.holder d) (c : Collection) (k' : String) :
    (s.put d').holder? c k' = s.holder? c k' := by
  rw [holder?_put]
  split
  case isTrue hplace =>
    obtain ⟨rfl, rfl⟩ := hplace
    rw [hkey, hs.key_eq_of_document? h, (hs.holder?_of_document? h).1, hholder]
  case isFalse => rfl

omit [Filed D] [LawfulKey D] in
/-- A new document without a holder changes no holder. -/
theorem holder?_put_new {d : D} (hnew : (s.table (collection D)).find? (key d) = none)
    (hfree : Leasable.holder d = none) (c : Collection) (k : String) :
    (s.put d).holder? c k = s.holder? c k := by
  rw [holder?_put]
  split
  case isTrue hplace =>
    obtain ⟨rfl, rfl⟩ := hplace
    rw [hfree, holder?, hnew, Option.bind_none]
  case isFalse => rfl

omit [Filed D] [LawfulKey D] in
/-- Of several documents that are written, one that has the key says who the holder is. -/
theorem holder?_putAll (s : Store) (ds : List D) (c : Collection) (k : String) :
    (s.putAll ds).holder? c k = s.holder? c k ∨
      ∃ d ∈ ds, collection D = c ∧ key d = k ∧ (s.putAll ds).holder? c k = Leasable.holder d := by
  induction ds generalizing s with
  | nil => exact .inl rfl
  | cons d ds ih =>
    rw [putAll_cons]
    rcases ih (s.put d) with hlast | ⟨e, he, hc, hk, hlast⟩
    · rw [hlast, holder?_put]
      split
      case isTrue hplace => exact .inr ⟨d, List.mem_cons_self, hplace.1, hplace.2, rfl⟩
      case isFalse => exact .inl rfl
    · exact .inr ⟨e, List.mem_cons_of_mem d he, hc, hk, hlast⟩

/-- Changing documents that were read changes no holder, if it changes neither key nor holder. -/
theorem WellFormed.holder?_putAll_kept (hs : s.WellFormed) {ds found : List D}
    (hds : s.documents D = .ok ds) (hfound : ∀ d ∈ found, d ∈ ds) {change : D → D}
    (hkey : ∀ d, key (change d) = key d)
    (hholder : ∀ d, Leasable.holder (change d) = Leasable.holder d) (c : Collection) (k : String) :
    (s.putAll (found.map change)).holder? c k = s.holder? c k := by
  rcases holder?_putAll s (found.map change) c k with hsame | ⟨d', hd', rfl, rfl, hlast⟩
  · exact hsame
  · -- The document that was written last under the key was read under it, with the same holder.
    obtain ⟨d, hd, rfl⟩ := List.mem_map.1 hd'
    obtain ⟨k, hk⟩ := (Store.mem_documents hds).1 (hfound d hd)
    rw [hlast, hholder, hkey, hs.key_eq_of_document? hk, (hs.holder?_of_document? hk).1]

variable {s' : Store} {now : Millis}

/-- A lease takes a document that nobody holds, or none. -/
theorem WellFormed.holder?_of_lease {S : Type} [SortField S D] (hs : s.WellFormed) {test : D → Bool}
    {sort : Option S} {direction : Direction} {process : String} {r : Option D}
    (h : Transaction.lease now test sort direction process s = .ok (r, s')) :
    (r = none ∧ s' = s) ∨ ∃ d : D, r = some d ∧ s.holder? (collection D) (key d) = none ∧
      ∀ c k, s'.holder? c k =
        if collection D = c ∧ key d = k then some process else s.holder? c k := by
  obtain ⟨ds, hds, ⟨-, rfl, rfl⟩ | ⟨d, hleast, rfl, rfl⟩⟩ := Transaction.lease_eq_ok.1 h
  · exact .inl ⟨rfl, rfl⟩
  · obtain ⟨hmem, htest⟩ := List.mem_filter.1 (least?_mem hleast)
    -- the test of every lease starts with asking for no holder
    have hfree : Leasable.holder d = none := by
      have hboth := Bool.and_eq_true_iff.1 htest
      exact Option.isNone_iff_eq_none.1 hboth.1
    obtain ⟨k, hk⟩ := (Store.mem_documents hds).1 hmem
    have hkey := hs.key_eq_of_document? hk
    refine .inr ⟨_, rfl, ?_, fun c k' => ?_⟩
    · rw [LawfulLeasable.key_refresh, LawfulLeasable.key_withHolder, hkey,
        (hs.holder?_of_document? hk).1, hfree]
    · rw [holder?_put, LawfulLeasable.holder_withHolder, LawfulLeasable.key_refresh]

/-- A release takes the holder away from the document that it names, and that is the process that it
names. -/
theorem WellFormed.holder?_of_release (hs : s.WellFormed) {process : String} {u : Unit}
    (h : Transaction.release D k process s = .ok (u, s')) :
    s.holder? (collection D) k = some process ∧
      ∀ c k', s'.holder? c k' = if collection D = c ∧ k = k' then none else s.holder? c k' := by
  obtain ⟨d, hd, hholder, rfl⟩ := Transaction.release_eq_ok.1 h
  have hkey := hs.key_eq_of_document? hd
  constructor
  · rw [(hs.holder?_of_document? hd).1, hholder]
  · intro c k'
    rw [holder?_put, LawfulLeasable.holder_withHolder, LawfulLeasable.key_withHolder, hkey]

/-- Giving back what a process holds takes the holder away from documents that it holds and that did
not fail. -/
theorem WellFormed.holder?_of_releaseHeld (hs : s.WellFormed) {process : String} {n : Nat}
    (h : Transaction.releaseHeld D process s = .ok (n, s')) (c : Collection) (k : String) :
    s'.holder? c k = s.holder? c k ∨ (collection D = c ∧ s.holder? c k = some process ∧
      s.failed c k = false ∧ s'.holder? c k = none) := by
  obtain ⟨ds, hds, -, rfl⟩ := Transaction.releaseHeld_eq_ok.1 h
  rcases holder?_putAll (D := D) s _ c k with hsame | ⟨d', hd', rfl, rfl, hlast⟩
  · exact .inl hsame
  · obtain ⟨d, hd, rfl⟩ := List.mem_map.1 hd'
    -- what is freed was held by the process, and is of the kind that is released
    obtain ⟨hmem, htest⟩ := List.mem_filter.1 hd
    obtain ⟨hheld, hreleasable⟩ := Bool.and_eq_true_iff.1 htest
    obtain ⟨k, hk⟩ := (Store.mem_documents hds).1 hmem
    have hkey : key (Leasable.withHolder none d) = k := by
      rw [LawfulLeasable.key_withHolder, hs.key_eq_of_document? hk]
    obtain ⟨hholder, hfailed⟩ := hs.holder?_of_document? hk
    refine .inr ⟨rfl, ?_, ?_, ?_⟩
    · rw [hkey, hholder]
      exact of_decide_eq_true hheld
    · rw [hkey, hfailed, hreleasable]
      rfl
    · rw [hlast, LawfulLeasable.holder_withHolder]

end Store

/-! ## Taking and giving back -/

namespace Collection

/-- The collections whose documents are leased by filters. -/
def IsWork (c : Collection) : Prop := c = .jobs ∨ c = .tasks

end Collection

namespace Store

/-- The job or the task that is stored under a key is leased to a process. -/
def HeldBy (s : Store) (c : Collection) (key process : String) : Prop :=
  match c with
  | .jobs => ∃ j : Job, s.Has j ∧ j.id = key ∧ j.process = some process
  | .tasks => ∃ t : Task, s.Has t ∧ t.id = key ∧ t.process = some process
  | _ => False

/-- What the text says of the holder and what the document says agree. -/
theorem WellFormed.heldBy_iff {s : Store} (hs : s.WellFormed) {c : Collection} (hc : c.IsWork)
    {key process : String} : s.HeldBy c key process ↔ s.holder? c key = some process := by
  rcases hc with rfl | rfl
  · exact (hs.holder?_eq_some_iff (D := Job)).symm
  · exact (hs.holder?_eq_some_iff (D := Task)).symm

end Store

namespace Access

open Store

/-- The document that an access leases, and to whom. -/
def leased? (now : Millis) (a : Access) (s : Store) : Option (Collection × String × String) :=
  match a, a.answer now s with
  | leaseJob _ _ _ process, .ok (.foundJob (some j)) => some (.jobs, j.id, process)
  | leaseTask _ _ _ process, .ok (.foundTask (some t)) => some (.tasks, t.id, process)
  | _, _ => none

/-- The access gives back the document under a key for a process, or everything that the process
holds while the work on the document has not failed. -/
def GivesBack (a : Access) (s : Store) (c : Collection) (key process : String) : Prop :=
  match a with
  | releaseJob id p => c = .jobs ∧ id = key ∧ p = process
  | releaseTask id p => c = .tasks ∧ id = key ∧ p = process
  | releaseHeld c' p => c' = c ∧ p = process ∧ s.failed c key = false
  | _ => False

variable {now : Millis} {a : Access} {s : Store} {c : Collection} {k process : String}

/-- A lease that answers a job leases that job. -/
theorem leased?_of_leaseJob {filters : List JobFilter} {sort : Option JobSort}
    {direction : Direction} {j : Job}
    (h : (leaseJob filters sort direction process).answer now s = .ok (.foundJob (some j))) :
    (leaseJob filters sort direction process).leased? now s = some (.jobs, j.id, process) := by
  unfold leased?
  rw [h]

/-- A lease that answers a task leases that task. -/
theorem leased?_of_leaseTask {filters : List TaskFilter} {sort : Option TaskSort}
    {direction : Direction} {t : Task}
    (h : (leaseTask filters sort direction process).answer now s = .ok (.foundTask (some t))) :
    (leaseTask filters sort direction process).leased? now s = some (.tasks, t.id, process) := by
  unfold leased?
  rw [h]

/-- What an access leased was free and is the process's now. -/
theorem holder?_of_leased? (hs : s.WellFormed) (h : a.leased? now s = some (c, k, process)) :
    c.IsWork ∧ s.holder? c k = none ∧ (a.after now s).holder? c k = some process := by
  rcases after_cases now a s with ⟨r, hok, hanswer⟩ | ⟨-, e, hanswer⟩
  case inr =>
    unfold leased? at h
    -- an access that fails leases nothing
    rw [hanswer] at h
    split at h <;> simp_all
  unfold leased? at h
  rw [hanswer] at h
  cases a with
  | leaseJob filters sort direction p =>
    obtain ⟨found, hlease, rfl⟩ := map_eq_ok.1 hok
    rcases hs.holder?_of_lease hlease with ⟨rfl, -⟩ | ⟨j, rfl, hfree, hafter⟩
    · cases h
    · obtain ⟨rfl, rfl, rfl⟩ : Collection.jobs = c ∧ j.id = k ∧ p = process := by simpa using h
      exact ⟨.inl rfl, hfree, (hafter .jobs j.id).trans (if_pos ⟨rfl, rfl⟩)⟩
  | leaseTask filters sort direction p =>
    obtain ⟨found, hlease, rfl⟩ := map_eq_ok.1 hok
    rcases hs.holder?_of_lease hlease with ⟨rfl, -⟩ | ⟨t, rfl, hfree, hafter⟩
    · cases h
    · obtain ⟨rfl, rfl, rfl⟩ : Collection.tasks = c ∧ t.id = k ∧ p = process := by simpa using h
      exact ⟨.inr rfl, hfree, (hafter .tasks t.id).trans (if_pos ⟨rfl, rfl⟩)⟩
  | _ => cases h

/-- What becomes of the holder of one document. -/
inductive Handed (a : Access) (now : Millis) (s : Store) (c : Collection) (k : String) :
    (before after : Option String) → Prop where
  | kept {holder : Option String} : Handed a now s c k holder holder
  | taken {process : String} (h : a.leased? now s = some (c, k, process)) :
    Handed a now s c k none (some process)
  | givenBack {process : String} (h : a.GivesBack s c k process) :
    Handed a now s c k (some process) none

/-- A holder that stays is handed over in no way. -/
theorem Handed.of_eq {holder holder' : Option String} (h : holder' = holder) :
    Handed a now s c k holder holder' := by
  rw [h]
  exact .kept

/-- A lease hands the document to the process. -/
theorem Handed.of_lease {s' : Store} {c' : Collection} {k' : String}
    (hleased : a.leased? now s = some (c', k', process)) (hfree : s.holder? c' k' = none)
    (hafter : ∀ c k, s'.holder? c k = if c' = c ∧ k' = k then some process else s.holder? c k) :
    Handed a now s c k (s.holder? c k) (s'.holder? c k) := by
  rw [hafter]
  split
  case isTrue hplace =>
    obtain ⟨rfl, rfl⟩ := hplace
    rw [hfree]
    exact .taken hleased
  case isFalse => exact .kept

/-- Giving a lease back hands the document to nobody. -/
theorem Handed.of_release {s' : Store} {c' : Collection} {k' : String}
    (hgives : a.GivesBack s c' k' process) (hheld : s.holder? c' k' = some process)
    (hafter : ∀ c k, s'.holder? c k = if c' = c ∧ k' = k then none else s.holder? c k) :
    Handed a now s c k (s.holder? c k) (s'.holder? c k) := by
  rw [hafter]
  split
  case isTrue hplace =>
    obtain ⟨rfl, rfl⟩ := hplace
    rw [hheld]
    exact .givenBack hgives
  case isFalse => exact .kept

/-- So does the reaper, for each document that it releases. -/
theorem Handed.of_releaseHeld {D : Type} [Leasable D] [LawfulLeasable D] [Filed D] [LawfulKey D]
    {s' : Store} (hs : s.WellFormed) {n : Nat}
    (h : Transaction.releaseHeld D process s = .ok (n, s')) :
    Handed (.releaseHeld (Document.collection D) process) now s c k (s.holder? c k)
      (s'.holder? c k) := by
  rcases hs.holder?_of_releaseHeld h c k with hsame | ⟨hc, hheld, hfailed, hfree⟩
  · exact .of_eq hsame
  · rw [hheld, hfree]
    exact .givenBack ⟨hc, rfl, hfailed⟩

/-- A new job takes no job away from its holder, and nobody holds it. -/
theorem holder?_of_createJob {id : String} {caller : Caller} {new : NewJob} {j : Job} {s' : Store}
    (h : Job.create now id caller new s = .ok (j, s')) : s'.holder? c k = s.holder? c k := by
  obtain ⟨_, _, _, _, -, -, -, -, -, hnone, rfl, -⟩ := Job.create_eq_ok.1 h
  refine Store.holder?_put_new (D := Job) ?_ rfl c k
  exact hnone

/-- An update tends the job that it reads, and tending keeps id and holder. -/
theorem holder?_of_changeJob (hs : s.WellFormed) {id : String} {caller : Caller} {u : JobUpdate}
    {j' : Job} {s' : Store} (h : Job.change now caller id u s = .ok (j', s')) :
    s'.holder? c k = s.holder? c k := by
  obtain ⟨j, changed, hj, -, happly, rfl, -⟩ := Job.change_eq_ok.1 h
  have htended := (Job.apply_eq_ok happly).1
  exact hs.holder?_put_kept hj htended.id htended.process c k

/-- A job keeps its holder when a model is appended to it. -/
theorem holder?_of_appendModel (hs : s.WellFormed) {id model : String} {taken : Bool} {s' : Store}
    (h : Job.appendModel id model s = .ok (taken, s')) : s'.holder? c k = s.holder? c k := by
  obtain ⟨j, hj, ⟨-, configSpace, -, rfl⟩ | ⟨-, rfl⟩⟩ := Job.appendModel_eq_ok h
  · refine hs.holder?_put_kept hj ?_ ?_ c k
    · rfl
    · rfl
  · rfl

/-- A new task takes no task away from its holder, and nobody holds it. -/
theorem holder?_of_createTask {caller : Caller} {new : NewTask} {t : Task} {s' : Store}
    (h : Task.create now caller new s = .ok (t, s')) : s'.holder? c k = s.holder? c k := by
  obtain ⟨_, _, -, -, -, -, -, hnone, rfl, -⟩ := Task.create_eq_ok.1 h
  refine Store.holder?_put_new (D := Task) ?_ rfl c k
  exact hnone

/-- An update of a task keeps id and holder, too. -/
theorem holder?_of_changeTask (hs : s.WellFormed) {id : String} {caller : Caller} {u : TaskUpdate}
    {t' : Task} {s' : Store} (h : Task.change now caller id u s = .ok (t', s')) :
    s'.holder? c k = s.holder? c k := by
  obtain ⟨t, changed, ht, -, happly, rfl, -⟩ := Task.change_eq_ok.1 h
  have htended := Task.tended_apply happly
  exact hs.holder?_put_kept ht htended.id htended.process c k

/-- A cascade leaves the tasks with their holders. -/
theorem holder?_of_cascade (hs : s.WellFormed) {job : String} {sources : List TaskStatus}
    {target : TaskStatus} {n : Nat} {s' : Store}
    (h : Task.cascade job sources target s = .ok (n, s')) : s'.holder? c k = s.holder? c k := by
  obtain ⟨ts, hts, -, rfl⟩ := Task.cascade_eq_ok.1 h
  refine hs.holder?_putAll_kept hts (fun t ht => (List.mem_filter.1 ht).1) ?_ ?_ c k
  · exact fun _ => rfl
  · exact fun _ => rfl

/-- The holder of a job or a task is kept by every access but leases and those that give back. -/
theorem handed_after (hs : s.WellFormed) (hc : c.IsWork) (now : Millis) (a : Access) (k : String) :
    Handed a now s c k (s.holder? c k) ((a.after now s).holder? c k) := by
  -- what is left to look at are the accesses of this collection that succeed
  by_cases hcollection : a.collection = c
  case neg => exact .of_eq (Store.holder?_of_table (table_after_of_ne hcollection))
  rcases after_cases now a s with ⟨r, hok, hanswer⟩ | ⟨hsame, -⟩
  case inr => exact .of_eq (by rw [hsame])
  generalize hafter : a.after now s = s' at hok
  cases a with
  | createJob id caller new => exact of_map_eq_ok hok fun _ h => .of_eq (holder?_of_createJob h)
  | updateJob caller id u => exact of_map_eq_ok hok fun _ h => .of_eq (holder?_of_changeJob hs h)
  | leaseJob filters sort direction process =>
    obtain ⟨found, hlease, rfl⟩ := map_eq_ok.1 hok
    rcases hs.holder?_of_lease hlease with ⟨-, rfl⟩ | ⟨j, rfl, hfree, hs'⟩
    · exact .kept
    · exact .of_lease (leased?_of_leaseJob hanswer) hfree hs'
  | releaseJob id process =>
    obtain ⟨_, hrelease, -⟩ := map_eq_ok.1 hok
    obtain ⟨hheld, hs'⟩ := hs.holder?_of_release hrelease
    exact .of_release ⟨rfl, rfl, rfl⟩ hheld hs'
  | appendModel id model => exact of_map_eq_ok hok fun _ h => .of_eq (holder?_of_appendModel hs h)
  | createTask caller new => exact of_map_eq_ok hok fun _ h => .of_eq (holder?_of_createTask h)
  | updateTask caller id u => exact of_map_eq_ok hok fun _ h => .of_eq (holder?_of_changeTask hs h)
  | leaseTask filters sort direction process =>
    obtain ⟨found, hlease, rfl⟩ := map_eq_ok.1 hok
    rcases hs.holder?_of_lease hlease with ⟨-, rfl⟩ | ⟨t, rfl, hfree, hs'⟩
    · exact .kept
    · exact .of_lease (leased?_of_leaseTask hanswer) hfree hs'
  | releaseTask id process =>
    obtain ⟨_, hrelease, -⟩ := map_eq_ok.1 hok
    obtain ⟨hheld, hs'⟩ := hs.holder?_of_release hrelease
    exact .of_release ⟨rfl, rfl, rfl⟩ hheld hs'
  | cascade job sources target => exact of_map_eq_ok hok fun _ h => .of_eq (holder?_of_cascade hs h)
  | releaseHeld c' process =>
    obtain ⟨_, hrelease, -⟩ := map_eq_ok.1 hok
    rcases hc with rfl | rfl
    · obtain rfl : c' = .jobs := hcollection
      exact .of_releaseHeld hs hrelease
    · obtain rfl : c' = .tasks := hcollection
      exact .of_releaseHeld hs hrelease
  | _ => exact absurd (hcollection ▸ hc) (by simp [Collection.IsWork, collection])

end Access

/-! ## Runs -/

namespace Store

variable {s t : Store} {c : Collection} {k p : String}

/-- A lease lasts through every run in which nothing gives it back. -/
theorem holder?_of_leads (hs : s.WellFormed) (hc : c.IsWork) (hp : s.holder? c k = some p)
    (h : s.Leads (fun u _ b => ¬ b.GivesBack u c k p) t) :
    t.WellFormed ∧ t.holder? c k = some p := by
  refine Leads.induction (P := fun u => u.WellFormed ∧ u.holder? c k = some p) h ⟨hs, hp⟩ ?_
  rintro u now b ⟨hu, hup⟩ hkeeps
  refine ⟨Access.wellFormed_after hu, ?_⟩
  have hhanded := Access.handed_after hu hc now b k
  rw [hup] at hhanded
  -- A held document is not leased, and the only one that could give it back is its holder.
  generalize (b.after now u).holder? c k = holder at hhanded
  cases hhanded with
  | kept => rfl
  | givenBack hgives => exact absurd hgives hkeeps

/-- Who does not hold a document is refused, and nothing happens, whether or not it can be read. -/
theorem release_of_holder?_ne {D : Type} [Leasable D] [LawfulLeasable D] [Filed D]
    (hs : s.WellFormed) (hne : s.holder? (Document.collection D) k ≠ some p) :
    (∀ found : Option D, s.document? k = .ok found → (Transaction.release D k p).commit s =
        (.error (.notFound (Document.kind D ++ " " ++ k ++ " leased by " ++ p)), s)) ∧
      ∀ e, s.document? (D := D) k = .error e →
        (Transaction.release D k p).commit s = (.error e, s) := by
  refine ⟨fun found hfound => ?_, fun e he => Transaction.release_commit_of_error he⟩
  refine Transaction.release_commit_of_ne hfound fun d hd heq => ?_
  rw [Option.mem_def.1 hd] at hfound
  exact hne ((hs.holder?_of_document? hfound).1.trans heq)

end Store

/-! ## A lease at work -/

namespace Workbench

def dataset : Dataset := ⟨"d", rootUser, "", "", .validated, none⟩

def model : Module := ⟨"m", rootUser, .model, "", "", "\x7b\x7d", .active, none⟩

def objective : Module := ⟨"o", rootUser, .objective, "", "", "\x7b\x7d", .active, none⟩

def new : NewJob := { dataset := "d", models := ["m"], objective := "o" }

/-- What it takes to create a job. -/
def catalog : Store := ((Store.empty.put dataset).put model).put objective

/-- The job that is created. -/
def job : Job := .initial 0 "j" .root new (ConfigSpace.ofChoices "j" [("m", .object [])]).render

/-- The job, which nobody holds. -/
def store : Store := catalog.put job

/-- The catalogue is filled by accesses. -/
theorem catalog_reachable : catalog.Reachable := by
  have hempty : Store.Reachable .empty := .refl
  exact ((hempty.after 0 (.putDataset dataset)).after 0 (.putModule model)).after 0
    (.putModule objective)

/-- The job under another id. -/
def jobUnder (id : String) : Job :=
  .initial 0 id .root new (ConfigSpace.ofChoices id [("m", .object [])]).render

/-- Where the catalog is anyone may create the job under an unused id. -/
theorem create_of_has {s : Store} (hd : s.Has dataset) (hm : s.Has model) (ho : s.Has objective)
    {id : String} (hnone : s.jobs.find? id = none) (caller : Caller) :
    let j := Job.initial 0 id caller new (ConfigSpace.ofChoices id [("m", .object [])]).render
    Job.create 0 id caller new s = .ok (j.refresh 0, s.put j) := by
  have hread : ConfigSpace.readDefinition "m" "\x7b\x7d" = .ok (.object []) := by rfl
  refine Job.create_eq_ok.2
    ⟨dataset, objective, [], _, hd.document?, rfl, ?_, rfl, ?_, hnone, rfl, rfl⟩
  · exact requireModule_eq_ok.2 ⟨ho.document?, rfl, rfl, rfl⟩
  · refine ConfigSpace.build_eq_ok.2 ⟨by decide, [("m", .object [])], .cons ?_ .nil, rfl, rfl⟩
    exact ConfigSpace.choice_eq_ok.2 ⟨model, .object [], hm.document?, rfl, rfl, hread, rfl, rfl⟩

/-- The dataset is in the catalogue. -/
theorem catalog_has_dataset : catalog.Has dataset := by
  rw [catalog, Store.has_put_of_collection_ne _ (by decide),
    Store.has_put_of_collection_ne _ (by decide)]
  exact Store.has_put_self _ _

/-- So is the model. -/
theorem catalog_has_model : catalog.Has model := by
  rw [catalog, Store.has_put_of_ne (by decide)]
  exact Store.has_put_self _ _

/-- So is the objective. -/
theorem catalog_has_objective : catalog.Has objective := Store.has_put_self _ _

/-- A job can be created from the catalogue. -/
theorem create_eq_ok (id : String) : Job.create 0 id .root new catalog =
    .ok ((jobUnder id).refresh 0, catalog.put (jobUnder id)) :=
  create_of_has catalog_has_dataset catalog_has_model catalog_has_objective rfl .root

/-- The store of the example is reachable. -/
theorem reachable : store.Reachable := by
  have hafter : (Access.createJob "j" .root new).after 0 catalog = store :=
    Access.after_eq_of_ok (map_eq_ok.2 ⟨_, create_eq_ok "j", rfl⟩)
  rw [← hafter]
  exact catalog_reachable.after 0 _

/-- The job goes to whoever asks first. -/
theorem leased? (process : String) : (Access.leaseJob [] none .ascending process).leased? 0 store =
    some (.jobs, "j", process) := by
  have hdocuments : store.documents Job = .ok [job] := Store.documents_of_values rfl
  have hlease : Job.leaseFirst 0 [] none .ascending process store =
      .ok (some (Document.refresh 0 (Leasable.withHolder (some process) job)),
        store.put (Leasable.withHolder (some process) job)) :=
    Transaction.lease_eq_ok.2 ⟨[job], hdocuments, .inr ⟨job, rfl, rfl, rfl⟩⟩
  have hanswer : (Access.leaseJob [] none .ascending process).answer 0 store =
      .ok (.foundJob (some (Document.refresh 0 (Leasable.withHolder (some process) job)))) := by
    rw [Access.answer, Access.transaction, Transaction.commit_map, Job.leaseFirst] at *
    rw [Transaction.commit_eq_ok.2 hlease]
    rfl
  exact Access.leased?_of_leaseJob hanswer

end Workbench

/-! ## The result -/

/-- **A lease excludes.** After a lease the document stays with the process and is leased to nobody,
through every run in which nothing gives it back for the process. Who releases a document without
holding it changes nothing and is told that there is no such lease; only of a task with a quality
that is not finite is it said that it cannot be read. -/
theorem lease_excludes {s : Store} (hs : s.Reachable) :
    (∀ now a c key p t, Access.leased? now a s = some (c, key, p) →
      (a.after now s).Leads (fun u _ b => ¬ b.GivesBack u c key p) t →
      t.HeldBy c key p ∧ ∀ now b q, Access.leased? now b t ≠ some (c, key, q)) ∧
    (∀ now key q, ¬ s.HeldBy .jobs key q →
      (Access.releaseJob key q).after now s = s ∧
      (Access.releaseJob key q).answer now s =
        .error (.notFound ("job " ++ key ++ " leased by " ++ q))) ∧
    (∀ now key q, ¬ s.HeldBy .tasks key q →
      (Access.releaseTask key q).after now s = s ∧
      (s.Legible key → (Access.releaseTask key q).answer now s =
        .error (.notFound ("task " ++ key ++ " leased by " ++ q))) ∧
      (¬ s.Legible key → (Access.releaseTask key q).answer now s =
        .error (.deserialize "not a task"))) := by
  have hwf := hs.wellFormed
  refine ⟨fun now a c key p t hleased hrun => ?_, fun now key q hnot => ?_,
    fun now key q hnot => ?_⟩
  · obtain ⟨hc, -, hp⟩ := Access.holder?_of_leased? hwf hleased
    obtain ⟨ht, htp⟩ := Store.holder?_of_leads (Access.wellFormed_after hwf) hc hp hrun
    refine ⟨(ht.heldBy_iff hc).2 htp, fun now' b q hagain => ?_⟩
    -- what is leased once more was free before, and this is not
    have hfree := (Access.holder?_of_leased? ht hagain).2.1
    rw [htp] at hfree
    cases hfree
  · obtain ⟨found, hfound⟩ := hwf.exists_document? (D := Job) key
    have hne := mt (hwf.heldBy_iff (.inl rfl)).2 hnot
    have hrelease := (Store.release_of_holder?_ne hwf hne).1 found hfound
    simp only [Access.after, Access.answer, Access.transaction, Transaction.commit_map, hrelease]
    exact ⟨trivial, rfl⟩
  · have hne := mt (hwf.heldBy_iff (.inr rfl)).2 hnot
    have hboth := Store.release_of_holder?_ne (D := Task) hwf hne
    by_cases hlegible : s.Legible key
    · obtain ⟨found, hfound⟩ := hwf.exists_document?_of_legible hlegible
      have hrelease := hboth.1 found hfound
      simp only [Access.after, Access.answer, Access.transaction, Transaction.commit_map, hrelease]
      exact ⟨trivial, fun _ => rfl, fun h => absurd hlegible h⟩
    · have hrelease := hboth.2 _ (Store.document?_of_not_legible hlegible)
      simp only [Access.after, Access.answer, Access.transaction, Transaction.commit_map, hrelease]
      exact ⟨trivial, fun h => absurd h hlegible, fun _ => rfl⟩

/-- A job that was leased and then told to pause is still the process's alone. -/
theorem lease_excludes_at_workbench :
    let s := (Access.leaseJob [] none .ascending "p").after 0 Workbench.store
    let t := (Access.updateJob .root "j" { status := some .pausing }).after 0 s
    t.HeldBy .jobs "j" "p" ∧
      (∀ now b q, Access.leased? now b t ≠ some (.jobs, "j", q)) ∧
      (Access.releaseJob "j" "q").after 0 t = t := by
  intro s t
  have hs := Workbench.reachable
  have hrun : s.Leads (fun u _ b => ¬ b.GivesBack u .jobs "j" "p") t :=
    .step .refl fun hgives => hgives
  obtain ⟨hheld, hnever⟩ :=
    (lease_excludes hs).1 0 _ .jobs "j" "p" t (Workbench.leased? "p") hrun
  have ht : t.Reachable := (hs.after 0 _).after 0 _
  -- the other process does not hold the job
  have hother : ¬ t.HeldBy .jobs "j" "q" := by
    have hiff (r : String) : t.HeldBy .jobs "j" r ↔ t.holder? .jobs "j" = some r :=
      ht.wellFormed.heldBy_iff (.inl rfl)
    rw [hiff, (hiff "p").1 hheld]
    decide
  exact ⟨hheld, hnever, ((lease_excludes ht).2.1 0 "j" "q" hother).1⟩

end Fleet
