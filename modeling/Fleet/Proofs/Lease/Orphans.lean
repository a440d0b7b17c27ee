import Fleet.Proofs.Access.Serving
import Fleet.Proofs.Registry.Alone
import Fleet.Proofs.Registry.Interruption

/-!
# Leases of terminated processes

A process that leaves or dies gives back what it holds outside of error in the same operation that
terminates it. Nobody looks after a terminated process again, and a lease does not ask whether its
taker is alive, so whether a terminated process holds anything depends on what is done in its name:
`Operation.InService` says what must not be. The leases of one process are nobody else's business, so
all of this is about one process at a time (`terminated_process_holds_nothing`).

What a single access does is said twice, of the documents that are bound to a process
(`Access.unbound_after`) and of its end (`Access.terminated_of_after`). The two operations that take
more than one access to terminate a process and to give back its leases are looked at as a whole.
-/

set_option autoImplicit false

namespace Fleet

open Document (collection key encode decode)
open Transaction (map_eq_ok)

namespace Store

variable {s s' : Store} {c : Collection} {k p : String}

/-- The process is stored, and terminated. -/
def Terminated (s : Store) (process : String) : Prop :=
  ∃ p : Process, s.Has p ∧ p.id = process ∧ p.status = .terminated

/-- The process holds nothing, or only what is in error. -/
structure HoldsNothing (s : Store) (process : String) : Prop where
  jobs : ∀ j : Job, s.Has j → j.process = some process → j.status = .error
  tasks : ∀ t : Task, s.Has t → t.process = some process → t.status = .error
  datasets : ∀ d : Dataset, s.Has d → d.process = some process → d.status = .error
  modules : ∀ m : Module, s.Has m → m.process = some process → m.status = .error

/-- No document goes back from the process when it dies. -/
def Unbound (s : Store) (process : String) : Prop :=
  ∀ c k, c ≠ .processes → s.bound? c k ≠ some process

/-- What the reaper reads off the texts of a collection and what the documents say of their holder
agree in a well-formed store. -/
theorem WellFormed.forall_bound?_ne_iff {D : Type} [Leasable D] [Reclaimed D] (hs : s.WellFormed) :
    (∀ k, s.bound? (collection D) k ≠ some p) ↔
      ∀ d : D, s.Has d → Leasable.holder d = some p → Leasable.releasable d = false := by
  constructor
  · intro h d hd hholder
    by_contra hreleasable
    rw [Bool.not_eq_false] at hreleasable
    exact h (key d) (hs.bound?_eq_some_iff.2 ⟨d, hd, rfl, hholder, hreleasable⟩)
  · intro h k hbound
    obtain ⟨d, hd, -, hholder, hreleasable⟩ := hs.bound?_eq_some_iff.1 hbound
    rw [h d hd hholder] at hreleasable
    cases hreleasable

/-- **Two ways to say that nothing is held**: by the texts, as the reaper reads them, and by the
documents of the four collections. -/
theorem WellFormed.unbound_iff (hs : s.WellFormed) : s.Unbound p ↔ s.HoldsNothing p := by
  have hjobs := hs.forall_bound?_ne_iff (D := Job) (p := p)
  have htasks := hs.forall_bound?_ne_iff (D := Task) (p := p)
  have hdatasets := hs.forall_bound?_ne_iff (D := Dataset) (p := p)
  have hmodules := hs.forall_bound?_ne_iff (D := Module) (p := p)
  -- each collection has its own condition of release, and the predicate spells it out
  simp only [Leasable.holder, Leasable.releasable, bne_eq_false_iff_eq]
    at hjobs htasks hdatasets hmodules
  constructor
  · intro h
    exact ⟨hjobs.1 fun k => h .jobs k nofun, htasks.1 fun k => h .tasks k nofun,
      hdatasets.1 fun k => h .datasets k nofun, hmodules.1 fun k => h .modules k nofun⟩
  · intro h c k hc
    cases c with
    | processes => exact absurd rfl hc
    | jobs => exact hjobs.2 h.jobs k
    | tasks => exact htasks.2 h.tasks k
    | datasets => exact hdatasets.2 h.datasets k
    | modules => exact hmodules.2 h.modules k

/-! ## Writing -/

/-- Whether a process holds anything does not depend on the processes. -/
theorem Unbound.of_find? (h : s.Unbound p)
    (hsame : ∀ c k, c ≠ .processes → (s'.table c).find? k = (s.table c).find? k) :
    s'.Unbound p := by
  intro c k hc
  rw [bound?_of_find?_eq (hsame c k hc)]
  exact h c k hc

section

variable {D : Type} [Leasable D] [LawfulLeasable D]

/-- Writing a document that the process does not hold, or that is in error, binds nothing to it. -/
theorem Unbound.put (h : s.Unbound p) {d : D}
    (hd : Leasable.holder d = some p → Leasable.releasable d = false) : (s.put d).Unbound p := by
  intro c k hc
  by_cases hplace : collection D = c ∧ key d = k
  · -- the place that was written: its text says what the document says
    obtain ⟨rfl, rfl⟩ := hplace
    have hfind := has_put_self s d
    rw [Has] at hfind
    rw [bound?, failed, holder?, hfind, Option.any_some, Option.bind_some,
      LawfulLeasable.failedIn_encode, LawfulLeasable.holderIn_encode]
    intro hbound
    cases hreleasable : Leasable.releasable d with
    | false =>
      rw [hreleasable] at hbound
      cases hbound
    | true =>
      rw [hreleasable] at hbound
      rw [hd hbound] at hreleasable
      cases hreleasable
  · have hsame : ((s.put d).table c).find? k = (s.table c).find? k := by
      rw [find?_put, if_neg hplace]
    rw [bound?_of_find?_eq hsame]
    exact h c k hc

/-- Writing documents that the process does not hold leaves it without any. -/
theorem Unbound.putAll (h : s.Unbound p) {ds : List D}
    (hds : ∀ d ∈ ds, Leasable.holder d = some p → Leasable.releasable d = false) :
    (s.putAll ds).Unbound p := by
  induction ds generalizing s with
  | nil => exact h
  | cons d ds ih =>
    rw [putAll_cons]
    exact ih (h.put (hds d List.mem_cons_self)) fun e he => hds e (List.mem_cons_of_mem d he)

end

/-- Writing a process binds nothing to anyone. -/
theorem Unbound.put_process (h : s.Unbound p) (q : Process) : (s.put q).Unbound p :=
  h.of_find? fun c k hc => by rw [table_put_of_ne s q (Ne.symm hc)]

/-- What is read and held by a process that nothing is bound to is in error. -/
theorem Unbound.releasable_eq_false {D : Type} [Leasable D] [Reclaimed D] (h : s.Unbound p)
    (hs : s.WellFormed) {d : D} (hd : s.document? k = .ok (some d))
    (hholder : Leasable.holder d = some p) : Leasable.releasable d = false := by
  by_contra hreleasable
  rw [Bool.not_eq_false] at hreleasable
  exact h _ k Reclaimed.collection_ne ((hs.bound?_of_document? hd).2 ⟨hholder, hreleasable⟩)

/-- What is bound to a process behind a release was so before, and is not what was to be given back. -/
theorem WellFormed.bound?_of_releaseIn (hs : s.WellFormed) {q : String} {n : Nat}
    (hrelease : releaseIn c q s = .ok (n, s')) {c' : Collection} (hc' : c' ≠ .processes)
    (h : s'.bound? c' k = some p) : s.bound? c' k = some p ∧ ¬ (c' = c ∧ p = q) := by
  by_cases hc : c = .processes
  · subst hc
    obtain ⟨-, rfl⟩ := Transaction.pure_eq_ok.1 hrelease
    exact ⟨h, fun hplace => hc' hplace.1⟩
  · obtain ⟨hsame, hfreed⟩ := hs.find?_of_releaseIn hc hrelease
    by_cases hthis : c' = c ∧ s.bound? c' k = some q
    · obtain ⟨rfl, hbound⟩ := hthis
      obtain ⟨_, text', -, hfind, hfrees⟩ := hfreed k hbound
      -- a document that the reaper freed is nobody's
      rw [bound?_eq_none_of_frees hfrees hfind] at h
      cases h
    · rw [bound?_of_find?_eq (hsame c' k hthis)] at h
      refine ⟨h, ?_⟩
      rintro ⟨rfl, rfl⟩
      exact hthis ⟨rfl, h⟩

/-- What the reaper frees for another process is not bound to this one. -/
theorem Unbound.of_releaseIn (h : s.Unbound p) (hs : s.WellFormed) {q : String} {n : Nat}
    (hrelease : releaseIn c q s = .ok (n, s')) : s'.Unbound p := by
  intro c' k hc' hbound
  exact h c' k hc' (hs.bound?_of_releaseIn hrelease hc' hbound).1

end Store

/-! ## Accesses -/

namespace Access

open Store

variable {now : Millis} {a : Access} {s s' : Store} {p : String}

/-- The access gives a document to the process, or may take one that it has out of error. -/
def Binds (a : Access) (process : String) : Prop :=
  match a with
  | putDataset d => d.process = some process ∧ d.status ≠ .error
  | putModule m => m.process = some process ∧ m.status ≠ .error
  | leaseJob _ _ _ p => p = process
  | leaseTask _ _ _ p => p = process
  | cascade _ sources _ => .error ∈ sources
  | _ => False

/-- The access may terminate the process. -/
def Ends (a : Access) (process : String) : Prop :=
  match a with
  | putProcess p => p.id = process ∧ p.status = .terminated
  | setProcessStatus id status => id = process ∧ status = .terminated
  | terminateStale _ => True
  | _ => False

/-- A lease for another process binds nothing to this one. -/
theorem unbound_of_lease {D S : Type} [Leasable D] [Reclaimed D] [SortField S D] {test : D → Bool}
    {sort : Option S} {direction : Direction} {process : String} {r : Option D}
    (hu : s.Unbound p) (hne : process ≠ p)
    (h : Transaction.lease now test sort direction process s = .ok (r, s')) : s'.Unbound p := by
  obtain ⟨ds, -, ⟨-, -, rfl⟩ | ⟨d, -, -, rfl⟩⟩ := Transaction.lease_eq_ok.1 h
  · exact hu
  · refine hu.put fun hholder => ?_
    rw [LawfulLeasable.holder_withHolder] at hholder
    exact absurd (Option.some.inj hholder) hne

/-- Giving a lease back binds nothing to anyone. -/
theorem unbound_of_release {D : Type} [Leasable D] [Reclaimed D] {k process : String} {u : Unit}
    (hu : s.Unbound p) (h : Transaction.release D k process s = .ok (u, s')) : s'.Unbound p := by
  obtain ⟨d, -, -, rfl⟩ := Transaction.release_eq_ok.1 h
  refine hu.put fun hholder => ?_
  rw [LawfulLeasable.holder_withHolder] at hholder
  cases hholder

/-- Putting a document that the process does not hold, or that is in error, binds nothing to it. -/
theorem unbound_of_put {D : Type} [Leasable D] [LawfulLeasable D] {d : D} {u : Unit}
    (hu : s.Unbound p) (hd : Leasable.holder d = some p → Leasable.releasable d = false)
    (h : Transaction.put d s = .ok (u, s')) : s'.Unbound p := by
  obtain rfl := Transaction.put_eq_ok.1 h
  exact hu.put hd

/-- A job starts out as nobody's. -/
theorem unbound_of_createJob {id : String} {caller : Caller} {new : NewJob} {j : Job}
    (hu : s.Unbound p) (h : Job.create now id caller new s = .ok (j, s')) : s'.Unbound p := by
  obtain ⟨_, _, _, _, -, -, -, -, -, -, rfl, -⟩ := Job.create_eq_ok.1 h
  exact hu.put fun hholder => nomatch hholder

/-- An update keeps the holder of a job, and takes none that is in error out of error. -/
theorem unbound_of_changeJob {id : String} {caller : Caller} {u : JobUpdate} {j' : Job}
    (hs : s.WellFormed) (hu : s.Unbound p) (h : Job.change now caller id u s = .ok (j', s')) :
    s'.Unbound p := by
  obtain ⟨j, changed, hj, -, happly, rfl, -⟩ := Job.change_eq_ok.1 h
  refine hu.put fun hholder => ?_
  have hprocess : Leasable.holder changed = Leasable.holder j := (Job.apply_eq_ok happly).1.process
  rw [hprocess] at hholder
  have hbefore := hu.releasable_eq_false hs hj hholder
  simp only [Leasable.releasable, bne_eq_false_iff_eq] at hbefore ⊢
  exact Job.status_of_apply_of_error hbefore happly

/-- A job that a model is appended to keeps its holder and its status. -/
theorem unbound_of_appendModel {id model : String} {taken : Bool} (hs : s.WellFormed)
    (hu : s.Unbound p) (h : Job.appendModel id model s = .ok (taken, s')) : s'.Unbound p := by
  obtain ⟨j, hj, ⟨-, configSpace, -, rfl⟩ | ⟨-, rfl⟩⟩ := Job.appendModel_eq_ok h
  · refine hu.put fun hholder => ?_
    have hbefore : Leasable.releasable j = false := hu.releasable_eq_false hs hj hholder
    exact hbefore
  · exact hu

/-- A task starts out as nobody's. -/
theorem unbound_of_createTask {caller : Caller} {new : NewTask} {t : Task} (hu : s.Unbound p)
    (h : Task.create now caller new s = .ok (t, s')) : s'.Unbound p := by
  obtain ⟨_, _, -, -, -, -, -, -, rfl, -⟩ := Task.create_eq_ok.1 h
  exact hu.put fun hholder => nomatch hholder

/-- An update keeps the holder of a task, and takes none that is in error out of error. -/
theorem unbound_of_changeTask {id : String} {caller : Caller} {u : TaskUpdate} {t' : Task}
    (hs : s.WellFormed) (hu : s.Unbound p) (h : Task.change now caller id u s = .ok (t', s')) :
    s'.Unbound p := by
  obtain ⟨t, changed, ht, -, happly, rfl, -⟩ := Task.change_eq_ok.1 h
  refine hu.put fun hholder => ?_
  have hprocess : Leasable.holder changed = Leasable.holder t := (Task.tended_apply happly).process
  rw [hprocess] at hholder
  have hbefore := hu.releasable_eq_false hs ht hholder
  simp only [Leasable.releasable, bne_eq_false_iff_eq] at hbefore ⊢
  exact Task.status_of_apply_of_error hbefore happly

/-- A cascade from statuses that are no error does not touch what a process without leases holds. -/
theorem unbound_of_cascade {job : String} {sources : List TaskStatus} {target : TaskStatus}
    {n : Nat} (hs : s.WellFormed) (hu : s.Unbound p) (hsources : .error ∉ sources)
    (h : Task.cascade job sources target s = .ok (n, s')) : s'.Unbound p := by
  obtain ⟨ts, hts, -, rfl⟩ := Task.cascade_eq_ok.1 h
  refine hu.putAll fun t' ht' hholder => ?_
  obtain ⟨t, ht, rfl⟩ := List.mem_map.1 ht'
  obtain ⟨hmem, htest⟩ := List.mem_filter.1 ht
  obtain ⟨k, hk⟩ := (Store.mem_documents hts).1 hmem
  -- the process has the task in error already, and a cascade does not move such a task
  have hbefore := hu.releasable_eq_false hs hk hholder
  simp only [Leasable.releasable, bne_eq_false_iff_eq] at hbefore
  simp only [hbefore, Bool.and_eq_true, List.contains_iff_mem] at htest
  exact absurd htest.2 hsources

/-- What is written of the processes binds nothing to anyone. -/
theorem unbound_of_edits (hu : s.Unbound p) (h : s.Edits .processes s') : s'.Unbound p :=
  hu.of_find? fun c k hc => by rw [h.table_of_ne (Ne.symm hc)]

/-- An access that succeeds and does not bind anything to a process leaves it without leases. -/
theorem unbound_of_ok {r : Reply} (hs : s.WellFormed) (hu : s.Unbound p) (ha : ¬ a.Binds p)
    (h : a.transaction now s = .ok (r, s')) : s'.Unbound p := by
  cases a with
  | putDataset d =>
    have herror (hholder : d.process = some p) : Leasable.releasable d = false :=
      bne_eq_false_iff_eq.2 (by_contra fun hstatus => ha ⟨hholder, hstatus⟩)
    exact of_map_eq_ok h fun _ => unbound_of_put hu herror
  | putModule m =>
    have herror (hholder : m.process = some p) : Leasable.releasable m = false :=
      bne_eq_false_iff_eq.2 (by_contra fun hstatus => ha ⟨hholder, hstatus⟩)
    exact of_map_eq_ok h fun _ => unbound_of_put hu herror
  | createJob id caller new => exact of_map_eq_ok h fun _ => unbound_of_createJob hu
  | updateJob caller id u => exact of_map_eq_ok h fun _ => unbound_of_changeJob hs hu
  | leaseJob filters sort direction process => exact of_map_eq_ok h fun _ => unbound_of_lease hu ha
  | releaseJob id process => exact of_map_eq_ok h fun _ => unbound_of_release hu
  | appendModel id model => exact of_map_eq_ok h fun _ => unbound_of_appendModel hs hu
  | createTask caller new => exact of_map_eq_ok h fun _ => unbound_of_createTask hu
  | updateTask caller id u => exact of_map_eq_ok h fun _ => unbound_of_changeTask hs hu
  | leaseTask filters sort direction process => exact of_map_eq_ok h fun _ => unbound_of_lease hu ha
  | releaseTask id process => exact of_map_eq_ok h fun _ => unbound_of_release hu
  | cascade job sources target => exact of_map_eq_ok h fun _ => unbound_of_cascade hs hu ha
  | releaseHeld c process => exact of_map_eq_ok h fun _ => hu.of_releaseIn hs
  -- all others write processes
  | _ => exact unbound_of_edits hu (edits_of_ok h)

/-- Besides the accesses that bind something to a process there is none behind which more is bound to
it. -/
theorem unbound_after (hs : s.WellFormed) (hu : s.Unbound p) (ha : ¬ a.Binds p) (now : Millis) :
    (a.after now s).Unbound p :=
  after_induction hu fun _ _ h => unbound_of_ok hs hu ha h

/-- A change of a stored process that keeps its status terminates nobody. -/
theorem terminated_of_put {q q' : Process} (hq : s.Has q) (hkey : q'.id = q.id)
    (hstatus : q'.status = q.status) (h : (s.put q').Terminated p) : s.Terminated p := by
  obtain ⟨r, hr, rfl, hterminated⟩ := h
  rcases has_put_iff.1 hr with rfl | ⟨-, hr⟩
  · exact ⟨q, hq, hkey.symm, hstatus ▸ hterminated⟩
  · exact ⟨r, hr, rfl, hterminated⟩

/-- Drawing a claim number terminates nobody. -/
theorem terminated_drawn {claim : UInt64} (h : (Process.drawn s claim).Terminated p) :
    s.Terminated p := by
  obtain ⟨q, hq, hid, hterminated⟩ := h
  refine ⟨q, ?_, hid, hterminated⟩
  rw [Has, Process.table_drawn] at hq
  exact hq

/-- A process starts out alive. -/
theorem terminated_of_create {id : String} {new : NewProcess} {q : Process}
    (hcreate : Process.create now id new s = .ok (q, s')) (h : s'.Terminated p) :
    s.Terminated p := by
  obtain ⟨claim, -, -, rfl, rfl⟩ := Process.create_eq_ok.1 hcreate
  obtain ⟨q', hq', hid, hterminated⟩ := h
  rcases has_put_iff.1 hq' with rfl | ⟨-, hq'⟩
  · cases hterminated
  · exact terminated_drawn ⟨q', hq', hid, hterminated⟩

/-- A claim keeps the status of the process that makes it. -/
theorem terminated_of_claimOrdinal {id : String} {ordinal : UInt32} {q' : Process}
    (hs : s.WellFormed) (hclaim : Process.claimOrdinal now id ordinal s = .ok (q', s'))
    (h : s'.Terminated p) : s.Terminated p := by
  obtain ⟨q, claim, hq, -, rfl, rfl⟩ := Process.claimOrdinal_eq_ok.1 hclaim
  have hhas : (Process.drawn s claim).Has q := by
    rw [Has, Process.table_drawn]
    exact (hs.document?_eq_ok_some.1 hq).1
  refine terminated_drawn (terminated_of_put hhas ?_ ?_ h)
  · rfl
  · rfl

/-- So does a sign of life. -/
theorem terminated_of_keepalive {id : String} {q' : Process} (hs : s.WellFormed)
    (hkeepalive : Process.keepalive now id s = .ok (q', s')) (h : s'.Terminated p) :
    s.Terminated p := by
  obtain ⟨q, hq, rfl, rfl⟩ := Process.keepalive_eq_ok.1 hkeepalive
  refine terminated_of_put (hs.document?_eq_ok_some.1 hq).1 ?_ ?_ h
  · rfl
  · rfl

/-- A process that is put terminates itself at most. -/
theorem terminated_of_put_self {q : Process} (hq : ¬ (q.id = p ∧ q.status = .terminated))
    (h : (s.put q).Terminated p) : s.Terminated p := by
  obtain ⟨q', hq', hid, hterminated⟩ := h
  rcases has_put_iff.1 hq' with rfl | ⟨-, hq'⟩
  · exact absurd ⟨hid, hterminated⟩ hq
  · exact ⟨q', hq', hid, hterminated⟩

/-- A change of status terminates nobody if it is to another status, or the process of another id. -/
theorem terminated_of_setStatus {id : String} {status : ProcessStatus} {q' : Process}
    (hs : s.WellFormed) (hne : ¬ (id = p ∧ status = .terminated))
    (hstatus : Process.setStatus now id status s = .ok (q', s')) (h : s'.Terminated p) :
    s.Terminated p := by
  obtain ⟨q, hq, rfl, rfl⟩ := Process.setStatus_eq_ok.1 hstatus
  obtain ⟨-, rfl⟩ := hs.document?_eq_ok_some.1 hq
  exact terminated_of_put_self hne h

/-- What is written of another collection terminates nobody. -/
theorem terminated_of_edits {c : Collection} (hc : c ≠ .processes) (hedits : s.Edits c s')
    (h : s'.Terminated p) : s.Terminated p := by
  obtain ⟨q, hq, hid, hterminated⟩ := h
  refine ⟨q, ?_, hid, hterminated⟩
  have htable : s'.table .processes = s.table .processes := hedits.table_of_ne hc
  have hfind : (s'.table .processes).find? q.id = some (encode q) := hq
  rw [htable] at hfind
  exact hfind

/-- Besides the accesses that may terminate a process there is none behind which it is newly
terminated. -/
theorem terminated_of_after (hs : s.WellFormed) (ha : ¬ a.Ends p)
    (h : (a.after now s).Terminated p) : s.Terminated p := by
  revert h
  refine after_induction (P := fun s' => s'.Terminated p → s.Terminated p) id fun r s' hok => ?_
  by_cases hprocesses : a.collection = .processes
  case neg => exact terminated_of_edits hprocesses (edits_of_ok hok)
  cases a with
  | putProcess q =>
    obtain ⟨_, hput, -⟩ := map_eq_ok.1 hok
    obtain rfl := Transaction.put_eq_ok.1 hput
    exact terminated_of_put_self ha
  | createProcess id new => exact of_map_eq_ok hok fun _ => terminated_of_create
  | claimOrdinal id ordinal => exact of_map_eq_ok hok fun _ => terminated_of_claimOrdinal hs
  | recordKeepalive id => exact of_map_eq_ok hok fun _ => terminated_of_keepalive hs
  | setProcessStatus id status => exact of_map_eq_ok hok fun _ => terminated_of_setStatus hs ha
  | terminateStale cutoff => exact absurd trivial ha
  | releaseHeld c process =>
    obtain ⟨_, hrelease, -⟩ := map_eq_ok.1 hok
    obtain rfl : c = .processes := hprocesses
    obtain ⟨-, rfl⟩ := Transaction.pure_eq_ok.1 hrelease
    exact id
  | _ => cases hprocesses

end Access

/-! ## Operations -/

namespace Store

variable {s s' : Store} {p : String}

/-- Where the process is terminated nothing is bound to it. -/
structure Tidy (s : Store) (process : String) : Prop where
  wellFormed : s.WellFormed
  unbound : s.Terminated process → s.Unbound process

/-- In the empty store nobody holds anything. -/
theorem tidy_empty (process : String) : Tidy .empty process := by
  refine ⟨wellFormed_empty, ?_⟩
  rintro ⟨q, hq, -, -⟩
  cases hq

/-- An access leaves no lease behind that binds nothing to a terminated process and terminates none to
which something is bound. -/
theorem Tidy.after (h : s.Tidy p) {a : Access} (hbinds : s.Terminated p → ¬ a.Binds p)
    (hends : a.Ends p → s.Unbound p) (now : Millis) : (a.after now s).Tidy p := by
  refine ⟨Access.wellFormed_after h.wellFormed, fun hafter => ?_⟩
  by_cases ha : a.Ends p
  · -- what may terminate a process binds nothing
    have hnot : ¬ a.Binds p := by
      cases a <;> first | exact id | exact absurd ha id
    exact Access.unbound_after h.wellFormed (hends ha) hnot now
  · have hbefore := Access.terminated_of_after h.wellFormed ha hafter
    exact Access.unbound_after h.wellFormed (h.unbound hbefore) (hbinds hbefore) now

/-- **The step lemma for one transaction**: the process is not given anything when it has ended, and
it holds nothing when it is ended. -/
theorem Tidy.commit {α : Type} {t : Transaction α} {f : α → Reply} {n : Millis} {a : Access}
    (h : s.Tidy p) (hmap : f <$> t = a.transaction n) (hbinds : s.Terminated p → ¬ a.Binds p)
    (hends : a.Ends p → s.Unbound p) : (t.commit s).2.Tidy p := by
  have hafter : a.after n s = (t.commit s).2 := by
    rw [Access.after, ← hmap, Transaction.commit_map]
  rw [← hafter]
  exact h.after hbinds hends n

end Store

namespace Registration

/-- What creations and claims keep. -/
structure Keeps (P : Store → Prop) : Prop where
  create : ∀ now id new s, P s → P ((Process.create now id new).commit s).2
  claim : ∀ now id ordinal s, P s → P ((Process.claimOrdinal now id ordinal).commit s).2

variable {P : Store → Prop}

/-- What the two writes of a registration keep, each of its steps keeps. -/
theorem Keeps.step (hP : Keeps P) (now : Millis) (a : Applicant) (id : String) {s : Store} (h : P s)
    (r : Registration) : P (r.step now a id s).2 := by
  -- which step comes next does not matter to the store
  have hafter {α : Type} (next : α → Registration) (outcome : Except StateError α × Store) :
      (after next outcome).2 = outcome.2 := by
    rcases outcome with ⟨e | b, s⟩ <;> rfl
  have hlive (kind : ProcessKind) : ((Process.live now kind).commit s).2 = s :=
    (Transaction.readsOnly_scan now _).commit s
  cases r with
  | choosing =>
    rw [Registration.step, hafter, hlive]
    exact h
  | creating ordinal =>
    rw [Registration.step, hafter]
    exact hP.create now id _ s h
  | checking p =>
    rw [Registration.step, hafter, hlive]
    exact h
  | claiming p ordinal =>
    rw [Registration.step, hafter]
    exact hP.claim now p.id ordinal s h
  | accepted p => exact h
  | failed e => exact h

/-- What each step of a registration keeps, drawing an id or not, its advance keeps. -/
theorem Keeps.advance (hP : Keeps P) (a : Applicant) {w : World} (h : P w.store)
    (r : Registration) : P (r.advance a w).2.store := by
  cases r with
  | creating ordinal =>
    -- a draw that fails leaves the store as it was
    rw [← w.store_newId] at h
    rw [Registration.advance]
    generalize w.newId = drawn at h
    rcases drawn with ⟨e | id, w'⟩
    · exact h
    · exact hP.step w'.now a id h (.creating ordinal)
  | choosing => exact hP.step w.now a "" h .choosing
  | checking p => exact hP.step w.now a "" h (.checking p)
  | claiming p ordinal => exact hP.step w.now a "" h (.claiming p ordinal)
  | accepted p => exact h
  | failed e => exact h

/-- What creations and claims keep a registration keeps. -/
theorem Keeps.finish (hP : Keeps P) (a : Applicant) (fuel : Nat) {w : World} (h : P w.store)
    (r : Registration) : P (finish a fuel w r).2.store := by
  induction fuel generalizing w r with
  | zero => cases r <;> exact h
  | succ fuel ih =>
    cases r with
    | accepted p => exact h
    | failed e => exact h
    | choosing => exact ih (hP.advance a h .choosing) _
    | creating ordinal => exact ih (hP.advance a h (.creating ordinal)) _
    | checking p => exact ih (hP.advance a h (.checking p)) _
    | claiming p ordinal => exact ih (hP.advance a h (.claiming p ordinal)) _

end Registration

/-- A registration leaves the store tidy. -/
theorem Store.Tidy.register {w : World} {p : String} (h : w.store.Tidy p) (a : Applicant) :
    (Registration.register a w).2.store.Tidy p := by
  have hkeeps : Registration.Keeps fun s => s.Tidy p := by
    refine ⟨fun now id new s hs => ?_, fun now id ordinal s hs => ?_⟩
    · exact hs.commit (a := .createProcess id new) rfl (fun _ hbinds => hbinds) False.elim
    · exact hs.commit (a := .claimOrdinal id ordinal) rfl (fun _ hbinds => hbinds) False.elim
  exact hkeeps.finish a _ h .choosing

/-! ## Passes of the reaper -/

namespace Reaping

open Store

variable {now cutoff : Millis} {r r' : Reaping} {s s' t : Store} {p : String}

/-- A turn of the reaper binds nothing to anyone. -/
theorem Turn.unbound (h : Turn cutoff r s r' s') (hs : s.WellFormed) (hu : s.Unbound p) :
    s'.Unbound p := by
  cases h with
  | terminate reaped hq hstale => exact hu.put_process _
  | next reaped hrelease => exact hu.of_releaseIn hs hrelease
  | last reaped hrelease => exact hu.of_releaseIn hs hrelease
  | rest => exact hu
  | fail => exact hu

/-- Nor does a pass, however far it gets. -/
theorem unbound_finish (fuel : Nat) (hs : s.WellFormed) (hu : s.Unbound p) :
    (finish now cutoff fuel s r).2.Unbound p := by
  induction fuel generalizing r s with
  | zero => cases r <;> exact hu
  | succ fuel ih =>
    by_cases hgoing : r.Going
    · have hturn := turn_step hs hgoing now cutoff
      rw [finish_succ hgoing]
      exact ih (hturn.wellFormed hs) (hturn.unbound hs hu)
    · cases r with
      | finished result => exact hu
      | _ => exact absurd (fun _ => nofun) hgoing

/-- Whoever is terminated behind a pass that ended well was so before, or it was stale and has given
everything back. -/
theorem Outcome.tidy (h : Outcome cutoff (.seeking []) s t) (ht : t.WellFormed) (hs : s.Tidy p) :
    t.Tidy p := by
  refine ⟨ht, fun hterminated c k hc hbound => ?_⟩
  by_cases htakes : (seeking []).Takes cutoff s c k
  · obtain ⟨_, text', -, hfind, hfrees⟩ := h.freed c k htakes
    rw [bound?_eq_none_of_frees hfrees hfind] at hbound
    cases hbound
  · rw [bound?_of_find?_eq (h.kept c k hc htakes)] at hbound
    -- the document stayed with the process, so the process was not stale, and its own text stayed
    have hstale : ¬ s.Stale cutoff p := fun hstale => htakes ⟨hc, p, hbound, .inl hstale⟩
    obtain ⟨q, hq, rfl, hstatus⟩ := hterminated
    have hkept : s.Has q := (h.kept_process q.id hstale).symm.trans hq
    exact hs.unbound ⟨q, hkept, rfl, hstatus⟩ c k hc hbound

end Reaping

/-! ## Leaving -/

namespace Session

variable {ε ε' α β : Type} {P : Store → Prop}

/-- What holds before a session holds behind it. -/
def Preserves (P : Store → Prop) (p : Session ε α) : Prop := ∀ s, P s → P (p.on s).2

/-- A session that answers a value keeps everything. -/
theorem preserves_pure (a : α) : Preserves P (pure a : Session ε α) := fun _ h => h

/-- What two sessions keep, one after the other keeps. -/
theorem Preserves.bind {p : Session ε α} {f : α → Session ε β} (hp : Preserves P p)
    (hf : ∀ a, Preserves P (f a)) : Preserves P (p >>= f) := by
  intro s h
  have hon : (p >>= f).on s = ExceptT.bindCont f (p.on s).1 (p.on s).2 := rfl
  have hfirst := hp s h
  rw [hon]
  generalize p.on s = outcome at hfirst ⊢
  rcases outcome with ⟨e | a, s'⟩
  · exact hfirst
  · exact hf a s' hfirst

/-- Naming a failure after the registry does not matter where there is none. -/
theorem inRegistry_on_eq_ok {p : Session StateError α} {s t : Store} {a : α} :
    p.inRegistry.on s = (.ok a, t) ↔ p.on s = (.ok a, t) := by
  have hon : p.inRegistry.on s = ((p.on s).1.mapError .state, (p.on s).2) := rfl
  rw [hon]
  rcases p.on s with ⟨e | a', s'⟩ <;> simp [Except.mapError]

end Session

open Session Transaction

namespace Store

variable {s t : Store} {p : String}

/-- Giving back everything is four transactions, one on what each leaves. -/
theorem releaseAll_on_eq_ok {r : ReleasedLeases} :
    (releaseAll p).on s = (.ok r, t) ↔
      ∃ s₁ s₂ s₃, releaseIn .datasets p s = .ok (r.datasets, s₁) ∧
        releaseIn .modules p s₁ = .ok (r.modules, s₂) ∧
        releaseIn .jobs p s₂ = .ok (r.jobs, s₃) ∧
        releaseIn .tasks p s₃ = .ok (r.tasks, t) := by
  constructor
  · intro h
    obtain ⟨n₁, s₁, h₁, h⟩ := bind_on_eq_ok.1 h
    obtain ⟨n₂, s₂, h₂, h⟩ := bind_on_eq_ok.1 h
    obtain ⟨n₃, s₃, h₃, h⟩ := bind_on_eq_ok.1 h
    obtain ⟨n₄, s₄, h₄, h⟩ := bind_on_eq_ok.1 h
    cases h
    exact ⟨s₁, s₂, s₃, commit_eq_ok.1 h₁, commit_eq_ok.1 h₂, commit_eq_ok.1 h₃, commit_eq_ok.1 h₄⟩
  · rintro ⟨s₁, s₂, s₃, h₁, h₂, h₃, h₄⟩
    exact bind_on_eq_ok.2 ⟨_, s₁, commit_eq_ok.2 h₁, bind_on_eq_ok.2 ⟨_, s₂, commit_eq_ok.2 h₂,
      bind_on_eq_ok.2 ⟨_, s₃, commit_eq_ok.2 h₃, bind_on_eq_ok.2 ⟨_, t, commit_eq_ok.2 h₄, rfl⟩⟩⟩⟩

/-- Who has given back everything has nothing bound to it. -/
theorem unbound_of_releaseAll (hs : s.WellFormed) {r : ReleasedLeases}
    (h : (releaseAll p).on s = (.ok r, t)) : t.Unbound p := by
  obtain ⟨s₁, s₂, s₃, h₁, h₂, h₃, h₄⟩ := releaseAll_on_eq_ok.1 h
  have hs₁ := (Access.edits_releaseIn h₁).wellFormed hs
  have hs₂ := (Access.edits_releaseIn h₂).wellFormed hs₁
  have hs₃ := (Access.edits_releaseIn h₃).wellFormed hs₂
  -- what is bound in the end was bound behind each of the four, and in none of their collections
  intro c k hc hbound
  obtain ⟨hbound, hne₄⟩ := hs₃.bound?_of_releaseIn h₄ hc hbound
  obtain ⟨hbound, hne₃⟩ := hs₂.bound?_of_releaseIn h₃ hc hbound
  obtain ⟨hbound, hne₂⟩ := hs₁.bound?_of_releaseIn h₂ hc hbound
  obtain ⟨-, hne₁⟩ := hs.bound?_of_releaseIn h₁ hc hbound
  cases c with
  | processes => exact hc rfl
  | jobs => exact hne₃ ⟨rfl, rfl⟩
  | tasks => exact hne₄ ⟨rfl, rfl⟩
  | datasets => exact hne₁ ⟨rfl, rfl⟩
  | modules => exact hne₂ ⟨rfl, rfl⟩

/-- What releasing any one collection keeps, releasing all four keeps. -/
theorem preserves_releaseAll {P : Store → Prop} {id : String}
    (hP : ∀ c, Preserves P (transact (releaseIn c id))) : Preserves P (releaseAll id) :=
  (hP .datasets).bind fun _ => (hP .modules).bind fun _ => (hP .jobs).bind fun _ =>
    (hP .tasks).bind fun _ => preserves_pure _

/-- A process leaves the leases of the others alone. -/
theorem Tidy.deregister_of_ne (h : s.Tidy p) (now : Millis) {id : String} (hne : id ≠ p) :
    ((deregister now id).on s).2.Tidy p := by
  have hstatus : Preserves (fun s => s.Tidy p) (transact (Process.setStatus now id .terminated)) :=
    fun s hs => hs.commit (a := .setProcessStatus id .terminated) rfl (fun _ hbinds => hbinds)
      fun hends => absurd hends.1 hne
  have hrelease (c : Collection) : Preserves (fun s => s.Tidy p) (transact (releaseIn c id)) :=
    fun s hs => hs.commit (n := 0) (a := .releaseHeld c id) rfl (fun _ hbinds => hbinds) False.elim
  exact (hstatus.bind fun _ => preserves_releaseAll hrelease) s h

/-- The departure of another process binds nothing to this one. -/
theorem Unbound.deregister (hs : s.WellFormed) (h : s.Unbound p) (now : Millis) (id : String) :
    ((deregister now id).on s).2.Unbound p := by
  -- each of the five transactions is an access that does not bind
  have hpreserves {α : Type} {t : Transaction α} {f : α → Reply} {n : Millis} {a : Access}
      (hmap : f <$> t = a.transaction n) (ha : ¬ a.Binds p) :
      Preserves (fun s => s.WellFormed ∧ s.Unbound p) (transact t) := by
    rintro s ⟨hs, hu⟩
    have hafter : a.after n s = (t.commit s).2 := by
      rw [Access.after, ← hmap, Transaction.commit_map]
    show (t.commit s).2.WellFormed ∧ (t.commit s).2.Unbound p
    rw [← hafter]
    exact ⟨Access.wellFormed_after hs, Access.unbound_after hs hu ha n⟩
  have hstatus := hpreserves (t := Process.setStatus now id .terminated)
    (a := .setProcessStatus id .terminated) rfl fun hbinds => hbinds
  have hrelease (c : Collection) := hpreserves (t := releaseIn c id) (n := 0)
    (a := .releaseHeld c id) rfl fun hbinds => hbinds
  exact ((hstatus.bind fun _ => preserves_releaseAll hrelease) s ⟨hs, h⟩).2

/-- A process that has left holds nothing. -/
theorem unbound_of_deregister (hs : s.WellFormed) {now : Millis} {r : ReleasedLeases}
    (h : (deregister now p).on s = (.ok r, t)) : t.Unbound p := by
  rw [Fleet.deregister] at h
  obtain ⟨_, s', hstatus, hrelease⟩ := bind_on_eq_ok.1 (inRegistry_on_eq_ok.1 h)
  have hstatus := commit_eq_ok.1 hstatus
  obtain ⟨q, -, -, rfl⟩ := Process.setStatus_eq_ok.1 hstatus
  exact unbound_of_releaseAll (hs.put _) hrelease

end Store

/-! ## Daily business -/

namespace Operation

open Store

/-- The operation is one of the daily business, and does no harm to a process that has ended or ends
by it: nothing is leased in the name of the process when it is terminated, it is marked as
terminated without further ado only when it holds nothing, and when it leaves or dies its leases are
given back. -/
def InService (process : String) (w : World) (op : Operation) : Prop :=
  match op with
  | putDataset d => w.store.Terminated process → d.process = some process → d.status = .error
  | putModule m => w.store.Terminated process → m.process = some process → m.status = .error
  | leaseJob _ _ _ p => w.store.Terminated process → p ≠ process
  | leaseTask _ _ _ p => w.store.Terminated process → p ≠ process
  | setProcessStatus id status =>
    id = process → status = .terminated → w.store.HoldsNothing process
  | deregister id => ∀ e, ((deregister id).perform w).1 = .error e →
    ((deregister id).perform w).2.store.Terminated process → w.store.Terminated process
  | reap timeout => ∀ e, ((reap timeout).perform w).1 = .error e →
    ((reap timeout).perform w).2.store.Terminated process → w.store.Terminated process
  | createJob _ _ | updateJob _ _ _ | releaseJob _ _ | createTask _ _ | updateTask _ _ _
  | releaseTask _ _ | register _ | keepAlive _ | recordKeepalive _ => True
  | _ => False

variable {w : World} {op : Operation} {p : String}

/-- An operation that fails half-way is as good as one that ends well, if it terminates nobody. -/
theorem tidy_perform_of_error (h : w.store.Tidy p) (ht : (op.perform w).2.store.WellFormed)
    (hunbound : w.store.Unbound p → (op.perform w).2.store.Unbound p)
    (hterminated : (op.perform w).2.store.Terminated p → w.store.Terminated p) :
    (op.perform w).2.store.Tidy p :=
  ⟨ht, fun hafter => hunbound (h.unbound (hterminated hafter))⟩

/-- A job starts out as nobody's, whether an id is drawn for it or not. -/
theorem tidy_createJob (h : w.store.Tidy p) (caller : Caller) (new : NewJob) :
    ((createJob caller new).perform w).2.store.Tidy p := by
  rw [← w.store_newId] at h
  simp only [perform, World.runWithId]
  generalize w.newId = drawn at h
  rcases drawn with ⟨e | id, w'⟩
  · exact h
  · exact h.commit (a := .createJob id caller new) rfl (fun _ hbinds => hbinds) False.elim

/-- A process that leaves holds nothing afterwards, or it is not terminated. -/
theorem tidy_deregister (h : w.store.Tidy p) (hop : (deregister p).InService p w) :
    ((deregister p).perform w).2.store.Tidy p := by
  have hwf := wellFormed_perform h.wellFormed (deregister p)
  cases hresult : ((Fleet.deregister w.now p).on w.store).1 with
  | ok r => exact ⟨hwf, fun _ => unbound_of_deregister h.wellFormed (Prod.ext hresult rfl)⟩
  | error e =>
    -- a departure that fails may have ended the process and released a part only
    refine tidy_perform_of_error h hwf (fun hu => hu.deregister h.wellFormed w.now p) ?_
    refine hop (.registry e) ?_
    show (((Fleet.deregister w.now p).on w.store).1.mapError Failure.registry).map _ = _
    rw [hresult]
    rfl

/-- Nor does one that a pass of the reaper terminates. -/
theorem tidy_reap (h : w.store.Tidy p) {timeout : Duration} (hop : (reap timeout).InService p w) :
    ((reap timeout).perform w).2.store.Tidy p := by
  have hwf := wellFormed_perform h.wellFormed (reap timeout)
  cases hresult : ((reapOnce w.now timeout).on w.store).1 with
  | ok found =>
    cases found with
    -- a pass comes to an end, since every process lies under its own id
    | none => exact absurd hresult (reapOnce_ne_none h.wellFormed.keyed.homes w.now timeout)
    | some ps =>
      have houtcome := outcome_of_reapOnce h.wellFormed (Prod.ext hresult rfl)
      exact houtcome.tidy hwf h
  | error e =>
    refine tidy_perform_of_error h hwf (fun hu => ?_) ?_
    · show (Reaping.finish w.now _ (Reaping.enough w.store) w.store (.seeking [])).2.Unbound p
      exact Reaping.unbound_finish _ h.wellFormed hu
    · refine hop (.registry e) ?_
      show (((reapOnce w.now timeout).on w.store).1.mapError Failure.registry).map _ = _
      rw [hresult]
      rfl

/-- One operation. -/
theorem tidy_perform (h : w.store.Tidy p) (hop : op.InService p w) :
    (op.perform w).2.store.Tidy p := by
  cases op with
  | putDataset d =>
    refine h.commit (n := 0) (a := .putDataset d) rfl ?_ False.elim
    -- the document that is put may not be held by the process if it has ended
    rintro hterminated ⟨hholder, hstatus⟩
    exact hstatus (hop hterminated hholder)
  | putModule m =>
    refine h.commit (n := 0) (a := .putModule m) rfl ?_ False.elim
    rintro hterminated ⟨hholder, hstatus⟩
    exact hstatus (hop hterminated hholder)
  | recordKeepalive id =>
    exact h.commit (a := .recordKeepalive id) rfl (fun _ hbinds => hbinds) False.elim
  | setProcessStatus id status =>
    refine h.commit (a := .setProcessStatus id status) rfl (fun _ hbinds => hbinds) ?_
    rintro ⟨hid, hstatus⟩
    -- a process that is ended by hand holds nothing then
    exact h.wellFormed.unbound_iff.2 (hop hid hstatus)
  | createJob caller new => exact tidy_createJob h caller new
  | updateJob caller id u =>
    exact h.commit (a := .updateJob caller id u) rfl (fun _ hbinds => hbinds) False.elim
  | leaseJob filters sort direction process =>
    exact h.commit (a := .leaseJob filters sort direction process) rfl
      (fun hterminated hbinds => hop hterminated hbinds) False.elim
  | releaseJob id process =>
    exact h.commit (n := 0) (a := .releaseJob id process) rfl (fun _ hbinds => hbinds) False.elim
  | createTask caller new =>
    exact h.commit (a := .createTask caller new) rfl (fun _ hbinds => hbinds) False.elim
  | updateTask caller id u =>
    exact h.commit (a := .updateTask caller id u) rfl (fun _ hbinds => hbinds) False.elim
  | leaseTask filters sort direction process =>
    exact h.commit (a := .leaseTask filters sort direction process) rfl
      (fun hterminated hbinds => hop hterminated hbinds) False.elim
  | releaseTask id process =>
    exact h.commit (n := 0) (a := .releaseTask id process) rfl (fun _ hbinds => hbinds) False.elim
  | register a => exact h.register a
  | keepAlive id =>
    exact h.commit (a := .recordKeepalive id) rfl (fun _ hbinds => hbinds) False.elim
  | deregister id =>
    by_cases hid : id = p
    · subst hid
      exact tidy_deregister h hop
    · exact h.deregister_of_ne w.now hid
  | reap timeout => exact tidy_reap h hop
  | _ => exact absurd hop id

end Operation

/-! ## Operations at work -/

namespace Operation

open Store

variable {m : Moment} {w : World} {s : Store} {p : String}

/-- The first process of a store has the first claim, under the id that is drawn. -/
theorem behind_register (hnone : w.store.processes = .empty)
    (hclaims : w.store.ordinalClaims = none) (hdraw : m.drawFailure = none) {a : Applicant}
    {q : Process} (hq : q = .initial (m.world w.store).now
      (objectId (m.world w.store).now m.nextDraw) (a.document 1) 1) :
    (register a).behind m w =
      { m.world ((Process.drawn w.store 1).put q) with nextDraw := m.nextDraw + 1 } :=
  congrArg Prod.snd (Registration.register_of_empty (w := m.world w.store) hnone hclaims hdraw hq)

/-- Setting the status of a process that lies under its own id rewrites it there. -/
theorem behind_setProcessStatus {status : ProcessStatus} {q : Process} (hq : w.store.Has q)
    (hid : q.id = p) : (setProcessStatus p status).behind m w =
      m.world (w.store.put { q with status }) := by
  have hstatus : Process.setStatus (m.world w.store).now p status w.store =
      .ok ({ q with status }, w.store.put { q with status }) :=
    Process.setStatus_eq_ok.2 ⟨q, hid ▸ hq.document?, rfl, rfl⟩
  exact congrArg Prod.snd (World.commit_of_eq_ok (w := m.world w.store) hstatus)

/-- The only job goes to whoever asks for any. -/
theorem behind_leaseJob {j : Job} (hj : w.store.documents Job = .ok [j])
    (hfree : j.process = none) :
    (leaseJob [] none .ascending p).behind m w =
      m.world (w.store.put { j with process := some p }) := by
  -- the one job of the store is free, so it comes first
  have hfirst : least? (compareDocs (none : Option JobSort) .ascending)
      ([j].filter fun j => (Leasable.holder j).isNone && Job.passes [] j) = some j := by
    have htest : ((Leasable.holder j).isNone && Job.passes [] j) = true := by
      simp [Leasable.holder, hfree, Job.passes]
    rw [List.filter_singleton, htest]
    rfl
  have hlease : Job.leaseFirst (m.world w.store).now [] none .ascending p w.store =
      .ok (some (Document.refresh (m.world w.store).now (Leasable.withHolder (some p) j)),
        w.store.put (Leasable.withHolder (some p) j)) :=
    Transaction.lease_eq_ok.2 ⟨[j], hj, .inr ⟨j, hfirst, rfl, rfl⟩⟩
  exact congrArg Prod.snd (World.commit_of_eq_ok (w := m.world w.store) hlease)

end Operation

namespace Store

variable {w : World} {p : String}

/-- A process has one document. -/
theorem Terminated.status_eq {s : Store} (h : s.Terminated p) {q : Process} (hq : s.Has q)
    (hid : q.id = p) : q.status = .terminated := by
  obtain ⟨q', hq', rfl, hterminated⟩ := h
  obtain rfl := hq.eq_of_key_eq hq' hid
  exact hterminated

/-- Where all can be read, the reaper terminates who is stale. -/
theorem exists_perform_reap_terminated (hs : w.store.WellFormed) (hread : ∀ c, w.store.Readable c)
    {q : Process} (hq : w.store.Has q) (timeout : Duration)
    (hstale : q.isStale (staleBefore w.now timeout) = true) :
    ∃ ps w', (Operation.reap timeout).perform w = (.ok (.processes ps), w') ∧
      w'.store.Terminated q.id := by
  obtain ⟨ps, t, hreap⟩ := Reaping.exists_reapOnce_eq_ok w.now timeout hread hs.keyed.homes
  refine ⟨ps, { w with store := t }, ?_, ?_⟩
  · rw [Operation.perform, World.run_of_on hreap]
    rfl
  · exact ⟨_, (outcome_of_reapOnce hs hreap).terminated q hq hstale, rfl, rfl⟩

/-- A terminated process is not stale, and so no pass of the reaper gives back what it holds. -/
theorem exists_perform_reap_orphaned (hs : w.store.WellFormed) (hread : ∀ c, w.store.Readable c)
    (hterminated : w.store.Terminated p) (hheld : ¬ w.store.HoldsNothing p) (timeout : Duration) :
    ∃ ps w', (Operation.reap timeout).perform w = (.ok (.processes ps), w') ∧
      w'.store.Terminated p ∧ ¬ w'.store.HoldsNothing p := by
  obtain ⟨ps, t, hreap⟩ := Reaping.exists_reapOnce_eq_ok w.now timeout hread hs.keyed.homes
  have houtcome := outcome_of_reapOnce hs hreap
  have hperform : (Operation.reap timeout).perform w =
      (.ok (.processes ps), { w with store := t }) := by
    rw [Operation.perform, World.run_of_on hreap]
    rfl
  have ht : t.WellFormed := by
    have hwf := Operation.wellFormed_perform hs (.reap timeout)
    rw [hperform] at hwf
    exact hwf
  -- the process has ended, so it is not stale and the pass does not look at it
  have hstale : ¬ w.store.Stale (staleBefore w.now timeout) p := by
    rintro ⟨q, hq, hid, hstale⟩
    rw [Process.isStale, Process.isLive, hterminated.status_eq hq hid] at hstale
    cases hstale
  refine ⟨ps, { w with store := t }, hperform, ?_, fun hnothing => hheld ?_⟩
  · obtain ⟨q, hq, rfl, hstatus⟩ := hterminated
    exact ⟨q, (houtcome.kept_process q.id hstale).trans hq, rfl, hstatus⟩
  · rw [← ht.unbound_iff] at hnothing
    rw [← hs.unbound_iff]
    intro c k hc hbound
    -- nor does it take a document from it
    have hkept : ¬ (Reaping.seeking []).Takes (staleBefore w.now timeout) w.store c k := by
      rintro ⟨-, q, hq, hstale' | howed⟩
      · obtain rfl : p = q := Option.some.inj (hbound.symm.trans hq)
        exact hstale hstale'
      · exact howed
    refine hnothing c k hc ?_
    rw [bound?_of_find?_eq (houtcome.kept c k hc hkept)]
    exact hbound

end Store

open Operation Store

namespace Latecomer

def applicant : Applicant := { kind := .worker, host := ⟨"host", "127.0.0.1"⟩, processId := 7 }

/-- One millisecond. -/
def timeout : Duration := ⟨10 ^ 6, by decide⟩

/-- The first id that is drawn. -/
def jobId : String := objectId 0 1

/-- The second id that is drawn. -/
def workerId : String := objectId 0 2

def job : Job := Workbench.jobUnder jobId

def worker : Process := .initial 0 workerId (applicant.document 1) 1

/-- A job is created and a worker registers. -/
def opening : List (Moment × Operation) := [
  (⟨0, 1, none⟩, .putDataset Workbench.dataset), (⟨0, 1, none⟩, .putModule Workbench.model),
  (⟨0, 1, none⟩, .putModule Workbench.objective), (⟨0, 1, none⟩, .createJob .root Workbench.new),
  (⟨0, 2, none⟩, .register applicant)]

/-- The worker leases the job. -/
def lease : Operation := .leaseJob [] none .ascending workerId

/-- The worker is marked as terminated. -/
def leave : Operation := .setProcessStatus workerId .terminated

/-- The job in the hands of the worker. -/
def held : Job := { job with process := some workerId }

/-- The worker behind its end. -/
def ended : Process := { worker with status := .terminated }

def joined : Store := (Process.drawn (Workbench.catalog.put job) 1).put worker

/-- The store that the latecomer finds is well-formed. -/
theorem joined_wellFormed : joined.WellFormed := by
  have hcatalog : Workbench.catalog.WellFormed :=
    ((wellFormed_empty.put Workbench.dataset).put Workbench.model).put Workbench.objective
  exact ((hcatalog.put job).of_table fun c => Process.table_drawn _ 1 c).put worker

/-- The latecomer is registered. -/
theorem has_worker : joined.Has worker := has_put_self _ _

/-- There is one job. -/
theorem documents_joined : joined.documents Job = .ok [job] := by
  have hnone : Workbench.catalog.table (collection Job) = .empty := rfl
  have hdocuments := documents_put_of_empty hnone job
  rw [documents] at hdocuments ⊢
  rw [joined, table_put_of_ne _ _ (by decide), Process.table_drawn, hdocuments]

/-- The opening of both orders: the worker registers and a job is created. -/
theorem behindAll_opening : behindAll opening ⟨.empty, 0, 1, none⟩ = ⟨joined, 0, 3, none⟩ := by
  have hcreate :
      (createJob .root Workbench.new).behind ⟨0, 1, none⟩ ⟨Workbench.catalog, 0, 1, none⟩ =
      ⟨Workbench.catalog.put job, 0, 2, none⟩ :=
    behind_createJob rfl (Workbench.create_eq_ok jobId)
  have hregister :
      (register applicant).behind ⟨0, 2, none⟩ ⟨Workbench.catalog.put job, 0, 2, none⟩ =
      ⟨joined, 0, 3, none⟩ :=
    behind_register rfl rfl rfl rfl
  rw [opening, behindAll_cons, behindAll_cons, behindAll_cons, behindAll_cons, behindAll_cons,
    behindAll_nil, behind_catalog_empty, hcreate, hregister]

/-- The lease, when the process is there. -/
theorem behind_lease :
    lease.behind ⟨0, 3, none⟩ ⟨joined, 0, 3, none⟩ = ⟨joined.put held, 0, 3, none⟩ :=
  behind_leaseJob (w := ⟨joined, 0, 3, none⟩) documents_joined rfl

/-- The worker leases the job. -/
theorem behindAll_lease :
    behindAll (opening ++ [(⟨0, 3, none⟩, lease)]) ⟨.empty, 0, 1, none⟩ =
      ⟨joined.put held, 0, 3, none⟩ := by
  rw [behindAll_append, behindAll_opening, behindAll_cons, behind_lease, behindAll_nil]

/-- The worker leaves and leases the job then. -/
theorem behindAll_lateLease :
    behindAll (opening ++ [(⟨0, 3, none⟩, leave), (⟨0, 3, none⟩, lease)]) ⟨.empty, 0, 1, none⟩ =
      ⟨(joined.put ended).put held, 0, 3, none⟩ := by
  have hdocuments : (joined.put ended).documents Job = .ok [job] := by
    rw [documents, table_put_of_ne _ _ (by decide)]
    exact documents_joined
  have hleave : leave.behind ⟨0, 3, none⟩ ⟨joined, 0, 3, none⟩ = ⟨joined.put ended, 0, 3, none⟩ :=
    behind_setProcessStatus (w := ⟨joined, 0, 3, none⟩) has_worker rfl
  rw [behindAll_append, behindAll_opening, behindAll_cons, hleave, behindAll_cons, behindAll_nil]
  exact behind_leaseJob (w := ⟨joined.put ended, 0, 3, none⟩) hdocuments rfl

/-- The worker leases the job and is marked as terminated while it has it. -/
theorem behindAll_earlyEnd :
    behindAll (opening ++ [(⟨0, 3, none⟩, lease), (⟨0, 3, none⟩, leave)]) ⟨.empty, 0, 1, none⟩ =
      ⟨(joined.put held).put ended, 0, 3, none⟩ := by
  have hworker : (joined.put held).Has worker :=
    (has_put_of_collection_ne _ (by decide)).2 has_worker
  rw [behindAll_append, behindAll_opening, behindAll_cons, behind_lease, behindAll_cons,
    behindAll_nil]
  exact behind_setProcessStatus (w := ⟨joined.put held, 0, 3, none⟩) hworker rfl

/-- The worker of the example holds the job that it leased. -/
theorem not_holdsNothing {s : Store} (h : s.Has held) : ¬ s.HoldsNothing workerId := by
  intro hnothing
  cases hnothing.jobs held h rfl

end Latecomer

/-! ## The result -/

/-- **A process that has ended holds nothing.** Let only daily business be done from the beginning, of
which nothing harms the process when it has ended. Then the process, whenever it is terminated, holds
no job, task, dataset or module out of error, and so it is behind every pass of the reaper that ends
well. -/
theorem terminated_process_holds_nothing (process : String) {s : Store}
    (h : Store.empty.Serves (Operation.InService process) s) :
    (s.Terminated process → s.HoldsNothing process) ∧
    ∀ (w : World) (timeout : Duration) (r : Reply), w.store = s →
      ((Operation.reap timeout).perform w).1 = .ok r →
      ((Operation.reap timeout).perform w).2.store.Terminated process →
      ((Operation.reap timeout).perform w).2.store.HoldsNothing process := by
  -- by induction on the run, one operation at a time
  have htidy : s.Tidy process := by
    induction h with
    | refl => exact Store.tidy_empty process
    | step _ hop ih => exact Operation.tidy_perform ih hop
  refine ⟨fun hterminated => htidy.wellFormed.unbound_iff.1 (htidy.unbound hterminated), ?_⟩
  rintro w timeout r rfl hreap hterminated
  have hafter : ((Operation.reap timeout).perform w).2.store.Tidy process := by
    refine Operation.tidy_perform htidy fun e he => ?_
    rw [hreap] at he
    cases he
  exact hafter.wellFormed.unbound_iff.1 (hafter.unbound hterminated)

/-- A worker that is given up with a job in its hands holds nothing behind the pass. -/
theorem terminated_process_holds_nothing_behind_reap :
    let w := behindAll (Latecomer.opening ++ [(⟨0, 3, none⟩, Latecomer.lease)]) ⟨.empty, 0, 1, none⟩
    ∃ ps w', (reap Latecomer.timeout).perform { w with clock := 2 } = (.ok (.processes ps), w') ∧
      w'.store.Terminated Latecomer.workerId ∧ w'.store.HoldsNothing Latecomer.workerId := by
  -- what is put is in nobody's hands
  have h₀ : Store.empty.Serves (InService Latecomer.workerId) (World.mk .empty 0 1 none).store :=
    .refl
  have h₁ := serves_behind h₀ ⟨0, 1, none⟩ (.putDataset Workbench.dataset) fun _ => nofun
  have h₂ := serves_behind h₁ ⟨0, 1, none⟩ (.putModule Workbench.model) fun _ => nofun
  have h₃ := serves_behind h₂ ⟨0, 1, none⟩ (.putModule Workbench.objective) fun _ => nofun
  have h₄ := serves_behind h₃ ⟨0, 1, none⟩ (.createJob .root Workbench.new) trivial
  have h₅ := serves_behind h₄ ⟨0, 2, none⟩ (.register Latecomer.applicant) trivial
  have hopening := Latecomer.behindAll_opening
  rw [Latecomer.opening, behindAll_cons, behindAll_cons, behindAll_cons, behindAll_cons,
    behindAll_cons, behindAll_nil] at hopening
  rw [hopening] at h₅
  -- and the worker lives when it leases
  have hlive : ¬ Latecomer.joined.Terminated Latecomer.workerId := by
    intro hterminated
    cases hterminated.status_eq Latecomer.has_worker rfl
  have hheld := serves_behind h₅ ⟨0, 3, none⟩ Latecomer.lease fun hterminated =>
    absurd hterminated hlive
  rw [Latecomer.behind_lease] at hheld
  have hwf := Latecomer.joined_wellFormed.put Latecomer.held
  have hworker : (Latecomer.joined.put Latecomer.held).Has Latecomer.worker :=
    (has_put_of_collection_ne _ (by decide)).2 Latecomer.has_worker
  obtain ⟨ps, w', hreap, hterminated⟩ := exists_perform_reap_terminated
    (w := ⟨Latecomer.joined.put Latecomer.held, 2, 3, none⟩) hwf (hwf.readable_of_no_tasks rfl)
    hworker Latecomer.timeout rfl
  have hnothing := (terminated_process_holds_nothing Latecomer.workerId hheld).2
    ⟨Latecomer.joined.put Latecomer.held, 2, 3, none⟩ Latecomer.timeout (.processes ps) rfl
  rw [hreap] at hnothing
  intro w
  have hw : w = ⟨Latecomer.joined.put Latecomer.held, 0, 3, none⟩ := Latecomer.behindAll_lease
  rw [hw]
  exact ⟨ps, w', hreap, hterminated, hnothing rfl hterminated⟩

/-- A lease that comes too late, or an end without giving back, leaves a job with a terminated worker
for good: the next pass ends well and does not look at it. -/
theorem orphans_behind_reap :
    (∃ ps w', (reap Latecomer.timeout).perform
        (behindAll
          (Latecomer.opening ++ [(⟨0, 3, none⟩, Latecomer.leave), (⟨0, 3, none⟩, Latecomer.lease)])
          ⟨.empty, 0, 1, none⟩) = (.ok (.processes ps), w') ∧
      w'.store.Terminated Latecomer.workerId ∧ ¬ w'.store.HoldsNothing Latecomer.workerId) ∧
    ∃ ps w', (reap Latecomer.timeout).perform
        (behindAll
          (Latecomer.opening ++ [(⟨0, 3, none⟩, Latecomer.lease), (⟨0, 3, none⟩, Latecomer.leave)])
          ⟨.empty, 0, 1, none⟩) = (.ok (.processes ps), w') ∧
      w'.store.Terminated Latecomer.workerId ∧ ¬ w'.store.HoldsNothing Latecomer.workerId := by
  have hlive := Latecomer.joined_wellFormed
  rw [Latecomer.behindAll_lateLease, Latecomer.behindAll_earlyEnd]
  constructor
  · -- the process ends first and leases then
    have hwf := (hlive.put Latecomer.ended).put Latecomer.held
    refine exists_perform_reap_orphaned hwf (hwf.readable_of_no_tasks rfl) ?_ ?_ _
    · have hended :
          ((Latecomer.joined.put Latecomer.ended).put Latecomer.held).Has Latecomer.ended :=
        (has_put_of_collection_ne _ (by decide)).2 (has_put_self _ _)
      exact ⟨Latecomer.ended, hended, rfl, rfl⟩
    · exact Latecomer.not_holdsNothing (has_put_self _ _)
  · -- it leases first and is ended by hand then
    have hwf := (hlive.put Latecomer.held).put Latecomer.ended
    refine exists_perform_reap_orphaned hwf (hwf.readable_of_no_tasks rfl) ?_ ?_ _
    · exact ⟨Latecomer.ended, has_put_self _ _, rfl, rfl⟩
    · exact Latecomer.not_holdsNothing
        ((has_put_of_collection_ne _ (by decide)).2 (has_put_self _ _))

end Fleet
