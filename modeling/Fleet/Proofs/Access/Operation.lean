import Fleet.Proofs.Access.Overwriting
import Fleet.Proofs.Access.Readable
import Fleet.Proofs.Registry.Interruption

/-!
# Operations are runs of accesses

Whatever is asked of the fleet comes down to transactions that are committed one after the other,
and each of them is an access or writes nothing. So the store behind an operation is one that
accesses lead to from the store before it (`Operation.leads_perform`): what holds of every reachable
store holds between any operations, and also in the middle of those that take more than one
transaction, whoever else is at work there. No operation cascades but as the status of a job orders.
The only access that may set a quality is the update that was asked for
(`Operation.leads_perform_of`). So none is set in the middle of an operation, and on a clear store
no operation fails for a text that cannot be read (`Store.Follows`).

A session is taken apart along the monad that it is written in (`Session.Accesses`); the
registrations, reaper passes and settlements are taken apart along their steps.
-/

set_option autoImplicit false

namespace Fleet

open Transaction Session

/-! ## Failures -/

/-- Failures that may be due to an error of the store. -/
class StoreFailure (ε : Type) where
  /-- The error of the store that is behind a failure, if there is one. -/
  cause? : ε → Option StateError

instance : StoreFailure StateError := ⟨some⟩

instance : StoreFailure RegistryError where
  cause?
    | .state e => some e
    | _ => none

instance : StoreFailure DaemonError where
  cause?
    | .registry e => StoreFailure.cause? e
    | .config _ => none

instance : StoreFailure Failure where
  cause?
    | .state e => some e
    | .registry e => StoreFailure.cause? e
    | .daemon e => StoreFailure.cause? e

/-- The failure is that a stored text cannot be read. -/
def Unreadable {ε : Type} [StoreFailure ε] (e : ε) : Prop :=
  ∃ text, StoreFailure.cause? e = some (.deserialize text)

/-- A store fails as unreadable only with the error that a text that cannot be read gives. -/
theorem StateError.unreadable_iff {e : StateError} :
    Unreadable e ↔ ∃ text, e = .deserialize text := by
  simp [Unreadable, StoreFailure.cause?]

namespace Store

/-- Some accesses lead from one store to another one, which set no quality that is not finite. -/
abbrev Reaches (s t : Store) : Prop := s.Leads (fun _ _ a => a.IsFinite) t

/-- They set no quality at all, and move no tasks but as the status of a job orders. -/
abbrev Attains (s t : Store) : Prop := s.Leads (fun _ _ a => a.IsQuiet ∧ a.IsOrderly) t

variable {ε ε' α β : Type} [StoreFailure ε] [StoreFailure ε'] {s t : Store}

/-- Tasks whose qualities are all finite stay so as long as only finite ones are set. -/
theorem Reaches.clear (h : s.Reaches t) (hs : s.Clear) : t.Clear :=
  Leads.induction (P := Clear) h hs fun _ _ _ ht ha => Access.clear_after ht ha

/-- What orderly accesses of a quiet system lead to is reached without a quality that is not finite. -/
theorem Attains.reaches (h : s.Attains t) : s.Reaches t := h.mono fun _ _ _ ha => ha.1.isFinite

/-- What is done on a store and how it ends: accesses were made, and on a clear store it was not for a
text that cannot be read if it failed. -/
structure Follows (s : Store) (r : Except ε α × Store) : Prop where
  attains : s.Attains r.2
  reads : s.Clear → ∀ e, r.1 = .error e → ¬ Unreadable e

/-- An answer that is not an error has nothing to say about documents that cannot be read. -/
theorem Attains.follows_ok (h : s.Attains t) (a : α) :
    s.Follows ((.ok a, t) : Except ε α × Store) :=
  ⟨h, fun _ _ he => nomatch he⟩

/-- Nothing was written, and the error is about something else than reading. -/
theorem follows_error {e : ε} (he : ¬ Unreadable e) :
    s.Follows ((.error e, s) : Except ε α × Store) :=
  ⟨.refl, fun _ _ he' => Except.error.inj he' ▸ he⟩

/-- What comes before an outcome may be put in front of it. -/
theorem Attains.follows (h : s.Attains t) {r : Except ε α × Store} (hr : t.Follows r) :
    s.Follows r :=
  ⟨h.trans hr.attains, fun hs => hr.reads (h.reaches.clear hs)⟩

/-- A failure that is passed on has the same cause. -/
theorem Follows.of_error {e : ε} {e' : ε'} (h : s.Follows ((.error e, t) : Except ε α × Store))
    (he : StoreFailure.cause? e' = StoreFailure.cause? e) :
    s.Follows ((.error e', t) : Except ε' β × Store) := by
  refine ⟨h.attains, fun hs e'' he'' => ?_⟩
  obtain rfl := Except.error.inj he''
  rw [Unreadable, he]
  exact h.reads hs e rfl

/-- Wrapping an error keeps what it is due to. -/
theorem Follows.mapError {r : Except ε α × Store} (h : s.Follows r) {f : ε → ε'}
    (hf : ∀ e, StoreFailure.cause? (f e) = StoreFailure.cause? e) :
    s.Follows (r.1.mapError f, r.2) := by
  rcases r with ⟨e | a, t⟩
  · exact h.of_error (hf e)
  · exact h.attains.follows_ok a

/-- What is made of the answer does not matter. -/
theorem Follows.map {r : Except ε α × Store} (h : s.Follows r) (f : α → β) :
    s.Follows (r.1.map f, r.2) := by
  rcases r with ⟨e | a, t⟩
  · exact h.of_error rfl
  · exact h.attains.follows_ok (f a)

end Store

/-! ## Transactions -/

namespace Transaction

variable {α : Type} {t : Transaction α}

/-- Committing the transaction is making an access, or changes nothing. -/
def Accesses (t : Transaction α) : Prop := ∀ s : Store, s.Follows (t.commit s)

/-- A transaction that gets to read all that it asks for fails for another reason, if it fails. -/
theorem ReadsOn.not_unreadable {s : Store} (h : t.ReadsOn s) {e : StateError}
    (he : (t.commit s).1 = .error e) : ¬ Unreadable e := by
  rw [StateError.unreadable_iff]
  rintro ⟨text, rfl⟩
  rcases commit_cases t s with ⟨a, s', -, hcommit⟩ | ⟨e', herror, hcommit⟩
  · rw [hcommit] at he
    cases he
  · rw [hcommit] at he
    cases he
    exact h text herror

/-- An access by any other name, with its answer as an access gives it. -/
theorem accesses_of_map {f : α → Reply} {n : Millis} {a : Access} (ha : a.IsQuiet ∧ a.IsOrderly)
    (h : f <$> t = a.transaction n) : t.Accesses := by
  intro s
  have hafter : a.after n s = (t.commit s).2 := by rw [Access.after, ← h, commit_map]
  refine ⟨?_, fun hs e he => ?_⟩
  · rw [← hafter]
    exact .step .refl ha
  · have hmap : ((f <$> t).commit s).1 = .error e := by
      rw [commit_map, he]
      rfl
    rw [h] at hmap
    exact (Access.readsOn hs n a).not_unreadable hmap

/-- What only reads leaves the store where it is. -/
theorem ReadsOnly.accesses (h : ReadsOnly t) (hr : ∀ s : Store, s.Clear → t.ReadsOn s) :
    t.Accesses := by
  intro s
  refine ⟨?_, fun hs e he => (hr s hs).not_unreadable he⟩
  rw [h.commit s]
  exact .refl

end Transaction

/-! ### Looks -/

section

variable {D S : Type} [Document D] [SortField S D]

/-- Cutting a page out of documents that have been read does not read any. -/
theorem paginate_ne_deserialize (docs : List D) (q : ListQuery S) (text : String) :
    paginate docs q ≠ .error (.deserialize text) := by
  have hposition : q.position ≠ .error (.deserialize text) := by
    unfold ListQuery.position
    split
    · nofun
    · split <;> nofun
  unfold paginate
  cases hq : q.position with
  | error e =>
    intro h
    cases h
    exact hposition hq
  | ok start => nofun

variable [Decoded D]

/-- Looking up one document. -/
theorem accesses_fetch (now : Millis) (id : String) : (fetch (D := D) now id).Accesses :=
  (readsOnly_fetch now id).accesses fun _ hs => readsOn_fetch hs now id

/-- Looking through all documents of a type. -/
theorem accesses_scan (now : Millis) (test : D → Bool) : (scan now test).Accesses :=
  (readsOnly_scan now test).accesses fun _ hs => readsOn_scan hs now test

/-- Counting documents. -/
theorem accesses_count (test : D → Bool) : (count test).Accesses :=
  (readsOnly_count test).accesses fun _ hs => readsOn_count hs test

/-- A page of a listing. -/
theorem accesses_listing (now : Millis) (test : D → Bool) (q : ListQuery S) :
    (do liftM (paginate (← scan now test) q) : Transaction (Page D)).Accesses :=
  ((readsOnly_scan now test).bind fun _ => .liftM _).accesses fun _ hs =>
    (readsOn_scan hs now test).bind fun ds _ _ => readsOn_liftM (paginate_ne_deserialize ds q)

/-- A look under an id that ends well or with a refusal. -/
theorem accesses_fetch?_bind {α : Type} (now : Millis) (id : String) {f : Option D → Transaction α}
    (hf : ∀ found, (∃ a, f found = pure a) ∨ ∃ e, ¬ Unreadable e ∧ f found = throw e) :
    (fetch? now id >>= f).Accesses := by
  refine ReadsOnly.accesses ((readsOnly_fetch? now id).bind fun found => ?_) fun s hs =>
    (readsOn_fetch? hs now id).bind fun found s' _ => ?_
  · rcases hf found with ⟨a, ha⟩ | ⟨e, -, he⟩
    · rw [ha]
      exact .pure a
    · rw [he]
      exact .throw e
  · rcases hf found with ⟨a, ha⟩ | ⟨e, hreadable, he⟩
    · rw [ha]
      exact readsOn_pure a
    · rw [he]
      exact readsOn_throw fun text htext => hreadable (StateError.unreadable_iff.2 ⟨text, htext⟩)

end

/-- That there is no such document is not a failure to read one. -/
theorem not_unreadable_missing (kind id : String) : ¬ Unreadable (missing kind id) := by
  rintro ⟨_, ⟨⟩⟩

/-- Looking up a job that may be hidden from the caller. -/
theorem accesses_fetchVisibleJob (now : Millis) (caller : Caller) (id : String) :
    (Job.fetchVisible now caller id).Accesses := by
  refine accesses_fetch?_bind now id fun found => ?_
  cases found with
  | none => exact .inr ⟨_, not_unreadable_missing "job" id, rfl⟩
  | some j =>
    simp only
    split
    · exact .inl ⟨j, rfl⟩
    · exact .inr ⟨_, not_unreadable_missing "job" id, rfl⟩

/-- Looking up a task that may be hidden from the caller. -/
theorem accesses_fetchVisibleTask (now : Millis) (caller : Caller) (id : String) :
    (Task.fetchVisible now caller id).Accesses := by
  refine accesses_fetch?_bind now id fun found => ?_
  cases found with
  | none => exact .inr ⟨_, not_unreadable_missing "task" id, rfl⟩
  | some t =>
    simp only
    split
    · exact .inl ⟨t, rfl⟩
    · exact .inr ⟨_, not_unreadable_missing "task" id, rfl⟩

/-! ### Bulk changes -/

/-- Giving back what a process holds in one collection is an access for each collection with
holders, and nothing for the processes. -/
theorem accesses_releaseIn (c : Collection) (process : String) : (releaseIn c process).Accesses :=
  accesses_of_map (n := 0) (a := .releaseHeld c process) ⟨trivial, trivial⟩ rfl

/-- A cascade is an access for each transitional status, and nothing for the others. -/
theorem accesses_cascade (status : JobStatus) (job : String) : (status.cascade job).Accesses := by
  have horderly {sources : List TaskStatus} {target : TaskStatus}
      (h : (sources, target) ∈ TaskStatus.cascades) : (Task.cascade job sources target).Accesses :=
    accesses_of_map (n := 0) (a := .cascade job sources target) ⟨trivial, h⟩ rfl
  cases status with
  | pausing => exact horderly (.head _)
  | resuming => exact horderly (.tail _ (.head _))
  | terminating => exact horderly (.tail _ (.tail _ (.head _)))
  | _ => exact (ReadsOnly.pure 0).accesses fun _ _ => readsOn_pure 0

/-! ## Sessions -/

namespace Session

variable {ε ε' α β : Type} [StoreFailure ε] [StoreFailure ε']

/-- Running the session is making accesses, whatever store it starts on. -/
def Accesses (p : Session ε α) : Prop := ∀ s : Store, s.Follows (p.on s)

/-- A session of one transaction. -/
theorem accesses_transact {t : Transaction α} (h : t.Accesses) : (transact t).Accesses := h

/-- A session that does nothing. -/
theorem accesses_pure (a : α) : (pure a : Session ε α).Accesses :=
  fun _ => Store.Attains.follows_ok .refl a

/-- A session that gives up, for another reason than a text that cannot be read. -/
theorem accesses_throw {e : ε} (he : ¬ Unreadable e) : (throw e : Session ε α).Accesses :=
  fun _ => Store.follows_error he

/-- One session behind the other. Where the first one fails the second one is not run. -/
theorem Accesses.bind {p : Session ε α} {f : α → Session ε β} (hp : p.Accesses)
    (hf : ∀ a, (f a).Accesses) : (p >>= f).Accesses := by
  intro s
  -- what the first session leaves behind is where the second one starts, if it starts at all
  have hon : (p >>= f).on s = ExceptT.bindCont f (p.on s).1 (p.on s).2 := rfl
  have hfirst := hp s
  rw [hon]
  generalize p.on s = outcome at hfirst ⊢
  rcases outcome with ⟨e | a, s'⟩
  · exact hfirst.of_error rfl
  · exact hfirst.attains.follows (hf a s')

/-- A failure that is an outcome is no failure any more. -/
theorem Accesses.attempt {p : Session ε α} (hp : p.Accesses) :
    (Session.attempt p : Session ε' (Except ε α)).Accesses := fun s => (hp s).attains.follows_ok _

/-- Errors of the store are wrapped where the registry passes them on. -/
theorem Accesses.inRegistry {p : Session StateError α} (hp : p.Accesses) :
    p.inRegistry.Accesses := by
  intro s
  have hon : p.inRegistry.on s = ((p.on s).1.mapError .state, (p.on s).2) := rfl
  rw [hon]
  exact (hp s).mapError fun _ => rfl

/-- A session for each element of a list. -/
theorem accesses_foldlM {f : β → α → Session ε β} (hf : ∀ b a, (f b a).Accesses) (as : List α)
    (b : β) : (as.foldlM f b).Accesses := by
  induction as generalizing b with
  | nil => exact accesses_pure b
  | cons a as ih =>
    rw [List.foldlM_cons]
    exact (hf b a).bind ih

end Session

/-! ## Composite work -/

section

variable (now : Millis)

/-- The processes are terminated one by one, each by an access of its own. -/
theorem accesses_terminateAllStale (cutoff : Millis) : (terminateAllStale now cutoff).Accesses := by
  have hupTo (fuel : Nat) : (terminateStaleUpTo now cutoff fuel).Accesses := by
    induction fuel with
    | zero => exact accesses_pure none
    | succ fuel ih =>
      rw [terminateStaleUpTo]
      have hterminate : (Process.terminateStale now cutoff).Accesses :=
        accesses_of_map (a := .terminateStale cutoff) ⟨trivial, trivial⟩ rfl
      refine (accesses_transact hterminate).bind fun found => ?_
      cases found with
      | none => exact accesses_pure (some [])
      | some p => exact ih.bind fun rest => accesses_pure (rest.map (p :: ·))
  exact fun s => hupTo _ s

/-- The four collections are gone through one behind the other. -/
theorem accesses_releaseAll (process : String) : (releaseAll process).Accesses :=
  (accesses_transact (accesses_releaseIn .datasets process)).bind fun _ =>
  (accesses_transact (accesses_releaseIn .modules process)).bind fun _ =>
  (accesses_transact (accesses_releaseIn .jobs process)).bind fun _ =>
  (accesses_transact (accesses_releaseIn .tasks process)).bind fun _ => accesses_pure _

/-- A sign of life looks whether the process is live, and records it then. -/
theorem accesses_keepAlive (id : String) : (keepAlive now id).Accesses :=
  (accesses_transact (accesses_of_map (a := .recordKeepalive id) ⟨trivial, trivial⟩ rfl)).inRegistry

/-- Giving back comes first, and the end of the process behind it. -/
theorem accesses_deregister (id : String) : (deregister now id).Accesses := by
  refine Accesses.inRegistry (Accesses.bind (accesses_transact ?_) fun _ => accesses_releaseAll id)
  exact accesses_of_map (a := .setProcessStatus id .terminated) ⟨trivial, trivial⟩ rfl

/-- Looking for the jobs that a model is for only reads. -/
theorem accesses_applicable (model : String) : (Job.applicable now model).Accesses := by
  refine (accesses_transact (accesses_fetch now model)).bind fun m => ?_
  have hscans : Session.Accesses (ε := StateError) do
      let datasets ← transact (scan now (Dataset.fits m))
      let jobs ← transact (scan now (Job.wants model (datasets.map (·.id))))
      return jobs.map (·.id) :=
    (accesses_transact (accesses_scan now _)).bind fun _ =>
    (accesses_transact (accesses_scan now _)).bind fun _ => accesses_pure _
  split
  case isTrue =>
    have hrefusal :
        ¬ Unreadable (StateError.badInput ("module " ++ model ++ " is not an active model")) := by
      rintro ⟨_, ⟨⟩⟩
    exact (accesses_throw hrefusal).bind fun _ => hscans
  case isFalse => exact hscans

/-- An append that fails is put on the report, so the session goes on. -/
theorem accesses_appendReporting (report : FanOut) (id : String) :
    (Job.appendReporting report id).Accesses := by
  have happend : (Job.appendModel id report.model).Accesses :=
    accesses_of_map (n := 0) (a := .appendModel id report.model) ⟨trivial, trivial⟩ rfl
  -- a failure is noted and the session goes on, so there is an outcome in any case
  refine (accesses_transact happend).attempt.bind fun outcome => ?_
  split
  · exact accesses_pure _
  · exact accesses_pure _
  · exact accesses_pure _

/-- One append for each applicable job. -/
theorem accesses_addModel (model : String) : (Job.addModel now model).Accesses :=
  (accesses_applicable now model).bind fun ids =>
    accesses_foldlM accesses_appendReporting ids _

/-- A fan-out is an append to each applicable job that is tried again. -/
theorem accesses_fanOut (model : String) : (Job.fanOut now model).Accesses :=
  (accesses_addModel now model).bind fun report =>
    accesses_foldlM accesses_appendReporting report.failed _

/-! ## Reaper passes -/

/-- A step of a pass of the reaper is one access, whether it succeeds or fails. -/
theorem Reaping.attains_step (cutoff : Millis) (r : Reaping) (s : Store) :
    s.Attains (r.step now cutoff s).2 := by
  cases r with
  | seeking reaped =>
    -- the search for a stale process and its end are one transaction
    have hterminate := (accesses_of_map (t := Process.terminateStale now cutoff)
      (a := .terminateStale cutoff) ⟨trivial, trivial⟩ rfl s).attains
    simp only [step]
    generalize (Process.terminateStale now cutoff).commit s = outcome at hterminate ⊢
    rcases outcome with ⟨e | found, s'⟩
    · exact hterminate
    · cases found <;> exact hterminate
  | releasing reaped p c others =>
    have hrelease := (accesses_releaseIn c p.id s).attains
    simp only [step]
    generalize (releaseIn c p.id).commit s = outcome at hrelease ⊢
    rcases outcome with ⟨e | n, s'⟩
    · exact hrelease
    · cases others <;> exact hrelease
  | finished result => exact .refl

/-- So is a pass, however many steps it is allowed. -/
theorem Reaping.attains_finish (cutoff : Millis) (fuel : Nat) (s : Store) (r : Reaping) :
    s.Attains (finish now cutoff fuel s r).2 := by
  induction fuel generalizing s r with
  | zero => cases r <;> exact .refl
  | succ fuel ih =>
    cases r with
    | finished result => exact .refl
    | seeking reaped => exact (attains_step now cutoff (.seeking reaped) s).trans (ih _ _)
    | releasing reaped p c others =>
      exact (attains_step now cutoff (.releasing reaped p c others) s).trans (ih _ _)

/-- A pass that runs to its end. -/
theorem accesses_reapOnce (timeout : Duration) : (reapOnce now timeout).Accesses := by
  intro s
  refine ⟨?_, fun hs e he => ?_⟩
  · rw [reapOnce_on]
    exact Reaping.attains_finish now _ _ s _
  · -- a pass does not fail at all where all can be read
    obtain ⟨ps, t, hreap⟩ :=
      Reaping.exists_reapOnce_eq_ok now timeout hs.readable hs.wellFormed.keyed.homes
    rw [hreap] at he
    cases he

/-! ## Settlements -/

/-- A step of a settlement is an access, or nothing where it fails. -/
theorem JobSettlement.attains_step (j : JobSettlement) (s : Store) (phase : Phase) :
    s.Attains (j.step now s phase).2 := by
  cases phase with
  | cascading target =>
    have hcascade := (accesses_cascade j.status j.job s).attains
    simp only [step]
    generalize (j.status.cascade j.job).commit s = outcome at hcascade ⊢
    rcases outcome with ⟨e | n, s'⟩ <;> exact hcascade
  | changing target =>
    exact (accesses_of_map (a := .updateJob .root j.job _) ⟨trivial, trivial⟩ rfl s).attains
  | releasing =>
    exact (accesses_of_map (n := 0) (a := .releaseJob j.job j.process)
      ⟨trivial, trivial⟩ rfl s).attains
  | finished => exact .refl

/-- Some steps of a settlement. -/
theorem JobSettlement.attains_advance (j : JobSettlement) (count : Nat) (phase : Phase)
    (s : Store) :
    s.Attains (j.advance now count (phase, s)).2 := by
  induction count generalizing phase s with
  | zero => exact .refl
  | succ count ih => exact (j.attains_step now s phase).trans (ih _ _)

/-- A step of a settlement of a task. -/
theorem TaskSettlement.attains_step (t : TaskSettlement) (s : Store) (phase : Phase) :
    s.Attains (t.step now s phase).2 := by
  cases phase with
  | changing target =>
    -- the update sets a status and no quality
    have hquiet (f : Rating) : TaskUpdate.rated? { status := some target } f = none := by
      cases f <;> rfl
    exact (accesses_of_map (a := .updateTask .root t.task _) ⟨hquiet, trivial⟩ rfl s).attains
  | releasing =>
    exact (accesses_of_map (n := 0) (a := .releaseTask t.task t.process)
      ⟨trivial, trivial⟩ rfl s).attains
  | finished => exact .refl

/-- Some steps of a settlement of a task. -/
theorem TaskSettlement.attains_advance (t : TaskSettlement) (count : Nat) (phase : Phase)
    (s : Store) : s.Attains (t.advance now count (phase, s)).2 := by
  induction count generalizing phase s with
  | zero => exact .refl
  | succ count ih => exact (t.attains_step now s phase).trans (ih _ _)

/-- The lease is the only thing that is written. -/
theorem attains_leaseJobForSettlement (process : String) (status : JobStatus) (s : Store) :
    s.Attains (leaseJobForSettlement now process status s).2 := by
  have hlease := (accesses_of_map (n := now)
    (a := .leaseJob [.status status] (some .creationTime) .ascending process)
    ⟨trivial, trivial⟩ rfl s).attains
  rw [leaseJobForSettlement]
  generalize Transaction.commit _ s = outcome at hlease ⊢
  rcases outcome with ⟨e | found, s'⟩
  · exact hlease
  · cases found <;> exact hlease

/-- The lease is the only thing that is written. -/
theorem attains_leaseTaskForSettlement (process : String) (status : TaskStatus) (s : Store) :
    s.Attains (leaseTaskForSettlement now process status s).2 := by
  have hlease := (accesses_of_map (n := now)
    (a := .leaseTask [.status status] (some .creationTime) .ascending process)
    ⟨trivial, trivial⟩ rfl s).attains
  rw [leaseTaskForSettlement]
  generalize Transaction.commit _ s = outcome at hlease ⊢
  rcases outcome with ⟨e | found, s'⟩
  · exact hlease
  · cases found <;> exact hlease

/-- One lease for each status at most. -/
theorem attains_leaseTransitionalJobs (process : String) (statuses : List JobStatus) (s : Store) :
    s.Attains (leaseTransitionalJobs now process statuses s).2 := by
  induction statuses generalizing s with
  | nil => exact .refl
  | cons status rest ih => exact (attains_leaseJobForSettlement now process status s).trans (ih _)

/-- One lease for each status at most. -/
theorem attains_leaseTransitionalTasks (process : String) (statuses : List TaskStatus) (s : Store) :
    s.Attains (leaseTransitionalTasks now process statuses s).2 := by
  induction statuses generalizing s with
  | nil => exact .refl
  | cons status rest ih => exact (attains_leaseTaskForSettlement now process status s).trans (ih _)

/-- Work that makes accesses each time makes accesses when it is done over and over. What it works on
need not be the store alone. -/
theorem Store.attains_foldl {α σ : Type} (store : σ → Store) {f : σ → α → σ}
    (hf : ∀ (x : σ) (a : α), (store x).Attains (store (f x a))) (as : List α) (x : σ) :
    (store x).Attains (store (as.foldl f x)) := by
  induction as generalizing x with
  | nil => exact .refl
  | cons a as ih => exact (hf x a).trans (ih _)

/-- A poll for jobs is accesses one behind the other, the leases first. -/
theorem attains_pollJobs (process : String) (s : Store) : s.Attains (pollJobs now process s).2 := by
  have hsettle (s : Store) (j : JobSettlement) : s.Attains (j.settle now s) :=
    j.attains_advance now 3 j.start s
  rw [pollJobs]
  exact (attains_leaseTransitionalJobs now process _ s).trans (Store.attains_foldl id hsettle _ _)

/-- A poll for tasks is accesses one behind the other, the leases first. -/
theorem attains_pollTasks (process : String) (s : Store) :
    s.Attains (pollTasks now process s).2 := by
  have hsettle (s : Store) (t : TaskSettlement) : s.Attains (t.settle now s) :=
    t.attains_advance now 2 t.start s
  rw [pollTasks]
  exact (attains_leaseTransitionalTasks now process _ s).trans (Store.attains_foldl id hsettle _ _)

end

/-! ## Worlds -/

namespace World

variable {ε ε' α β : Type} [StoreFailure ε] [StoreFailure ε']

/-- Accesses lead from the store of one world to that of another one. -/
abbrev Attains (w w' : World) : Prop := w.store.Attains w'.store

/-- What is done in a world and how it ends, as far as the store goes. -/
abbrev Follows (w : World) (r : Except ε α × World) : Prop := w.store.Follows (r.1, r.2.store)

/-- A session in a world does to the store what it does by itself. -/
theorem follows_run {p : Session ε α} (hp : p.Accesses) (w : World) : w.Follows (w.run p) :=
  hp w.store

/-- A transaction in a world does to the store what it does by itself. -/
theorem follows_commit {t : Transaction α} (ht : t.Accesses) (w : World) : w.Follows (w.commit t) :=
  ht w.store

/-- Drawing an id leaves the store alone, also when the draw fails. -/
theorem store_newId (w : World) : w.newId.2.store = w.store := by
  rw [newId]
  split <;> rfl

/-- A draw that fails does so in a write. -/
theorem newId_cases (w : World) :
    (∃ id, w.newId = (.ok id, w.newId.2)) ∨
      ∃ text, w.newId = (.error (.write text), w.newId.2) := by
  rw [newId]
  split
  · exact .inr ⟨_, rfl⟩
  · exact .inl ⟨_, rfl⟩

/-- Where the draw fails nothing is run, and that is not a failure to read. -/
theorem follows_runWithId {p : String → Session StateError α} (hp : ∀ id, (p id).Accesses)
    (w : World) : w.Follows (w.runWithId p) := by
  have hstore := w.store_newId
  rw [Follows, runWithId, ← hstore]
  rcases w.newId_cases with ⟨id, hdraw⟩ | ⟨text, hdraw⟩
  · rw [hdraw]
    exact hp id w.newId.2.store
  · rw [hdraw]
    exact Store.follows_error (by rintro ⟨_, ⟨⟩⟩)

end World

namespace Registration

/-- The registration did not fail for a text that cannot be read. -/
def Reads (r : Registration) : Prop := ∀ e, r = .failed e → ¬ Unreadable e

/-- What a registration does behind a transaction depends on its answer only. -/
theorem follows_after {α : Type} {t : Transaction α} (ht : t.Accesses) {next : α → Registration}
    (hnext : ∀ a, (next a).Reads) (s : Store) :
    s.Attains (after next (t.commit s)).2 ∧ (s.Clear → (after next (t.commit s)).1.Reads) := by
  have hcommit := ht s
  generalize t.commit s = outcome at hcommit ⊢
  rcases outcome with ⟨e | a, s'⟩
  · refine ⟨hcommit.attains, fun hs e' he' => ?_⟩
    cases he'
    exact hcommit.reads hs e rfl
  · exact ⟨hcommit.attains, fun _ => hnext a⟩

/-- Judging by the processes that were read does not read any more. -/
theorem reads_judge (peers : List Process) (p : Process) : (judge peers p).Reads := by
  intro e he
  unfold judge at he
  split at he
  · cases he
    rintro ⟨_, ⟨⟩⟩
  · split at he
    · cases he
    · split at he
      · cases he
      · cases he
        rintro ⟨_, ⟨⟩⟩

/-- A step of a registration is one access. It fails for want of a readable document only where
there is one that cannot be read. -/
theorem follows_step (now : Millis) (a : Applicant) (id : String) (s : Store) (r : Registration) :
    s.Attains (r.step now a id s).2 ∧ (s.Clear → r.Reads → (r.step now a id s).1.Reads) := by
  have hchecking (p : Process) : (checking p).Reads := nofun
  cases r with
  | choosing =>
    -- which ordinal is free is found out from what was read, so running out of them is no failure
    -- to read
    suffices h : s.Attains (choosing.step now a id s).2 ∧
        (s.Clear → (choosing.step now a id s).1.Reads) from ⟨h.1, fun hs _ => h.2 hs⟩
    refine follows_after (accesses_scan now _) (fun peers e he => ?_) s
    cases hfree : Ordinal.free? peers none with
    | some ordinal =>
      simp only [hfree] at he
      cases he
    | none =>
      simp only [hfree] at he
      cases he
      rintro ⟨_, ⟨⟩⟩
  | creating ordinal =>
    have hcreate : (Process.create now id (a.document ordinal)).Accesses :=
      accesses_of_map (a := .createProcess id (a.document ordinal)) ⟨trivial, trivial⟩ rfl
    obtain ⟨hattains, hreads⟩ := follows_after hcreate hchecking s
    exact ⟨hattains, fun hs _ => hreads hs⟩
  | checking p =>
    obtain ⟨hattains, hreads⟩ := follows_after (accesses_scan now _) (reads_judge · p) s
    exact ⟨hattains, fun hs _ => hreads hs⟩
  | claiming p ordinal =>
    have hclaim : (Process.claimOrdinal now p.id ordinal).Accesses :=
      accesses_of_map (a := .claimOrdinal p.id ordinal) ⟨trivial, trivial⟩ rfl
    obtain ⟨hattains, hreads⟩ := follows_after hclaim hchecking s
    exact ⟨hattains, fun hs _ => hreads hs⟩
  | accepted p => exact ⟨.refl, fun _ h => h⟩
  | failed e => exact ⟨.refl, fun _ h => h⟩

/-- A step of a registration in a world, where the step that creates the process draws an id first. -/
theorem follows_advance (a : Applicant) (w : World) (r : Registration) :
    w.Attains (r.advance a w).2 ∧ (w.store.Clear → r.Reads → (r.advance a w).1.Reads) := by
  cases r with
  | creating ordinal =>
    have hstore := w.store_newId
    rw [World.Attains, advance, ← hstore]
    -- the draw may fail, and nothing is created then
    rcases w.newId_cases with ⟨id, hdraw⟩ | ⟨text, hdraw⟩
    · rw [hdraw]
      exact follows_step w.newId.2.now a id w.newId.2.store (.creating ordinal)
    · rw [hdraw]
      refine ⟨.refl, fun _ _ e he => ?_⟩
      cases he
      rintro ⟨_, ⟨⟩⟩
  | choosing => exact follows_step w.now a "" w.store .choosing
  | checking p => exact follows_step w.now a "" w.store (.checking p)
  | claiming p ordinal => exact follows_step w.now a "" w.store (.claiming p ordinal)
  | accepted p => exact ⟨.refl, fun _ h => h⟩
  | failed e => exact ⟨.refl, fun _ h => h⟩

/-- A registration that runs for some steps, or to its end. -/
theorem follows_finish (a : Applicant) (fuel : Nat) (w : World) (r : Registration) :
    w.Attains (finish a fuel w r).2 ∧
      (w.store.Clear → r.Reads → ∀ e, (finish a fuel w r).1 = .error e → ¬ Unreadable e) := by
  induction fuel generalizing w r with
  | zero =>
    cases r with
    | accepted p => exact ⟨.refl, fun _ _ _ he => nomatch he⟩
    | failed e => exact ⟨.refl, fun _ hr e' he' => hr e' (congrArg failed (Except.error.inj he'))⟩
    | _ => exact ⟨.refl, fun _ _ _ he => nomatch he⟩
  | succ fuel ih =>
    -- one step, and what the rest does from there
    have hstep : w.Attains (finish a fuel (r.advance a w).2 (r.advance a w).1).2 ∧
        (w.store.Clear → r.Reads → ∀ e,
          (finish a fuel (r.advance a w).2 (r.advance a w).1).1 = .error e → ¬ Unreadable e) := by
      obtain ⟨hattains, hreads⟩ := follows_advance a w r
      obtain ⟨hrest, hrestReads⟩ := ih (r.advance a w).2 (r.advance a w).1
      exact ⟨hattains.trans hrest, fun hs hr =>
        hrestReads (hattains.reaches.clear hs) (hreads hs hr)⟩
    cases r with
    | accepted p => exact ⟨.refl, fun _ _ _ he => nomatch he⟩
    | failed e => exact ⟨.refl, fun _ hr e' he' => hr e' (congrArg failed (Except.error.inj he'))⟩
    | _ => exact hstep

/-- Registration from its beginning. -/
theorem follows_register (a : Applicant) (w : World) : w.Follows (register a w) := by
  obtain ⟨hattains, hreads⟩ := follows_finish a (enough w) w .choosing
  exact ⟨hattains, fun hs => hreads hs nofun⟩

/-- Settling the ordinal of a process that exists. -/
theorem follows_settle (p : Process) (w : World) : w.Follows (settle p w) := by
  obtain ⟨hattains, hreads⟩ := follows_finish
    { kind := p.kind, host := ⟨p.hostId, p.hostAddress⟩, processId := p.processId } (enough w) w
    (.checking p)
  exact ⟨hattains, fun hs => hreads hs nofun⟩

end Registration

/-- What a background loop does in one period. -/
theorem Activity.attains_run (w : World) (a : Activity) : w.Attains (a.run w).2 := by
  cases a with
  | keepAlive process => exact (w.follows_run (accesses_keepAlive w.now process)).attains
  | reap timeout => exact (w.follows_run (accesses_reapOnce w.now timeout)).attains
  | pollJobs process => exact attains_pollJobs w.now process w.store
  | pollTasks process => exact attains_pollTasks w.now process w.store

/-- What background loops do in turn. -/
theorem Activity.attains_inTurn (as : List Activity) (w : World) : w.Attains (inTurn as w).2 := by
  induction as generalizing w with
  | nil => exact .refl
  | cons a rest ih =>
    have hrun := a.attains_run w
    rw [inTurn]
    generalize a.run w = outcome at hrun
    rcases outcome with ⟨ended, w'⟩
    cases ended with
    | true => exact hrun.trans (ih w')
    | false => exact hrun

namespace Daemon

/-- The daemon registers its processes one behind the other and stops at the first failure. -/
theorem follows_registerAll (d : Daemon) (resource : String) (kinds : List ProcessKind)
    (w : World) :
    w.Follows (d.registerAll resource kinds w) := by
  induction kinds generalizing w with
  | nil => exact Store.Attains.follows_ok .refl (some [])
  | cons kind rest ih =>
    have hregister := Registration.follows_register
      { kind, host := d.host, resource, processId := d.processId } w
    rw [registerAll]
    generalize Registration.register _ w = outcome at hregister ⊢
    rcases outcome with ⟨e | found, w'⟩
    · exact hregister.of_error rfl
    · -- a registration that does not come to its end keeps the others from beginning
      cases found with
      | none => exact hregister.attains.follows_ok none
      | some p =>
        have hrest := ih w'
        generalize hothers : d.registerAll resource rest w' = others at hrest
        simp only [hothers]
        rcases others with ⟨e | ps, w''⟩
        · exact hregister.attains.follows hrest
        · exact hregister.attains.follows (hrest.map (·.map (p :: ·)))

/-- On its way out the daemon goes on with the next process whatever becomes of one. -/
theorem attains_leave (hosted : List Process) (w : World) : w.Attains (leave hosted w) := by
  have hleave (w : World) (p : Process) : w.Attains (w.run (deregister w.now p.id)).2 :=
    (w.follows_run (accesses_deregister w.now p.id)).attains
  rw [leave]
  exact Store.attains_foldl World.store hleave hosted w

/-- A run of the daemon, from registering to leaving. -/
theorem follows_run (d : Daemon) (c : Config) (millis : Nat) (w : World) :
    w.Follows (d.run c millis w) := by
  rw [run]
  cases c.timing with
  | error e => exact Store.follows_error (by rintro ⟨_, ⟨⟩⟩)
  | ok t =>
    have hregister := d.follows_registerAll c.resource d.kinds w
    generalize hall : d.registerAll c.resource d.kinds w = outcome at hregister
    rcases outcome with ⟨e | found, w'⟩
    · exact hregister.of_error rfl
    · cases found with
      | none => exact hregister.attains.follows_ok none
      | some hosted =>
        -- the run skips what is idle; without that it is one activity after the other
        have hturns : w'.Attains (Activity.runAll (schedule millis (loops t hosted)) [] w').2 := by
          rw [Activity.runAll_eq_inTurn _ [] w' fun a ha => absurd ha List.not_mem_nil]
          exact Activity.attains_inTurn _ w'
        simp only
        generalize Activity.runAll (schedule millis (loops t hosted)) [] w' = outcome at hturns ⊢
        rcases outcome with ⟨ended, w''⟩
        have hall : w.Attains w'' := hregister.attains.trans hturns
        cases ended with
        | true =>
          have hleft : w.Attains (leave hosted w'') := hall.trans (attains_leave hosted w'')
          exact hleft.follows_ok (some ())
        | false => exact hall.follows_ok none

/-- A configuration that cannot be used keeps the daemon from starting. -/
theorem follows_start (d : Daemon) (config : Option String) (millis : Nat) (w : World) :
    w.Follows (d.start config millis w) := by
  rw [start]
  cases config.elim (.ok {}) Config.parse with
  | error e => exact Store.follows_error (by rintro ⟨_, ⟨⟩⟩)
  | ok c =>
    -- a daemon kept off the store works on another one, and this one is put back
    by_cases hpath : (c.store.bind (·.path)).isSome
    · simp only [hpath, if_true]
      exact ⟨.refl, fun _ =>
        (d.follows_run c millis { w with store := .empty }).reads Store.clear_empty⟩
    · simp only [hpath]
      exact d.follows_run c millis w

end Daemon

/-! ## Operations -/

namespace Answered

variable {α : Type} {w : World}

/-- What an operation answers for the store. -/
theorem follows_ofState {r : Except StateError α × World} (h : w.Follows r) (reply : α → Reply) :
    w.Follows (ofState reply r) :=
  (h.mapError (f := Failure.state) fun _ => rfl).map reply

/-- What an operation answers for the registry. -/
theorem follows_ofRegistry {r : Except RegistryError α × World} (h : w.Follows r)
    (reply : α → Reply) :
    w.Follows (ofRegistry reply r) :=
  (h.mapError (f := Failure.registry) fun _ => rfl).map reply

end Answered

namespace Operation

open Answered

/-- The operation sets no quality that is not finite. -/
def IsFinite : Operation → Prop
  | updateTask _ _ u => u.IsFinite
  | _ => True

/-- The operation sets no quality of any task. -/
def IsQuiet : Operation → Prop
  | updateTask _ _ u => ∀ f, u.rated? f = none
  | _ => True

/-- Whatever is asked for, what is done about it is making accesses. -/
theorem follows_perform (op : Operation) (hop : op.IsQuiet) (w : World) :
    w.Follows (op.perform w) := by
  -- one lemma for each way in which an operation comes to the store
  have hcommit {α : Type} {t : Transaction α} {reply : α → Reply} (ht : t.Accesses) :
      w.Follows (ofState reply (w.commit t)) := follows_ofState (w.follows_commit ht) reply
  have haccess {α : Type} {t : Transaction α} {reply : α → Reply} {f : α → Reply} {n : Millis}
      (a : Access) (ha : a.IsQuiet ∧ a.IsOrderly) (h : f <$> t = a.transaction n) :
      w.Follows (ofState reply (w.commit t)) := hcommit (accesses_of_map ha h)
  have hsession {α : Type} {p : Session StateError α} {reply : α → Reply} (hp : p.Accesses) :
      w.Follows (ofState reply (w.run p)) := follows_ofState (w.follows_run hp) reply
  have hregistry {α : Type} {p : Session RegistryError α} {reply : α → Reply} (hp : p.Accesses) :
      w.Follows (ofRegistry reply (w.run p)) := follows_ofRegistry (w.follows_run hp) reply
  cases op with
  | putDataset d => exact haccess (n := 0) (.putDataset d) ⟨trivial, trivial⟩ rfl
  | getDataset id => exact hcommit (accesses_fetch w.now id)
  | putModule m => exact haccess (n := 0) (.putModule m) ⟨trivial, trivial⟩ rfl
  | getModule id => exact hcommit (accesses_fetch w.now id)
  | listModules kind => exact hcommit (accesses_scan w.now _)
  | putProcess p => exact haccess (n := 0) (.putProcess p) ⟨trivial, trivial⟩ rfl
  | getProcess id => exact hcommit (accesses_fetch w.now id)
  | createProcess new =>
    refine follows_ofState (w.follows_runWithId fun id => accesses_transact ?_) .process
    exact accesses_of_map (a := .createProcess id new) ⟨trivial, trivial⟩ rfl
  | listProcesses filters q => exact hcommit (accesses_listing w.now _ q)
  | countProcesses filters => exact hcommit (accesses_count _)
  | liveProcesses kind => exact hcommit (accesses_scan w.now _)
  | claimOrdinal id ordinal => exact haccess (.claimOrdinal id ordinal) ⟨trivial, trivial⟩ rfl
  | recordKeepalive id => exact haccess (.recordKeepalive id) ⟨trivial, trivial⟩ rfl
  | setProcessStatus id status => exact haccess (.setProcessStatus id status) ⟨trivial, trivial⟩ rfl
  | terminateStale cutoff => exact haccess (.terminateStale cutoff) ⟨trivial, trivial⟩ rfl
  | terminateAllStale cutoff => exact hsession (accesses_terminateAllStale w.now cutoff)
  | createJob caller new =>
    refine follows_ofState (w.follows_runWithId fun id => accesses_transact ?_) .job
    exact accesses_of_map (a := .createJob id caller new) ⟨trivial, trivial⟩ rfl
  | getJob caller id => exact hcommit (accesses_fetchVisibleJob w.now caller id)
  | listJobs caller filters q => exact hcommit (accesses_listing w.now _ q)
  | countJobs caller filters => exact hcommit (accesses_count _)
  | updateJob caller id u => exact haccess (.updateJob caller id u) ⟨trivial, trivial⟩ rfl
  | leaseJob filters sort direction process =>
    exact haccess (.leaseJob filters sort direction process) ⟨trivial, trivial⟩ rfl
  | releaseJob id process => exact haccess (n := 0) (.releaseJob id process) ⟨trivial, trivial⟩ rfl
  | applicableJobs model => exact hsession (accesses_applicable w.now model)
  | appendModel id model => exact haccess (n := 0) (.appendModel id model) ⟨trivial, trivial⟩ rfl
  | addModel model => exact hsession (accesses_addModel w.now model)
  | fanOut model => exact hsession (accesses_fanOut w.now model)
  | createTask caller new => exact haccess (.createTask caller new) ⟨trivial, trivial⟩ rfl
  | getTask caller id => exact hcommit (accesses_fetchVisibleTask w.now caller id)
  | listTasks caller filters q => exact hcommit (accesses_listing w.now _ q)
  | countTasks caller filters => exact hcommit (accesses_count _)
  | updateTask caller id u => exact haccess (.updateTask caller id u) ⟨hop, trivial⟩ rfl
  | leaseTask filters sort direction process =>
    exact haccess (.leaseTask filters sort direction process) ⟨trivial, trivial⟩ rfl
  | releaseTask id process =>
    exact haccess (n := 0) (.releaseTask id process) ⟨trivial, trivial⟩ rfl
  | pauseTasks job => exact hcommit (accesses_cascade .pausing job)
  | resumeTasks job => exact hcommit (accesses_cascade .resuming job)
  | terminateTasks job => exact hcommit (accesses_cascade .terminating job)
  | releaseHeld c process => exact hcommit (accesses_releaseIn c process)
  | releaseAll process => exact hsession (accesses_releaseAll process)
  | register a => exact follows_ofRegistry (Registration.follows_register a w) (ofEnding .process)
  | settleOrdinal p =>
    exact follows_ofRegistry (Registration.follows_settle p w) (ofEnding .process)
  | keepAlive id => exact hregistry (accesses_keepAlive w.now id)
  | deregister id => exact hregistry (accesses_deregister w.now id)
  | reap timeout => exact hregistry (accesses_reapOnce w.now timeout)
  | pollJobs process => exact (attains_pollJobs w.now process w.store).follows_ok _
  | pollTasks process => exact (attains_pollTasks w.now process w.store).follows_ok _
  | settleJob j => exact (j.attains_advance w.now 3 j.start w.store).follows_ok _
  | settleTask t => exact (t.attains_advance w.now 2 t.start w.store).follows_ok _
  | repeatActivity a turns =>
    exact (Activity.attains_inTurn (List.replicate turns a) w).follows_ok _
  | runDaemon d config millis =>
    have hstart := d.follows_start config millis w
    exact (hstart.mapError (f := Failure.daemon) fun _ => rfl).map (ofEnding fun _ => .done)

/-- An update is the only operation that may set a quality. -/
theorem isQuiet_or_eq_updateTask (op : Operation) :
    op.IsQuiet ∨ ∃ caller id u, op = .updateTask caller id u := by
  cases op with
  | updateTask caller id u => exact .inr ⟨caller, id, u, rfl⟩
  | _ => exact .inl trivial

/-- What is allowed to quiet accesses in their order, and to the update that is asked for if one is,
is all that an operation does. -/
theorem leads_perform_of {allowed : Access → Prop}
    (hquiet : ∀ a, a.IsQuiet → a.IsOrderly → allowed a) (op : Operation)
    (hupdate : ∀ caller id u, op = .updateTask caller id u → allowed (.updateTask caller id u))
    (w : World) :
    w.store.Leads (fun _ _ a => allowed a) (op.perform w).2.store := by
  rcases op.isQuiet_or_eq_updateTask with hop | ⟨caller, id, u, rfl⟩
  · exact (op.follows_perform hop w).attains.mono fun _ _ a ha => hquiet a ha.1 ha.2
  · have hafter : (Access.updateTask caller id u).after w.now w.store =
        ((updateTask caller id u).perform w).2.store := by
      rw [Access.after, Access.transaction, commit_map]
      rfl
    rw [← hafter]
    exact .step .refl (hupdate caller id u rfl)

/-- Whatever is asked for, the store behind it is one that accesses lead to, and no cascade among
them is one that no status of a job orders. -/
theorem leads_perform (op : Operation) (w : World) :
    w.store.Leads (fun _ _ a => a.IsOrderly) (op.perform w).2.store :=
  leads_perform_of (fun _ _ horderly => horderly) op (fun _ _ _ _ => trivial) w

/-- Only the update that was asked for may set a quality that is not finite. -/
theorem reaches_perform_of_isFinite (op : Operation) (hop : op.IsFinite) (w : World) :
    w.store.Reaches (op.perform w).2.store := by
  refine leads_perform_of (fun _ hquiet _ => hquiet.isFinite) op (fun caller id u hu => ?_) w
  subst hu
  exact hop

/-- Every operation is accesses one behind the other. -/
theorem reaches_perform (op : Operation) (w : World) :
    w.store.Leads (fun _ _ _ => True) (op.perform w).2.store :=
  (op.leads_perform w).mono fun _ _ _ _ => trivial

/-- So a run of operations that began with an empty store never leaves the reachable stores. -/
theorem reachable_perform (op : Operation) {w : World} (hw : w.store.Reachable) :
    (op.perform w).2.store.Reachable := hw.leads (op.reaches_perform w)

/-- On a clear store no operation fails for a text that cannot be read, whatever it sets. -/
theorem not_unreadable_of_perform (op : Operation) {w : World} (hw : w.store.Clear) {e : Failure}
    (he : (op.perform w).1 = .error e) : ¬ Unreadable e := by
  rcases op.isQuiet_or_eq_updateTask with hop | ⟨caller, id, u, rfl⟩
  · exact (op.follows_perform hop w).reads hw e he
  · -- only this operation may set a quality, and it too reads what it asks for
    have hread := Task.readsOn_change hw w.now caller id u
    have hanswer : ((updateTask caller id u).perform w).1 =
        (((Task.change w.now caller id u).commit w.store).1.mapError .state).map .task := rfl
    rw [hanswer] at he
    cases hcommit : ((Task.change w.now caller id u).commit w.store).1 with
    | ok t =>
      rw [hcommit] at he
      cases he
    | error e' =>
      rw [hcommit] at he
      cases he
      exact hread.not_unreadable hcommit

end Operation

end Fleet
