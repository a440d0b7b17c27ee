import Fleet.Proofs.Access.Basic
import Fleet.Proofs.Store.Rewriting

/-!
# What accesses write over

An access that succeeds creates one document under an unused id, or whatever it writes it writes
over a document that it has read and makes of this one (`Store.Overwrites`). For the two collections
that callers work on it is said here what may be made of a document (`Access.JobStep`,
`Access.TaskStep`): a job keeps its owner (`Access.jobs_of_ok`), and a task its owner and its job,
with no quality but those that it had and those that the access sets (`Access.tasks_of_ok`).
Statuses and times change as the lives of jobs and tasks have it, those of tasks only if no cascade
comes along that no status of a job orders (`Access.IsOrderly`). What is invariant under all
accesses follows from this without another look at them, document by document
(`Access.exists_job_after`, `Access.exists_task_after`).
-/

set_option autoImplicit false

namespace Fleet

open Document (collection key encode decode)
open Transaction (map_eq_ok)

/-! ## Writing over what was read -/

namespace Store

variable {D : Type} [Document D] {R : D → D → Prop} {s s' : Store} {k : String} {d d' : D}

/-- The text under every key of the type is as it was, or it is that of a document made of the one
that was read there. -/
def Overwrites (R : D → D → Prop) (s s' : Store) : Prop :=
  ∀ k, (s'.table (collection D)).find? k = (s.table (collection D)).find? k ∨
    ∃ d d' : D, s.document? k = .ok (some d) ∧ R d d' ∧ key d' = k ∧
      (s'.table (collection D)).find? k = some (encode d')

/-- Nothing is overwritten where nothing happens. -/
theorem Overwrites.refl (s : Store) : Overwrites R s s := fun _ => .inl rfl

/-- Overwriting under a relation is overwriting under a weaker one. -/
theorem Overwrites.mono {R' : D → D → Prop} (hmono : ∀ d d', R d d' → R' d d')
    (h : Overwrites R s s') : Overwrites R' s s' := by
  intro k
  rcases h k with hsame | ⟨d, d', hd, hR, hkey, hfind⟩
  · exact .inl hsame
  · exact .inr ⟨d, d', hd, hmono d d' hR, hkey, hfind⟩

/-- Nothing is overwritten where the collection stays. -/
theorem Overwrites.of_table (h : s'.table (collection D) = s.table (collection D)) :
    Overwrites R s s' := fun k => .inl (congrArg (Dict.find? · k) h)

/-- Putting a document under its key overwrites what was read there. -/
theorem Overwrites.put (hd : s.document? k = .ok (some d)) (hR : R d d') (hkey : key d' = k) :
    Overwrites R s (s.put d') := by
  intro i
  rw [find?_put]
  by_cases hi : key d' = i
  · subst hi
    rw [if_pos ⟨rfl, rfl⟩]
    exact .inr ⟨d, d', hkey ▸ hd, hR, rfl, rfl⟩
  · rw [if_neg fun h => hi h.2]
    exact .inl rfl

variable [Filed D] [LawfulKey D]

/-- A bulk change reads and writes under each key by itself. -/
theorem WellFormed.overwrites_updateAll (hs : s.WellFormed) {test : D → Bool} {change : D → D}
    (hkey : ∀ d, key (change d) = key d) (hR : ∀ d, test d = true → R d (change d)) {n : Nat}
    (h : Transaction.updateAll test change s = .ok (n, s')) : Overwrites R s s' := by
  intro k
  obtain ⟨ds, hds, -⟩ := Transaction.updateAll_eq_ok.1 h
  rw [hs.find?_of_updateAll hkey h, if_pos rfl]
  cases hfind : (s.table (collection D)).find? k with
  | none => exact .inl rfl
  | some text =>
    obtain ⟨d, hdecode⟩ := exists_decode_of_documents hds hfind
    have hd : s.document? k = .ok (some d) := Store.document?_eq_ok_some.2 ⟨text, hfind, hdecode⟩
    rw [Option.map_some, retext_of_decode hdecode]
    split
    case isTrue htest =>
      exact .inr ⟨d, change d, hd, hR d htest, (hkey d).trans (hs.key_eq_of_document? hd), rfl⟩
    case isFalse => exact .inl rfl

end Store

namespace Store

variable {D : Type} [Leasable D] [LawfulLeasable D] [Filed D] [LawfulKey D] {R : D → D → Prop}
  {s s' : Store} {process : String}

/-- A lease overwrites one document, by itself with a holder. -/
theorem WellFormed.overwrites_lease {S : Type} [SortField S D] (hs : s.WellFormed) {now : Millis}
    {test : D → Bool} {sort : Option S} {direction : Direction} {r : Option D}
    (hR : ∀ holder d, R d (Leasable.withHolder holder d))
    (h : Transaction.lease now test sort direction process s = .ok (r, s')) :
    Overwrites R s s' := by
  obtain ⟨ds, hds, ⟨-, -, rfl⟩ | ⟨d, hleast, -, rfl⟩⟩ := Transaction.lease_eq_ok.1 h
  · exact .refl s'
  · obtain ⟨k, hk⟩ := (Store.mem_documents hds).1 (List.mem_filter.1 (least?_mem hleast)).1
    refine .put hk (hR _ d) ?_
    rw [LawfulLeasable.key_withHolder, hs.key_eq_of_document? hk]

/-- So does giving a lease back. -/
theorem WellFormed.overwrites_release (hs : s.WellFormed) {k : String} {u : Unit}
    (hR : ∀ holder d, R d (Leasable.withHolder holder d))
    (h : Transaction.release D k process s = .ok (u, s')) : Overwrites R s s' := by
  obtain ⟨d, hd, -, rfl⟩ := Transaction.release_eq_ok.1 h
  refine .put hd (hR _ d) ?_
  rw [LawfulLeasable.key_withHolder, hs.key_eq_of_document? hd]

/-- So does the reaper, each of those that it releases. -/
theorem WellFormed.overwrites_releaseHeld (hs : s.WellFormed) {n : Nat}
    (hR : ∀ holder d, R d (Leasable.withHolder holder d))
    (h : Transaction.releaseHeld D process s = .ok (n, s')) : Overwrites R s s' :=
  hs.overwrites_updateAll (LawfulLeasable.key_withHolder none) (fun d _ => hR none d) h

end Store

/-! ## Accesses -/

namespace Access

variable {now : Millis} {a : Access} {s s' : Store}

/-- The second job is the first one at a later time: it has the same owner, and its status and
stamps are what may become of those of the first one. -/
structure Tends (now : Millis) (j j' : Job) : Prop where
  user : j'.user = j.user
  becomes : j.Becomes now j'

/-- What an access makes of a job: somebody takes it or gives it back, it is changed as told, or a
model is appended to it. -/
inductive JobStep (now : Millis) (s : Store) (j : Job) : Job → Prop where
  | held (holder : Option String) : JobStep now s j (Leasable.withHolder holder j)
  | changed {u : JobUpdate} {j' : Job} : Job.apply now u j s = .ok (j', s) → JobStep now s j j'
  | appended {model configSpace : String} :
    ConfigSpace.build j.id (j.models ++ [model]) j.configOverrides s = .ok (configSpace, s) →
    JobStep now s j { j with models := j.models ++ [model], configSpace }

/-- A step of a job keeps what identifies it. -/
theorem JobStep.tended {j j' : Job} (h : JobStep now s j j') :
    j'.id = j.id ∧ j'.user = j.user ∧ j'.dataset = j.dataset ∧ j'.objective = j.objective ∧
      j'.altObjectives = j.altObjectives := by
  cases h with
  | held holder => exact ⟨rfl, rfl, rfl, rfl, rfl⟩
  | changed happly =>
    have htended := (Job.apply_eq_ok happly).1
    exact ⟨htended.id, htended.user, htended.dataset, htended.objective, htended.altObjectives⟩
  | appended hbuild => exact ⟨rfl, rfl, rfl, rfl, rfl⟩

/-- A step of a job is one that tends it. -/
theorem JobStep.tends {j j' : Job} (h : JobStep now s j j') : Tends now j j' := by
  refine ⟨h.tended.2.1, ?_⟩
  cases h with
  | held holder => exact .kept .refl ⟨rfl, rfl, rfl, rfl, rfl⟩
  | changed happly => exact Job.becomes_apply happly
  | appended hbuild => exact .kept .refl ⟨rfl, rfl, rfl, rfl, rfl⟩

/-- A job is created under an unused id, with a configuration space of its models, or steps are made
with jobs that are there. -/
theorem job_steps_of_ok (hs : s.WellFormed) {r : Reply} (h : a.transaction now s = .ok (r, s')) :
    (∃ (id : String) (caller : Caller) (new : NewJob) (configSpace : String),
        ConfigSpace.build id new.models new.configOverrides s = .ok (configSpace, s) ∧
        s.jobs.find? id = none ∧ s' = s.put (Job.initial now id caller new configSpace)) ∨
      Store.Overwrites (JobStep now s) s s' := by
  -- an access to another collection leaves the jobs alone
  by_cases hcollection : a.collection = .jobs
  case neg => exact .inr (.of_table ((edits_of_ok h).table_of_ne hcollection))
  case pos =>
    cases a with
    | createJob id caller new =>
      obtain ⟨_, hcreate, -⟩ := map_eq_ok.1 h
      obtain ⟨_, _, _, _, -, -, -, -, hbuild, hnone, rfl, -⟩ := Job.create_eq_ok.1 hcreate
      exact .inl ⟨id, caller, new, _, hbuild, hnone, rfl⟩
    | updateJob caller id u =>
      obtain ⟨_, hchange, -⟩ := map_eq_ok.1 h
      obtain ⟨j, j', hj, -, happly, rfl, -⟩ := Job.change_eq_ok.1 hchange
      have hid : j'.id = j.id := (Job.apply_eq_ok happly).1.id
      exact .inr (.put hj (.changed happly) (hid.trans (hs.key_eq_of_document? hj)))
    | leaseJob filters sort direction process =>
      obtain ⟨_, hlease, -⟩ := map_eq_ok.1 h
      exact .inr (hs.overwrites_lease (fun holder _ => .held holder) hlease)
    | releaseJob id process =>
      obtain ⟨_, hrelease, -⟩ := map_eq_ok.1 h
      exact .inr (hs.overwrites_release (fun holder _ => .held holder) hrelease)
    | appendModel id model =>
      obtain ⟨_, happend, -⟩ := map_eq_ok.1 h
      obtain ⟨j, hj, ⟨-, _, hbuild, rfl⟩ | ⟨-, rfl⟩⟩ := Job.appendModel_eq_ok happend
      · have hid : j.id = id := hs.key_eq_of_document? hj
        exact .inr (.put hj (.appended hbuild) hid)
      · exact .inr (.refl s')
    | releaseHeld c process =>
      obtain rfl : c = .jobs := hcollection
      obtain ⟨_, hrelease, -⟩ := map_eq_ok.1 h
      exact .inr (hs.overwrites_releaseHeld (fun holder _ => .held holder) hrelease)
    | _ => cases hcollection

/-- A job is created under an unused id, or jobs are written over. -/
theorem jobs_of_ok (hs : s.WellFormed) {r : Reply} (h : a.transaction now s = .ok (r, s')) :
    (∃ (id : String) (caller : Caller) (new : NewJob) (configSpace : String),
        s.jobs.find? id = none ∧ s' = s.put (Job.initial now id caller new configSpace)) ∨
      Store.Overwrites (Tends now) s s' := by
  rcases job_steps_of_ok hs h with ⟨id, caller, new, configSpace, -, hnone, hput⟩ | hover
  · exact .inl ⟨id, caller, new, configSpace, hnone, hput⟩
  · exact .inr (hover.mono fun _ _ hstep => hstep.tends)

/-- The access sets the quality. -/
def Sets (x : Binary64) : Access → Prop
  | updateTask _ _ u => x ∈ u.qualities
  | _ => False

/-- The access sets the qualities of the task under an id at a place. -/
def Rates (id : String) (f : Rating) : Access → Prop
  | updateTask _ id' u => id' = id ∧ (u.rated? f).isSome = true
  | _ => False

/-- The access sets no quality of any task. -/
def IsQuiet : Access → Prop
  | updateTask _ _ u => ∀ f, u.rated? f = none
  | _ => True

/-- A quiet access rates no task. -/
theorem IsQuiet.not_rates (ha : a.IsQuiet) (id : String) (f : Rating) : ¬ a.Rates id f := by
  cases a with
  | updateTask caller id' u =>
    rintro ⟨-, hsome⟩
    rw [ha f] at hsome
    cases hsome
  | _ => exact fun hrates => hrates

/-- A cascade among the accesses is one that some status of a job orders. -/
def IsOrderly : Access → Prop
  | cascade _ sources target => (sources, target) ∈ TaskStatus.cascades
  | _ => True

/-- The second task is the same task of the same job at a later time. It has no quality but those of
the first one and those that the access sets. -/
structure Retains (a : Access) (now : Millis) (t t' : Task) : Prop where
  job : t'.job = t.job
  user : t'.user = t.user
  qualities : ∀ x ∈ t'.qualities, x ∈ t.qualities ∨ a.Sets x
  becomes : a.IsOrderly → t.Becomes now t'

/-- A step that keeps the qualities of a task retains them. -/
theorem Retains.of_qualities {t t' : Task} (hjob : t'.job = t.job) (huser : t'.user = t.user)
    (h : t'.qualities = t.qualities) (hbecomes : a.IsOrderly → t.Becomes now t') :
    Retains a now t t' :=
  ⟨hjob, huser, fun _ hx => .inl (h ▸ hx), hbecomes⟩

/-- What an access makes of a task: somebody takes it or gives it back, it is changed as told, or it
moves in a cascade. -/
inductive TaskStep (now : Millis) (t : Task) : Access → Task → Prop where
  | held {a : Access} (holder : Option String) : TaskStep now t a (Leasable.withHolder holder t)
  | changed {caller : Caller} {u : TaskUpdate} {t' : Task} : t.apply now u = .ok t' →
    TaskStep now t (updateTask caller t.id u) t'
  | cascaded {job : String} {sources : List TaskStatus} {target : TaskStatus} : t.status ∈ sources →
    TaskStep now t (cascade job sources target) { t with status := target }

/-- A step of a task keeps what identifies it. -/
theorem TaskStep.tended {t t' : Task} (h : TaskStep now t a t') :
    t'.id = t.id ∧ t'.job = t.job ∧ t'.user = t.user ∧ t'.dataset = t.dataset ∧
      t'.objective = t.objective ∧ t'.altObjectives = t.altObjectives := by
  cases h with
  | held holder => exact ⟨rfl, rfl, rfl, rfl, rfl, rfl⟩
  | changed happly =>
    have htended := Task.tended_apply happly
    exact ⟨htended.id, htended.job, htended.user, htended.dataset, htended.objective,
      htended.altObjectives⟩
  | cascaded hsource => exact ⟨rfl, rfl, rfl, rfl, rfl, rfl⟩

/-- A step of a task that the access does not rate retains its qualities. -/
theorem TaskStep.retains {t t' : Task} (h : TaskStep now t a t') : Retains a now t t' := by
  cases h with
  | held holder => exact .of_qualities rfl rfl rfl fun _ => .kept .refl ⟨rfl, rfl, rfl⟩
  | changed happly =>
    have htended := Task.tended_apply happly
    refine ⟨htended.job, htended.user, fun x hx => ?_, fun _ => Task.becomes_apply happly⟩
    -- an update is the only access that brings a quality with it
    rw [Task.qualities_apply happly] at hx
    exact (Task.mem_of_mem_qualities_assign hx).symm
  | cascaded hsource =>
    exact .of_qualities rfl rfl rfl fun horderly => Task.Becomes.refl.cascaded horderly hsource

/-- The next task of a stored job is created under an unused id, or steps are made with tasks that are
there. -/
theorem task_steps_of_ok (hs : s.WellFormed) {r : Reply} (h : a.transaction now s = .ok (r, s')) :
    (∃ (j : Job) (ts : List Task) (n : Nat) (new : NewTask), s.Has j ∧ s.documents Task = .ok ts ∧
        n = (ts.filter fun t => t.job == j.id).length + 1 ∧ s.tasks.find? (taskId j.id n) = none ∧
        s' = s.put (Task.initial now j n new)) ∨
      Store.Overwrites (fun t => TaskStep now t a) s s' := by
  -- an access to another collection leaves the tasks alone
  by_cases hcollection : a.collection = .tasks
  case neg => exact .inr (.of_table ((edits_of_ok h).table_of_ne hcollection))
  case pos =>
    cases a with
    | createTask caller new =>
      obtain ⟨_, hcreate, -⟩ := map_eq_ok.1 h
      obtain ⟨j, ts, hj, -, -, -, hts, hnone, rfl, -⟩ := Task.create_eq_ok.1 hcreate
      exact .inl ⟨j, ts, _, new, (hs.document?_eq_ok_some.1 hj).1, hts, rfl, hnone, rfl⟩
    | updateTask caller id u =>
      obtain ⟨_, hchange, -⟩ := map_eq_ok.1 h
      obtain ⟨t, t', ht, -, happly, rfl, -⟩ := Task.change_eq_ok.1 hchange
      obtain rfl : t.id = id := hs.key_eq_of_document? ht
      exact .inr (.put ht (.changed happly) (Task.tended_apply happly).id)
    | leaseTask filters sort direction process =>
      obtain ⟨_, hlease, -⟩ := map_eq_ok.1 h
      exact .inr (hs.overwrites_lease (fun holder _ => .held holder) hlease)
    | releaseTask id process =>
      obtain ⟨_, hrelease, -⟩ := map_eq_ok.1 h
      exact .inr (hs.overwrites_release (fun holder _ => .held holder) hrelease)
    | cascade job sources target =>
      obtain ⟨n, hcascade, -⟩ := map_eq_ok.1 h
      rw [Task.cascade] at hcascade
      refine .inr (hs.overwrites_updateAll (fun _ => ?_) (fun t ht => ?_) hcascade)
      · rfl
      · -- whom the cascade moves was in one of its sources
        obtain ⟨-, hsource⟩ := Bool.and_eq_true_iff.1 ht
        exact .cascaded (List.contains_iff_mem.1 hsource)
    | releaseHeld c process =>
      obtain rfl : c = .tasks := hcollection
      obtain ⟨_, hrelease, -⟩ := map_eq_ok.1 h
      exact .inr (hs.overwrites_releaseHeld (fun holder _ => .held holder) hrelease)
    | _ => cases hcollection

/-- The first task of a stored job is created, or the next one, or tasks are written over. -/
theorem tasks_of_ok (hs : s.WellFormed) {r : Reply} (h : a.transaction now s = .ok (r, s')) :
    (∃ (j : Job) (n : Nat) (new : NewTask), s.Has j ∧ s.tasks.find? (taskId j.id n) = none ∧
        s' = s.put (Task.initial now j n new)) ∨ Store.Overwrites (a.Retains now) s s' := by
  rcases task_steps_of_ok hs h with ⟨j, ts, n, new, hj, -, -, hnone, hput⟩ | hover
  · exact .inl ⟨j, n, new, hj, hnone, hput⟩
  · exact .inr (hover.mono fun _ _ hstep => hstep.retains)

/-! ### One document through an access -/

/-- A job is never deleted. -/
theorem exists_job_of_ok (hs : s.WellFormed) {r : Reply} (h : a.transaction now s = .ok (r, s'))
    {j : Job} (hj : s.Has j) : ∃ j' : Job, s'.Has j' ∧ j'.id = j.id ∧ Tends now j j' := by
  rcases jobs_of_ok hs h with ⟨id, caller, new, configSpace, hnone, rfl⟩ | hover
  · exact ⟨j, Store.has_put_iff.2 (.inr ⟨hj.key_ne hnone, hj⟩), rfl, rfl, .refl⟩
  · rcases hover j.id with hsame | ⟨i, j', hi, htends, hid, hfind⟩
    · exact ⟨j, hsame.trans hj, rfl, rfl, .refl⟩
    · -- the job that was read under the id is the stored one
      obtain ⟨hhas, hkey⟩ := hs.document?_eq_ok_some.1 hi
      obtain rfl : i = j := hhas.eq_of_key_eq hj hkey
      refine ⟨j', ?_, hid, htends⟩
      rw [Store.Has, show key j' = key i from hid]
      exact hfind

/-- A job is still there behind an access, and has become what the access lets it become. -/
theorem exists_job_after (hs : s.WellFormed) {j : Job} (hj : s.Has j) (now : Millis) (a : Access) :
    ∃ j' : Job, (a.after now s).Has j' ∧ j'.id = j.id ∧ Tends now j j' :=
  after_induction ⟨j, hj, rfl, rfl, .refl⟩ fun _ _ h => exists_job_of_ok hs h hj

/-- A job that is there is a new one, or it was there before. -/
theorem exists_job_before (hs : s.WellFormed) {j' : Job} (hj' : (a.after now s).Has j') :
    (∃ (id : String) (caller : Caller) (new : NewJob) (configSpace : String),
        j' = Job.initial now id caller new configSpace) ∨
      ∃ j : Job, s.Has j ∧ Tends now j j' := by
  rcases after_cases now a s with ⟨r, hok, -⟩ | ⟨hsame, -⟩
  case inr => exact .inr ⟨j', hsame ▸ hj', rfl, .refl⟩
  case inl =>
    rcases jobs_of_ok hs hok with ⟨id, caller, new, configSpace, -, hput⟩ | hover
    · rw [hput, Store.has_put_iff] at hj'
      rcases hj' with rfl | ⟨-, hj'⟩
      · exact .inl ⟨id, caller, new, configSpace, rfl⟩
      · exact .inr ⟨j', hj', rfl, .refl⟩
    · rcases hover j'.id with hsame | ⟨j, i, hj, htends, -, hfind⟩
      · exact .inr ⟨j', hsame.symm.trans hj', rfl, .refl⟩
      · obtain rfl : i = j' := LawfulDocument.encode_inj (Option.some.inj (hfind.symm.trans hj'))
        exact .inr ⟨j, (hs.document?_eq_ok_some.1 hj).1, htends⟩

/-- A task is never deleted. What is read of it before it is written over may have other qualities,
but its status and its stages are those that were written. -/
theorem exists_task_after (hs : s.WellFormed) (ha : a.IsOrderly) {t : Task} (ht : s.Has t)
    (now : Millis) :
    ∃ t' : Task, (a.after now s).Has t' ∧ t'.id = t.id ∧ t'.user = t.user ∧ t.Becomes now t' := by
  refine after_induction
    (P := fun v => ∃ t' : Task, v.Has t' ∧ t'.id = t.id ∧ t'.user = t.user ∧ t.Becomes now t')
    ⟨t, ht, rfl, rfl, .refl⟩ fun r s' h => ?_
  rcases tasks_of_ok hs h with ⟨j, n, new, -, hnone, rfl⟩ | hover
  · have hunused : (s.table .tasks).find? (key (Task.initial now j n new)) = none := hnone
    exact ⟨t, (Store.has_put_of_ne (ht.key_ne hunused)).2 ht, rfl, rfl, .refl⟩
  · rcases hover t.id with hsame | ⟨u, u', hu, hretains, hid, hfind⟩
    · exact ⟨t, hsame.trans ht, rfl, rfl, .refl⟩
    · obtain ⟨text, htext, hdecode⟩ := Store.document?_eq_ok_some.1 hu
      cases htext.symm.trans ht
      -- what is read of a task differs from it in its qualities at most
      obtain ⟨_, _, _, _, rfl⟩ := Task.of_decode_encode hdecode
      refine ⟨u', ?_, hid, hretains.user, Task.Becomes.trans (.kept .refl ?_) (hretains.becomes ha)⟩
      · rw [Store.Has, show key u' = key t from hid]
        exact hfind
      · exact ⟨rfl, rfl, rfl⟩

end Access

end Fleet
