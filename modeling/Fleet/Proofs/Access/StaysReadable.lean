import Fleet.Proofs.Access.Serving
import Fleet.Proofs.Lease.Exclusion
import Fleet.Proofs.Store.Faithful

/-!
# A store stays readable

Every document that an operation writes can be read again, unless an update of a task sets a quality
that is not finite. This is the only exception (`store_stays_readable`): in a run in which no update
does so all documents can be read at any time, and nothing that is asked for fails for a text that
cannot be read. One such update is enough for the opposite. It succeeds, and from then on the task
is lost, and whatever looks at all tasks fails, whoever asks and whatever the task is to him
(`Operation.ReadsTask`).
-/

set_option autoImplicit false

namespace Fleet

open Transaction

/-! ## What cannot be read -/

namespace Operation

/-- The operation reads the task under the id, or all tasks, before it does anything else. -/
inductive ReadsTask (id : String) : Operation → Prop where
  | getTask (caller : Caller) : ReadsTask id (.getTask caller id)
  | updateTask (caller : Caller) (u : TaskUpdate) : ReadsTask id (.updateTask caller id u)
  | releaseTask (process : String) : ReadsTask id (.releaseTask id process)
  | listTasks (caller : Caller) (filters : List TaskFilter) (q : ListQuery TaskSort) :
    ReadsTask id (.listTasks caller filters q)
  | countTasks (caller : Caller) (filters : List TaskFilter) :
      ReadsTask id (.countTasks caller filters)
  | leaseTask (filters : List TaskFilter) (sort : Option TaskSort) (direction : Direction)
    (process : String) : ReadsTask id (.leaseTask filters sort direction process)
  | pauseTasks (job : String) : ReadsTask id (.pauseTasks job)
  | resumeTasks (job : String) : ReadsTask id (.resumeTasks job)
  | terminateTasks (job : String) : ReadsTask id (.terminateTasks job)
  | releaseHeld (process : String) : ReadsTask id (.releaseHeld .tasks process)

variable {w : World} {id : String}

theorem ofState_commit_of_error {α : Type} {t : Transaction α} {e : StateError}
    (h : t w.store = .error e) (reply : α → Reply) :
    (Answered.ofState reply (w.commit t)).1 = .error (.state e) := by
  have hcommit : t.commit w.store = (.error e, w.store) := by rw [commit, h]
  have hanswer : (Answered.ofState reply (w.commit t)).1 =
      ((t.commit w.store).1.mapError .state).map reply := rfl
  rw [hanswer, hcommit]
  rfl

/-- An operation of one transaction ends well if the transaction comes to an end. -/
theorem of_ofState_commit_eq_ok {α : Type} {t : Transaction α} {reply : α → Reply} {r : Reply}
    (h : (Answered.ofState reply (w.commit t)).1 = .ok r) :
    ∃ a s', t w.store = .ok (a, s') ∧ (Answered.ofState reply (w.commit t)).2.store = s' := by
  have hanswer : Answered.ofState reply (w.commit t) =
      (((t.commit w.store).1.mapError .state).map reply,
        { w with store := (t.commit w.store).2 }) := rfl
  rw [hanswer] at h ⊢
  rcases commit_cases t w.store with ⟨a, s', hok, hcommit⟩ | ⟨e, -, hcommit⟩
  · exact ⟨a, s', hok, by rw [hcommit]⟩
  · rw [hcommit] at h
    cases h

/-- Who meets a task that cannot be read says so. -/
theorem ReadsTask.perform {op : Operation} (h : op.ReadsTask id) (hw : w.store.WellFormed)
    (hid : ¬ w.store.Legible id) :
    (op.perform w).1 = .error (.state (.deserialize "not a task")) := by
  -- the one task cannot be read, so neither can all of them
  have hone := Store.document?_of_not_legible hid
  have hall := hw.documents_of_not_legible hid
  cases h with
  | getTask caller =>
    have hfetch := bind_eq_error (f := fun t? => pure (t?.map (Document.refresh w.now))).2
      (.inl (find?_eq_error hone))
    exact ofState_commit_of_error (bind_eq_error.2 (.inl hfetch)) .task
  | updateTask caller u =>
    exact ofState_commit_of_error (bind_eq_error.2 (.inl (require_eq_error hone))) .task
  | releaseTask process =>
    exact ofState_commit_of_error (bind_eq_error.2 (.inl (find?_eq_error hone))) _
  | listTasks caller filters q =>
    have hscan :=
      bind_eq_error (f := fun ts : List Task => pure (ts.map (Document.refresh w.now))).2
      (.inl (matching_eq_error hall (Task.isListed caller filters)))
    exact ofState_commit_of_error (bind_eq_error.2 (.inl hscan)) .taskPage
  | countTasks caller filters =>
    exact ofState_commit_of_error (bind_eq_error.2 (.inl (matching_eq_error hall _))) .count
  | leaseTask filters sort direction process =>
    exact ofState_commit_of_error (bind_eq_error.2 (.inl (matching_eq_error hall _))) .foundTask
  | pauseTasks job => exact ofState_commit_of_error (updateAll_eq_error hall _ _) .count
  | resumeTasks job => exact ofState_commit_of_error (updateAll_eq_error hall _ _) .count
  | terminateTasks job => exact ofState_commit_of_error (updateAll_eq_error hall _ _) .count
  | releaseHeld process => exact ofState_commit_of_error (updateAll_eq_error hall _ _) .count

end Operation

namespace Store

variable {s t : Store}

/-- A task with a quality that is not finite is there for good, whatever is done. -/
theorem has_of_leads_of_not_isFinite {allowed : Store → Millis → Access → Prop}
    (h : s.Leads allowed t) (hs : s.WellFormed) {u : Task} (hu : s.Has u) {x : Binary64}
    (hx : x ∈ u.qualities) (hinfinite : x.isFinite = false) : t.WellFormed ∧ t.Has u := by
  refine Leads.induction (P := fun v => v.WellFormed ∧ v.Has u) h ⟨hs, hu⟩ ?_
  rintro v now a ⟨hv, huv⟩ -
  exact ⟨Access.wellFormed_after hv, Access.has_after_of_not_isFinite hv huv hx hinfinite now a⟩

/-- A task with a quality that is not finite is not legible. -/
theorem not_legible_of_has {u : Task} (hu : s.Has u) {x : Binary64} (hx : x ∈ u.qualities)
    (hinfinite : x.isFinite = false) : ¬ s.Legible u.id := by
  intro h
  rw [h u hu rfl x hx] at hinfinite
  cases hinfinite

/-- A store with such a task is not readable. -/
theorem not_readable_of_not_legible {id : String} (h : ¬ s.Legible id) : ¬ s.Readable .tasks := by
  intro hread
  have hread : s.Readable (Document.collection Task) := hread
  obtain ⟨found, hfound⟩ := hread.exists_document? (D := Task) id
  rw [document?_of_not_legible h] at hfound
  cases hfound

end Store

/-! ## A boundless quality -/

open Operation Store

namespace Boundless

/-- The first id that is drawn. -/
def jobId : String := objectId 0 1

def job : Job := Workbench.jobUnder jobId

/-- The first task of the job. -/
def task : Task := .initial 0 job 1 { job := jobId, model := "m" }

/-- A job is created, and a task of it. -/
def opening : List (Moment × Operation) := [
  (⟨0, 1, none⟩, .putDataset Workbench.dataset), (⟨0, 1, none⟩, .putModule Workbench.model),
  (⟨0, 1, none⟩, .putModule Workbench.objective), (⟨0, 1, none⟩, .createJob .root Workbench.new),
  (⟨0, 2, none⟩, .createTask .root { job := jobId, model := "m" })]

/-- What is said of the task. -/
def update : TaskUpdate := { quality := some .infinity }

def world : World := ⟨(Workbench.catalog.put job).put task, 0, 2, none⟩

/-- The opening of the example, one operation after the other. -/
theorem behindAll_opening : behindAll opening ⟨.empty, 0, 1, none⟩ = world := by
  have hcreate :
      (createJob .root Workbench.new).behind ⟨0, 1, none⟩ ⟨Workbench.catalog, 0, 1, none⟩ =
      ⟨Workbench.catalog.put job, 0, 2, none⟩ :=
    behind_createJob rfl (Workbench.create_eq_ok jobId)
  have hjob : (Workbench.catalog.put job).document? jobId = .ok (some job) :=
    (has_put_self _ job).document?
  have htask : (createTask .root { job := jobId, model := "m" }).behind ⟨0, 2, none⟩
      ⟨Workbench.catalog.put job, 0, 2, none⟩ = world :=
    behind_createTask (Task.create_eq_ok.2 ⟨job, [], hjob, rfl, rfl, by decide, rfl, rfl, rfl, rfl⟩)
  rw [opening, behindAll_cons, behindAll_cons, behindAll_cons, behindAll_cons, behindAll_cons,
    behindAll_nil, behind_catalog_empty, hcreate, htask]

/-- The example is a run of finite operations. -/
theorem serves : Store.empty.Serves (fun _ op => op.IsFinite) world.store := by
  have h₀ : Store.empty.Serves (fun _ op => op.IsFinite) (World.mk .empty 0 1 none).store := .refl
  have h₁ := serves_behind h₀ ⟨0, 1, none⟩ (.putDataset Workbench.dataset) trivial
  have h₂ := serves_behind h₁ ⟨0, 1, none⟩ (.putModule Workbench.model) trivial
  have h₃ := serves_behind h₂ ⟨0, 1, none⟩ (.putModule Workbench.objective) trivial
  have h₄ := serves_behind h₃ ⟨0, 1, none⟩ (.createJob .root Workbench.new) trivial
  have h₅ :=
    serves_behind h₄ ⟨0, 2, none⟩ (.createTask .root { job := jobId, model := "m" }) trivial
  have hopening := behindAll_opening
  rw [opening, behindAll_cons, behindAll_cons, behindAll_cons, behindAll_cons, behindAll_cons,
    behindAll_nil] at hopening
  rw [hopening] at h₅
  exact h₅

/-- The task takes the quality. -/
theorem exists_perform_update :
    ∃ r, ((updateTask .root task.id update).perform world).1 = .ok r := by
  have hsound : Document.Sound task := Task.sound_iff.2 (by decide)
  have htask : world.store.document? task.id = .ok (some task) :=
    document?_eq_ok_some.2 ⟨_, has_put_self _ task, hsound⟩
  have hchange : Task.change 0 .root task.id update world.store =
      .ok ((task.assign update).refresh, world.store.put (task.assign update)) :=
    Task.change_eq_ok.2 ⟨task, task.assign update, htask, rfl, rfl, rfl, rfl⟩
  refine ⟨.task (task.assign update).refresh, ?_⟩
  have hcommit := World.commit_of_eq_ok (w := world) hchange
  show (Answered.ofState .task (world.commit (Task.change 0 .root task.id update))).1 = _
  rw [hcommit]
  rfl

end Boundless

/-! ## The result -/

/-- **A store stays readable unless it is told a quality that is not finite.** As long as no update
sets one every stored document can be read, also in the middle of operations, and no operation and
no single access fails for a text that cannot be read. Behind the first update that sets one and
succeeds its task cannot be read any more, whatever is done, and neither can the tasks as a whole:
whoever reads the task or looks at all tasks fails, and no task is ever created again. -/
theorem store_stays_readable {w : World}
    (h : Store.empty.Serves (fun _ op => op.IsFinite) w.store) :
    (∀ s, w.store.Leads (fun _ _ a => a.IsFinite) s →
      (∀ c, s.Readable c) ∧ ∀ now (a : Access) text, a.answer now s ≠ .error (.deserialize text)) ∧
    (∀ (op : Operation) e, (op.perform w).1 = .error e → ¬ Unreadable e) ∧
    ∀ caller id u r, ¬ u.IsFinite → ((Operation.updateTask caller id u).perform w).1 = .ok r →
      ∀ v : World,
        ((Operation.updateTask caller id u).perform w).2.store.Serves (fun _ _ => True) v.store →
        ¬ v.store.Readable .tasks ∧
        (∀ op : Operation, op.ReadsTask id →
          (op.perform v).1 = .error (.state (.deserialize "not a task"))) ∧
        ∀ caller new r, ((Operation.createTask caller new).perform v).1 ≠ .ok r := by
  have hclear : w.store.Clear := h.reaches.clear Store.clear_empty
  refine ⟨fun s hs => ?_, fun op e he => op.not_unreadable_of_perform hclear he, ?_⟩
  · have hs := Store.Reaches.clear hs hclear
    exact ⟨hs.readable, fun now a text => Access.answer_ne_deserialize hs now a text⟩
  · intro caller id u r hinfinite hr v hv
    obtain ⟨x, hx, hnot⟩ : ∃ x ∈ u.qualities, x.isFinite = false := by
      simpa [TaskUpdate.IsFinite] using hinfinite
    -- the update wrote a task with this quality, under the id
    obtain ⟨_, s, hchange, hs⟩ := Operation.of_ofState_commit_eq_ok hr
    obtain ⟨t, t', ht, -, happly, rfl, -⟩ := Task.change_eq_ok.1 hchange
    have hmem : x ∈ t'.qualities := by
      rw [Task.qualities_apply happly]
      exact Task.mem_qualities_assign_of_mem hx
    have hid : t'.id = id :=
      (Task.tended_apply happly).id.trans (hclear.wellFormed.key_eq_of_document? ht)
    -- and it is still there, where nothing reads it
    have hrun : (w.store.put t').Leads (fun _ _ _ => True) v.store := by
      rw [← hs]
      exact hv.leads
    obtain ⟨hwf, hhas⟩ := Store.has_of_leads_of_not_isFinite hrun (hclear.wellFormed.put t')
      (Store.has_put_self _ t') hmem hnot
    have hlegible : ¬ v.store.Legible id := hid ▸ Store.not_legible_of_has hhas hmem hnot
    refine ⟨Store.not_readable_of_not_legible hlegible, fun op hop => hop.perform hwf hlegible, ?_⟩
    intro caller new r hr
    obtain ⟨_, s, hcreate, -⟩ := Operation.of_ofState_commit_eq_ok hr
    obtain ⟨_, ts, -, -, -, -, hts, -⟩ := Task.create_eq_ok.1 hcreate
    rw [hwf.documents_of_not_legible hlegible] at hts
    cases hts

/-- Behind the only update of the only task nobody can list tasks any more. -/
theorem store_stays_readable_until_boundless :
    (∀ c, Boundless.world.store.Readable c) ∧
      ∃ r, ((updateTask .root Boundless.task.id Boundless.update).perform Boundless.world).1 =
        .ok r ∧
        let w := ((updateTask .root Boundless.task.id Boundless.update).perform Boundless.world).2
        ∀ caller filters q, ((listTasks caller filters q).perform w).1 =
          .error (.state (.deserialize "not a task")) := by
  obtain ⟨hread, -, hspoilt⟩ := store_stays_readable Boundless.serves
  obtain ⟨r, hr⟩ := Boundless.exists_perform_update
  have hinfinite : ¬ Boundless.update.IsFinite := by decide
  refine ⟨(hread _ .refl).1, r, hr, fun caller filters q => ?_⟩
  exact (hspoilt _ _ _ r hinfinite hr _ .refl).2.1 _ (.listTasks caller filters q)

end Fleet
