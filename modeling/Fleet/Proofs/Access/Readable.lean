import Fleet.Proofs.Access.Overwriting
import Fleet.Proofs.Store.Readable

/-!
# Accesses to stores that can be read

Only an update of a task can write a document that cannot be read, namely by a quality that is not
finite (`TaskUpdate.IsFinite`). Any other access leaves a clear store clear, and on a clear store no
access fails for a text that cannot be read.

Such a task is there for good (`Access.has_after_of_not_isFinite`): whoever wants to write over it
has to read it first.
-/

set_option autoImplicit false

namespace Fleet

open Transaction (map_eq_ok ReadsOn)

namespace Access

variable {now : Millis} {a : Access} {s s' : Store}

/-- The access sets no quality that is not finite. -/
def IsFinite : Access → Prop
  | updateTask _ _ u => u.IsFinite
  | _ => True

/-- A quality that a finite access sets is finite. -/
theorem IsFinite.of_sets (ha : a.IsFinite) {x : Binary64} (h : a.Sets x) : x.isFinite = true := by
  cases a with
  | updateTask caller id u => exact ha x h
  | _ => exact h.elim

/-- An access that sets no quality is finite. -/
theorem IsQuiet.isFinite (ha : a.IsQuiet) : a.IsFinite := by
  cases a with
  | updateTask caller id u =>
    intro x hx
    rw [TaskUpdate.qualities_eq_nil ha] at hx
    cases hx
  | _ => trivial

/-! ## What is written -/

/-- A success with finite qualities leaves a clear store clear. -/
theorem clear_of_ok (hs : s.Clear) (ha : a.IsFinite) {r : Reply}
    (h : a.transaction now s = .ok (r, s')) : s'.Clear := by
  rcases tasks_of_ok hs.wellFormed h with ⟨j, n, new, -, -, rfl⟩ | hover
  · exact hs.put_task fun x hx => Task.isFinite_initial hx
  · refine ⟨(edits_of_ok h).wellFormed hs.wellFormed, fun k text hfind => ?_⟩
    rcases hover k with hsame | ⟨t, t', ht, hretains, -, htext⟩
    · exact hs.tasks k text (hsame.symm.trans hfind)
    · -- what was read has finite qualities, and the access sets no others
      cases htext.symm.trans hfind
      refine ⟨_, Task.decode_encode_of_isFinite fun x hx => ?_⟩
      rcases hretains.qualities x hx with hx | hx
      · exact hs.wellFormed.isFinite_of_document? ht x hx
      · exact ha.of_sets hx

/-- **The step lemma**: an access without infinite qualities keeps the store clear. -/
theorem clear_after (hs : s.Clear) (ha : a.IsFinite) : (a.after now s).Clear :=
  after_induction hs fun _ _ h => clear_of_ok hs ha h

end Access

/-! ## What is read -/

section

open Transaction

variable {s : Store}

/-- In a clear store no module fails to be read. -/
theorem readsOn_requireModule (hs : s.Clear) (id : String) (kind : ModuleKind) :
    (requireModule id kind).ReadsOn s := by
  refine (readsOn_find? hs id).bind fun found _ _ => ?_
  cases found with
  | none => exact readsOn_throw nofun
  | some m =>
    simp only
    split
    · exact readsOn_throw nofun
    · split
      · exact readsOn_throw nofun
      · exact readsOn_pure m

/-- Nor does one of those that a configuration space is built from. -/
theorem ConfigSpace.readsOn_build (hs : s.Clear) (job : String) (models : List String)
    (overrides : Overrides) : (ConfigSpace.build job models overrides).ReadsOn s := by
  have hchoice (model : String) : (ConfigSpace.choice overrides model).ReadsOn s := by
    refine (readsOn_requireModule hs model .model).bind fun m _ _ => ?_
    refine (readsOn_liftM fun text h => ?_).bind fun _ _ _ => readsOn_pure _
    -- a definition that is no JSON is bad input, not a text of the store
    unfold readDefinition at h
    split at h <;> cases h
  unfold build
  split
  · exact readsOn_throw nofun
  · exact (ReadsOn.mapM (readsOnly_choice overrides) hchoice models).bind fun _ _ _ =>
      readsOn_pure _

/-- A caller is refused for other reasons than a text that cannot be read. -/
theorem Caller.authorize_ne_deserialize (c : Caller) (kind id owner text : String) :
    c.authorize kind id owner ≠ .error (.deserialize text) := by
  unfold authorize
  split
  · nofun
  · split <;> nofun

namespace Job

/-- Creating a job does not fail to read. -/
theorem readsOn_create (hs : s.Clear) (now : Millis) (id : String) (caller : Caller)
    (new : NewJob) :
    (create now id caller new).ReadsOn s := by
  have hrest : (do
      let _ ← requireModule new.objective .objective
      let _ ← new.altObjectives.mapM fun alt => requireModule alt .objective
      let configSpace ← ConfigSpace.build id new.models new.configOverrides
      insertNew (initial now id caller new configSpace)
      return (initial now id caller new configSpace).refresh now).ReadsOn s := by
    -- the objective, its alternatives, the models, and then the job is put
    refine (readsOn_requireModule hs _ _).bind_readsOnly (readsOnly_requireModule _ _) fun _ _ => ?_
    have halts := ReadsOn.mapM (fun alt => readsOnly_requireModule alt .objective)
      (fun alt => readsOn_requireModule hs alt .objective) new.altObjectives
    refine halts.bind_readsOnly (.mapM (fun alt => readsOnly_requireModule alt .objective) _)
      fun _ _ => ?_
    refine (ConfigSpace.readsOn_build hs id _ _).bind_readsOnly
      (ConfigSpace.readsOnly_build id _ _) fun configSpace _ => ?_
    exact (readsOn_insertNew hs _).bind fun _ _ _ => readsOn_pure _
  refine (readsOn_find? hs new.dataset).bind_readsOnly (readsOnly_find? _) fun found _ => ?_
  cases found with
  | none => exact ReadsOn.bind (readsOn_throw (by nofun)) fun _ _ h => absurd h throw_ne_ok
  | some d =>
    simp only
    split
    · exact ReadsOn.bind (readsOn_throw (by nofun)) fun _ _ h => absurd h throw_ne_ok
    · exact hrest

/-- A change of status is refused for other reasons than a text that cannot be read. -/
theorem applyStatus_ne_deserialize (target : JobStatus) (now : Millis) (j : Job) (text : String) :
    j.applyStatus target now ≠ .error (.deserialize text) := by
  unfold applyStatus
  split
  · nofun
  · split <;> nofun

/-- Changing a job does not fail to read. -/
theorem readsOn_change (hs : s.Clear) (now : Millis) (caller : Caller) (id : String)
    (u : JobUpdate) :
    (change now caller id u).ReadsOn s := by
  refine readsOn_update hs fun j => ?_
  refine (readsOn_liftM (caller.authorize_ne_deserialize _ _ _)).bind_readsOnly (.liftM _)
    fun _ _ => ?_
  have hrebuild : (rebuild u j).ReadsOn s := by
    unfold rebuild
    split
    · exact readsOn_pure j
    · exact (ConfigSpace.readsOn_build hs _ _ _).bind fun _ _ _ => readsOn_pure _
  refine hrebuild.bind fun j' _ _ => ?_
  simp only
  split
  · exact readsOn_liftM (applyStatus_ne_deserialize _ now _)
  · exact readsOn_pure _

/-- Appending a model does not fail to read. -/
theorem readsOn_appendModel (hs : s.Clear) (id model : String) :
    (appendModel id model).ReadsOn s := by
  refine (readsOn_require hs id).bind_readsOnly (readsOnly_require id) fun j _ => ?_
  refine (readsOn_requireModule hs model .model).bind_readsOnly
    (readsOnly_requireModule model .model) fun m _ => ?_
  refine (readsOn_find? hs j.dataset).bind_readsOnly (readsOnly_find? _) fun dataset _ => ?_
  simp only
  split
  · refine (ConfigSpace.readsOn_build hs j.id _ _).bind fun _ _ _ => ?_
    exact (readsOn_modify _).bind fun _ _ _ => readsOn_pure _
  · exact readsOn_pure false

end Job

namespace Task

/-- Creating a task does not fail to read. -/
theorem readsOn_create (hs : s.Clear) (now : Millis) (caller : Caller) (new : NewTask) :
    (create now caller new).ReadsOn s := by
  refine (readsOn_find? hs new.job).bind_readsOnly (readsOnly_find? _) fun found _ => ?_
  split
  · exact readsOn_throw nofun
  · split
    · exact readsOn_throw nofun
    · split
      · exact readsOn_throw nofun
      · refine (readsOn_matching hs _).bind_readsOnly (readsOnly_matching _) fun siblings _ => ?_
        exact (readsOn_insertNew hs _).bind fun _ _ _ => readsOn_pure _

/-- A change of a task's stage is refused for other reasons than a text that cannot be read. -/
theorem applyStage_ne_deserialize (target : TaskStage) (now : Millis) (t : Task) (text : String) :
    t.applyStage target now ≠ .error (.deserialize text) := by
  unfold applyStage
  split
  · nofun
  · split
    · nofun
    · split <;> nofun

/-- So is a change of its status. -/
theorem applyStatus_ne_deserialize (target : TaskStatus) (now : Millis) (t : Task) (text : String) :
    t.applyStatus target now ≠ .error (.deserialize text) := by
  unfold applyStatus
  split
  · nofun
  · split <;> nofun

/-- So is an update as a whole. -/
theorem apply_ne_deserialize (now : Millis) (u : TaskUpdate) (t : Task) (text : String) :
    t.apply now u ≠ .error (.deserialize text) := by
  intro h
  rw [apply_eq] at h
  cases hstage : u.stage.elim (.ok (t.assign u)) ((t.assign u).applyStage · now) with
  | error e =>
    -- a refusal of the stage ends the update
    rw [hstage] at h
    cases h
    cases hu : u.stage with
    | none =>
      rw [hu] at hstage
      cases hstage
    | some stage =>
      rw [hu] at hstage
      exact applyStage_ne_deserialize stage now _ text hstage
  | ok t₁ =>
    rw [hstage] at h
    cases hu : u.status with
    | none =>
      rw [hu] at h
      cases h
    | some status =>
      rw [hu] at h
      exact applyStatus_ne_deserialize status now t₁ text h

/-- Changing a task does not fail to read. -/
theorem readsOn_change (hs : s.Clear) (now : Millis) (caller : Caller) (id : String)
    (u : TaskUpdate) : (change now caller id u).ReadsOn s := by
  refine readsOn_update hs fun t => ?_
  refine (readsOn_liftM (caller.authorize_ne_deserialize _ _ _)).bind fun _ _ _ => ?_
  exact readsOn_liftM (apply_ne_deserialize now u t)

end Task

/-- Releasing a collection does not fail to read. -/
theorem readsOn_releaseIn (hs : s.Clear) (c : Collection) (process : String) :
    (releaseIn c process).ReadsOn s := by
  cases c with
  | processes => exact readsOn_pure 0
  | jobs => exact readsOn_updateAll hs _ _
  | tasks => exact readsOn_updateAll hs _ _
  | datasets => exact readsOn_updateAll hs _ _
  | modules => exact readsOn_updateAll hs _ _

end

namespace Access

open Transaction

variable {now : Millis} {a : Access} {s : Store}

/-- On a clear store no access fails for a text that cannot be read, whatever it sets. -/
theorem readsOn (hs : s.Clear) (now : Millis) (a : Access) : (a.transaction now).ReadsOn s := by
  cases a with
  | putDataset d => exact (readsOn_modify _).map _
  | putModule m => exact (readsOn_modify _).map _
  | putProcess p => exact (readsOn_modify _).map _
  | createProcess id new =>
    refine ReadsOn.map (readsOn_nextClaim.bind fun claim s' hclaim => ?_) _
    -- drawing a claim number leaves the tasks as they were
    obtain ⟨-, rfl⟩ := nextClaim_eq_ok.1 hclaim
    have hdrawn : Store.Clear (Process.drawn s claim) :=
      hs.of_table (hs.wellFormed.of_table (Process.table_drawn s claim)) rfl
    exact (readsOn_insertNew hdrawn _).bind fun _ _ _ => readsOn_pure _
  | claimOrdinal id ordinal =>
    exact (readsOn_update hs fun _ => readsOn_nextClaim.bind fun _ _ _ => readsOn_pure _).map _
  | recordKeepalive id => exact (readsOn_update hs fun _ => readsOn_pure _).map _
  | setProcessStatus id status => exact (readsOn_update hs fun _ => readsOn_pure _).map _
  | terminateStale cutoff => exact (readsOn_updateFirst hs now _ _ _).map _
  | createJob id caller new => exact (Job.readsOn_create hs now id caller new).map _
  | updateJob caller id u => exact (Job.readsOn_change hs now caller id u).map _
  | leaseJob filters sort direction process => exact (readsOn_updateFirst hs now _ _ _).map _
  | releaseJob id process => exact (readsOn_release hs id process).map _
  | appendModel id model => exact (Job.readsOn_appendModel hs id model).map _
  | createTask caller new => exact (Task.readsOn_create hs now caller new).map _
  | updateTask caller id u => exact (Task.readsOn_change hs now caller id u).map _
  | leaseTask filters sort direction process => exact (readsOn_updateFirst hs now _ _ _).map _
  | releaseTask id process => exact (readsOn_release hs id process).map _
  | cascade job sources target => exact (readsOn_updateAll hs _ _).map _
  | releaseHeld c process => exact (readsOn_releaseIn hs c process).map _

/-- No answer in a clear store is a text that cannot be read. -/
theorem answer_ne_deserialize (hs : s.Clear) (now : Millis) (a : Access) (text : String) :
    a.answer now s ≠ .error (.deserialize text) := by
  intro h
  rw [answer] at h
  rcases commit_cases (a.transaction now) s with ⟨r, s', -, hcommit⟩ | ⟨e, herror, hcommit⟩
  · rw [hcommit] at h
    cases h
  · rw [hcommit] at h
    cases h
    exact readsOn hs now a text herror

/-! ## Tasks that cannot be read -/

/-- A task with a quality that is not finite is there for good. -/
theorem has_after_of_not_isFinite (hs : s.WellFormed) {t : Task} (ht : s.Has t) {x : Binary64}
    (hx : x ∈ t.qualities) (hinfinite : x.isFinite = false) (now : Millis) (a : Access) :
    (a.after now s).Has t := by
  -- a task with a quality that is not finite cannot be read
  have hlegible : ¬ s.Legible t.id := by
    intro h
    rw [h t ht rfl x hx] at hinfinite
    cases hinfinite
  refine after_induction (P := fun u => u.Has t) ht fun r s' h => ?_
  rcases tasks_of_ok hs h with ⟨j, n, new, -, hnone, rfl⟩ | hover
  · -- the new task has an id that no task had
    refine (Store.has_put_of_ne ?_).2 ht
    exact ht.key_ne hnone
  · rcases hover t.id with hsame | ⟨t₁, -, ht₁, -⟩
    · exact hsame.trans ht
    · -- to be written over, the task would have been read
      rw [Store.document?_of_not_legible hlegible] at ht₁
      cases ht₁

end Access

end Fleet
