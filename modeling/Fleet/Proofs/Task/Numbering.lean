import Mathlib.Data.List.Perm.Subperm
import Fleet.Proofs.Access.Belonging
import Fleet.Proofs.Task.Life

/-!
# The numbers of tasks

The number of a new task is found by counting those that the job has already. Nothing else keeps two
tasks from getting one id: it is right because no task is ever deleted, renamed or given to another
job, and because ids of different jobs never coincide. So the tasks of a job are numbered from one
on without a gap (`Store.Numbered`), which every access keeps, and so are the copies that tasks have
of what their jobs are about (`Task.Copies`). A creation therefore never hits an id that is taken
(`tasks_are_numbered_densely`).

Tasks that cannot be read are counted here like all others, by their stored texts.
-/

set_option autoImplicit false

namespace Fleet

open Document (collection key encode decode)

/-! ## Ids -/

/-- Behind the last slash stands what has none. -/
theorem Task.afterLastSlash?_append (as : List Char) {ds : List Char} (hds : '/' ∉ ds) :
    afterLastSlash? (as ++ '/' :: ds) = some ds := by
  have hslash : (as ++ '/' :: ds).contains '/' = true := by simp
  have hall : ∀ c ∈ ds.reverse, (c != '/') = true := by
    intro c hc
    rw [bne_iff_ne]
    rintro rfl
    exact hds (List.mem_reverse.1 hc)
  rw [afterLastSlash?, if_pos hslash, List.reverse_append, List.reverse_cons, List.append_assoc,
    List.takeWhile_append_of_pos hall]
  simp

/-- The number can be read off the id. -/
theorem valueOf?_taskId (job : String) (n : Nat) :
    (Task.afterLastSlash? (taskId job n).toList).bind Text.valueOf? = some n := by
  rw [toList_taskId, Task.afterLastSlash?_append _ (slash_not_mem_padded 10 n), Option.bind_some,
    Text.valueOf?_padded]

/-- Tasks of one job with one id have one number. -/
theorem taskId_number_inj {job : String} {n m : Nat} (h : taskId job n = taskId job m) : n = m := by
  have hn := valueOf?_taskId job n
  rw [h, valueOf?_taskId] at hn
  exact (Option.some.inj hn).symm

/-- A number of sixty-four bits is the sequence number. -/
theorem Task.sequence?_eq {t : Task} {job : String} {n : Nat} (hid : t.id = taskId job n)
    (hn : n < 2 ^ 64) : t.sequence? = some n := by
  rw [sequence?, hid, toList_taskId, afterLastSlash?_append _ (slash_not_mem_padded 10 n),
    Option.bind_some]
  exact Text.natural?_padded (by omega) 10

/-! ## What tasks copy -/

/-- The task is one of the job, with the owner, the dataset and the objectives of the job. -/
structure Task.Copies (t : Task) (j : Job) : Prop where
  job : t.job = j.id
  user : t.user = j.user
  dataset : t.dataset = j.dataset
  objective : t.objective = j.objective
  altObjectives : t.altObjectives = j.altObjectives

namespace Task.Copies

variable {t t' : Task} {j j' : Job}

open Json in
/-- The copies can be read off the text of a task, even if the task cannot. -/
theorem of_encode_eq (ht : t.Copies j) (h : encode t' = encode t) : t'.Copies j where
  job := (undoes_text.eq_of_render (by simp) (by simp) "job" (by simp) (by simp) h).trans ht.job
  user := (undoes_text.eq_of_render (by simp) (by simp) "user" (by simp) (by simp) h).trans ht.user
  dataset :=
    (undoes_text.eq_of_render (by simp) (by simp) "dataset" (by simp) (by simp) h).trans ht.dataset
  objective :=
    (undoes_text.eq_of_render
      (by simp) (by simp) "objective" (by simp) (by simp) h).trans ht.objective
  altObjectives :=
    (undoes_texts.eq_of_render (by simp) (by simp) "alt-objectives" (by simp) (by simp) h).trans
      ht.altObjectives

/-- Whatever is done with a job leaves its tasks copies of it. -/
theorem of_jobStep {now : Millis} {s : Store} (ht : t.Copies j) (h : Access.JobStep now s j j') :
    t.Copies j' := by
  obtain ⟨hid, huser, hdataset, hobjective, haltObjectives⟩ := h.tended
  exact ⟨ht.job.trans hid.symm, ht.user.trans huser.symm, ht.dataset.trans hdataset.symm,
    ht.objective.trans hobjective.symm, ht.altObjectives.trans haltObjectives.symm⟩

/-- Whatever is done with a task leaves it a copy of its job. -/
theorem of_taskStep {now : Millis} {a : Access} (ht : t.Copies j) (h : Access.TaskStep now t a t') :
    t'.Copies j := by
  obtain ⟨-, hjob, huser, hdataset, hobjective, haltObjectives⟩ := h.tended
  exact ⟨hjob.trans ht.job, huser.trans ht.user, hdataset.trans ht.dataset,
    hobjective.trans ht.objective, haltObjectives.trans ht.altObjectives⟩

/-- A task that is read has other qualities at most than the one that was written. -/
theorem of_decode_encode (ht : t.Copies j) (h : decode (encode t) = .ok t') : t'.Copies j := by
  obtain ⟨_, _, _, _, rfl⟩ := Task.of_decode_encode h
  exact ⟨ht.job, ht.user, ht.dataset, ht.objective, ht.altObjectives⟩

end Task.Copies

/-! ## The tasks of a job -/

namespace Store

variable {s s' : Store} {job : String}

/-- The ids of the stored tasks of a job. -/
def taskIds (s : Store) (job : String) : List String :=
  (s.tasks.entries.filter fun e => Json.textMember? "job" e.2 == some job).map Prod.fst

/-- The ids of the tasks of a job are distinct. -/
theorem nodup_taskIds (s : Store) (job : String) : (s.taskIds job).Nodup :=
  s.tasks.nodup_keys.sublist (List.Sublist.map Prod.fst List.filter_sublist)

/-- The text of a task names its job. -/
theorem textMember?_job (t : Task) : Json.textMember? "job" (encode t) = some t.job :=
  Json.textMember?_render (by simp) (by simp [Json.ofText?, Json.ofOption])

/-- The ids of a job's tasks are those of the tasks in the store. -/
theorem WellFormed.mem_taskIds (hs : s.WellFormed) {k : String} :
    k ∈ s.taskIds job ↔ ∃ t : Task, s.Has t ∧ t.id = k ∧ t.job = job := by
  have hmem (text : String) : (k, text) ∈ s.tasks.entries ↔
      (s.table (collection Task)).find? k = some text := Dict.find?_eq_some_iff.symm
  simp only [taskIds, List.mem_map, List.mem_filter, beq_iff_eq, Prod.exists, exists_and_right,
    exists_eq_right]
  constructor
  · rintro ⟨text, hentry, hjob⟩
    obtain ⟨t, hid, rfl, ht⟩ := hs.exists_has ((hmem text).1 hentry)
    rw [textMember?_job, Option.some.injEq] at hjob
    exact ⟨t, ht, hid, hjob⟩
  · rintro ⟨t, ht, rfl, rfl⟩
    exact ⟨encode t, (hmem _).2 ht, textMember?_job t⟩

/-- The tasks of a job that can be read are all tasks of the job. -/
theorem WellFormed.perm_siblings (hs : s.WellFormed) {ts : List Task}
    (hts : s.documents Task = .ok ts) :
    ((ts.filter fun t => t.job == job).map key).Perm (s.taskIds job) := by
  have hnodup : ((ts.filter fun t => t.job == job).map key).Nodup :=
    (hs.nodup_map_key_documents hts).sublist (List.Sublist.map key List.filter_sublist)
  -- no id is there twice, so it is enough that the ids are the same
  refine (List.perm_ext_iff_of_nodup hnodup (s.nodup_taskIds job)).2 fun k => ?_
  rw [hs.mem_taskIds, List.mem_map]
  constructor
  · rintro ⟨t, ht, rfl⟩
    obtain ⟨ht, hjob⟩ := List.mem_filter.1 ht
    obtain ⟨k, hk⟩ := (Store.mem_documents hts).1 ht
    obtain ⟨text, hfind, hdecode⟩ := Store.document?_eq_ok_some.1 hk
    obtain ⟨t₀, rfl, rfl, ht₀⟩ := hs.exists_has (D := Task) hfind
    obtain ⟨_, _, _, _, rfl⟩ := Task.of_decode_encode hdecode
    exact ⟨t₀, ht₀, rfl, beq_iff_eq.1 hjob⟩
  · rintro ⟨t₀, ht₀, rfl, rfl⟩
    -- all texts could be read, so this one could
    obtain ⟨t, hdecode⟩ := exists_decode_of_documents hts ht₀
    have hmem : t ∈ ts :=
      (Store.mem_documents hts).2 ⟨_, Store.document?_eq_ok_some.2 ⟨_, ht₀, hdecode⟩⟩
    obtain ⟨_, _, _, _, rfl⟩ := Task.of_decode_encode hdecode
    exact ⟨_, List.mem_filter.2 ⟨hmem, beq_self_eq_true _⟩, rfl⟩

/-- A creation counts the tasks of the job. -/
theorem WellFormed.length_siblings (hs : s.WellFormed) {ts : List Task}
    (hts : s.documents Task = .ok ts) :
    (ts.filter fun t => t.job == job).length = (s.taskIds job).length := by
  rw [← (hs.perm_siblings hts).length_eq, List.length_map]

/-- A task is there under the id. -/
def HasTaskAt (s : Store) (k : String) : Prop := s.tasks.find? k ≠ none

/-- A task lies under an id exactly if a task has the id. -/
theorem WellFormed.hasTaskAt_iff (hs : s.WellFormed) {k : String} :
    s.HasTaskAt k ↔ ∃ t : Task, s.Has t ∧ t.id = k := by
  constructor
  · intro h
    obtain ⟨text, htext⟩ := Option.ne_none_iff_exists'.1 h
    have hfind : (s.table (collection Task)).find? k = some text := htext
    obtain ⟨t, hid, -, ht⟩ := hs.exists_has hfind
    exact ⟨t, ht, hid⟩
  · rintro ⟨t, ht, rfl⟩ hnone
    cases hnone.symm.trans ht

/-- The task copies a stored job, and it has a number of the job. So have other tasks, down to the
first one. -/
def Numbers (s : Store) (t : Task) : Prop :=
  ∃ (j : Job) (n : Nat), s.Has j ∧ t.Copies j ∧ t.id = taskId j.id (n + 1) ∧
    ∀ m < n, s.HasTaskAt (taskId j.id (m + 1))

/-- The tasks of all jobs are copies of their jobs and numbered from one on. -/
def Numbered (s : Store) : Prop := ∀ t : Task, s.Has t → s.Numbers t

/-- Whether a task is numbered depends on what is written of it. -/
theorem Numbers.of_encode_eq {t t' : Task} (ht : s.Numbers t) (hid : t'.id = t.id)
    (h : encode t' = encode t) : s.Numbers t' := by
  obtain ⟨j, n, hj, hcopies, ht, hbelow⟩ := ht
  exact ⟨j, n, hj, hcopies.of_encode_eq h, hid.trans ht, hbelow⟩

/-- What starts at one and has no gap is counted by its length. -/
theorem perm_range_of_initial {ids : List String} (hnodup : ids.Nodup)
    (hids : ∀ k ∈ ids, ∃ n, k = taskId job (n + 1) ∧ ∀ m < n, taskId job (m + 1) ∈ ids) :
    ids.Perm ((List.range ids.length).map fun i => taskId job (i + 1)) := by
  have hnumbers (n : Nat) : ((List.range n).map fun i => taskId job (i + 1)).Nodup :=
    List.nodup_range.map fun i i' h => Nat.succ.inj (taskId_number_inj h)
  refine (hnodup.subperm ?_).perm_of_length_le (by simp)
  intro k hk
  obtain ⟨n, rfl, hbelow⟩ := hids k hk
  -- the numbers up to this one are all among the ids, so there are not more of them than ids
  have hsubset : ((List.range (n + 1)).map fun i => taskId job (i + 1)) ⊆ ids := by
    intro k hk'
    obtain ⟨m, hm, rfl⟩ := List.mem_map.1 hk'
    rcases Nat.lt_succ_iff_lt_or_eq.1 (List.mem_range.1 hm) with hlt | rfl
    · exact hbelow m hlt
    · exact hk
  have hle := ((hnumbers (n + 1)).subperm hsubset).length_le
  rw [List.length_map, List.length_range] at hle
  exact List.mem_map.2 ⟨n, List.mem_range.2 hle, rfl⟩

/-- The tasks of a job have the numbers from one up to how many they are. -/
theorem Numbered.perm_taskIds (h : s.Numbered) (hs : s.WellFormed) (job : String) :
    (s.taskIds job).Perm ((List.range (s.taskIds job).length).map fun i => taskId job (i + 1)) := by
  refine perm_range_of_initial (s.nodup_taskIds job) fun k hk => ?_
  obtain ⟨t, ht, rfl, rfl⟩ := hs.mem_taskIds.1 hk
  obtain ⟨j, n, -, hcopies, hid, hbelow⟩ := h t ht
  rw [← hcopies.job] at hid hbelow
  refine ⟨n, hid, fun m hm => ?_⟩
  -- what is under the id of a number of the job is a task of the job
  obtain ⟨u, hu, hid'⟩ := hs.hasTaskAt_iff.1 (hbelow m hm)
  obtain ⟨i, _, -, hcopies', hnumber, -⟩ := h u hu
  exact hs.mem_taskIds.2 ⟨u, hu, hid', hcopies'.job.trans (taskId_inj (hnumber.symm.trans hid'))⟩

/-- The next number of a job is free. -/
theorem Numbered.find?_next (h : s.Numbered) (hs : s.WellFormed) (job : String) :
    s.tasks.find? (taskId job ((s.taskIds job).length + 1)) = none := by
  by_contra hsome
  obtain ⟨t, ht, hid⟩ := hs.hasTaskAt_iff.1 hsome
  obtain ⟨j, _, -, hcopies, hid', -⟩ := h t ht
  have hjob : t.job = job := hcopies.job.trans (taskId_inj (hid'.symm.trans hid))
  -- the task would be one of the job, and its number too large
  have hmem := (h.perm_taskIds hs job).mem_iff.1 (hs.mem_taskIds.2 ⟨t, ht, hid, hjob⟩)
  obtain ⟨i, hi, heq⟩ := List.mem_map.1 hmem
  have hlt := List.mem_range.1 hi
  have := taskId_number_inj heq
  omega

end Store

/-! ## Accesses -/

namespace Access

open Store

variable {now : Millis} {a : Access} {s s' : Store} {t : Task}

/-- No task is ever deleted. -/
theorem hasTaskAt_of_ok (hs : s.WellFormed) {r : Reply} (h : a.transaction now s = .ok (r, s'))
    {k : String} (hk : s.HasTaskAt k) : s'.HasTaskAt k := by
  rcases task_steps_of_ok hs h with ⟨j, ts, n, new, -, -, -, -, rfl⟩ | hover
  · show ((s.put (Task.initial now j n new)).table .tasks).find? k ≠ none
    rw [find?_put]
    split
    case isTrue => exact Option.some_ne_none _
    case isFalse => exact hk
  · show (s'.table .tasks).find? k ≠ none
    rcases hover k with hsame | ⟨_, _, -, -, -, hfind⟩
    · exact fun hnone => hk (hsame.symm.trans hnone)
    · exact fun hnone => Option.some_ne_none _ (hfind.symm.trans hnone)

/-- A job stays one that its tasks are copies of. -/
theorem exists_copied_of_ok (hs : s.WellFormed) {r : Reply} (h : a.transaction now s = .ok (r, s'))
    {j : Job} (hj : s.Has j) :
    ∃ j' : Job, s'.Has j' ∧ j'.id = j.id ∧ ∀ t : Task, t.Copies j → t.Copies j' := by
  rcases job_steps_of_ok hs h with ⟨id, caller, new, configSpace, -, hnone, rfl⟩ | hover
  · exact ⟨j, has_put_iff.2 (.inr ⟨hj.key_ne hnone, hj⟩), rfl, fun _ ht => ht⟩
  · rcases hover j.id with hsame | ⟨i, j', hi, hstep, hid, hfind⟩
    · exact ⟨j, hsame.trans hj, rfl, fun _ ht => ht⟩
    · obtain ⟨hhas, hkey⟩ := hs.document?_eq_ok_some.1 hi
      obtain rfl : i = j := hhas.eq_of_key_eq hj hkey
      refine ⟨j', ?_, hid, fun _ ht => ht.of_jobStep hstep⟩
      rw [Store.Has, show key j' = key i from hid]
      exact hfind

/-- A numbered task stays numbered. -/
theorem numbers_of_ok (hs : s.WellFormed) {r : Reply} (h : a.transaction now s = .ok (r, s'))
    (ht : s.Numbers t) : s'.Numbers t := by
  obtain ⟨j, n, hj, hcopies, hid, hbelow⟩ := ht
  obtain ⟨j', hj', hid', hcopied⟩ := exists_copied_of_ok hs h hj
  refine ⟨j', n, hj', hcopied t hcopies, hid' ▸ hid, fun m hm => ?_⟩
  rw [hid']
  exact hasTaskAt_of_ok hs h (hbelow m hm)

/-- A new task gets the next number, and the others keep theirs. -/
theorem numbered_of_ok (hs : s.WellFormed) (hnumbered : s.Numbered) {r : Reply}
    (h : a.transaction now s = .ok (r, s')) : s'.Numbered := by
  intro t ht
  rcases task_steps_of_ok hs h with ⟨j, ts, n, new, hj, hts, rfl, hnone, rfl⟩ | hover
  case inl =>
    have hnew :
        s.Numbers (Task.initial now j ((ts.filter fun t => t.job == j.id).length + 1) new) := by
      refine ⟨j, _, hj, ⟨rfl, rfl, rfl, rfl, rfl⟩, rfl, fun m hm => ?_⟩
      rw [hs.length_siblings hts] at hm
      -- a smaller number is one of those that were counted
      have hmem : taskId j.id (m + 1) ∈ s.taskIds j.id :=
        (hnumbered.perm_taskIds hs j.id).mem_iff.2 (List.mem_map.2 ⟨m, List.mem_range.2 hm, rfl⟩)
      obtain ⟨u, hu, hid, -⟩ := hs.mem_taskIds.1 hmem
      exact hs.hasTaskAt_iff.2 ⟨u, hu, hid⟩
    refine numbers_of_ok hs h ?_
    rw [Store.Has, find?_put] at ht
    split at ht
    case isTrue hplace => exact hnew.of_encode_eq hplace.2.symm (Option.some.inj ht).symm
    case isFalse => exact hnumbered t ht
  case inr =>
    refine numbers_of_ok hs h ?_
    rcases hover t.id with hsame | ⟨u, u', hu, hstep, hid, hfind⟩
    · exact hnumbered t (hsame.symm.trans ht)
    · -- the task that was read is the stored one but for its qualities
      obtain ⟨text, htext, hdecode⟩ := document?_eq_ok_some.1 hu
      obtain ⟨t₀, hid₀, rfl, ht₀⟩ := hs.exists_has (D := Task) htext
      obtain ⟨j, n, hj, hcopies, hnumber, hbelow⟩ := hnumbered t₀ ht₀
      have hcopies' := (hcopies.of_decode_encode hdecode).of_taskStep hstep
      exact ⟨j, n, hj, hcopies'.of_encode_eq (Option.some.inj (ht.symm.trans hfind)),
        hid₀.symm.trans hnumber, hbelow⟩

end Access

/-- The empty store is numbered. -/
theorem Store.numbered_empty : Numbered .empty := by
  intro t ht
  have hnone : (Store.empty.table .tasks).find? t.id = none := rfl
  exact absurd (hnone.symm.trans ht) (Option.some_ne_none _).symm

/-- In every store that operations lead to the tasks of all jobs are numbered. -/
theorem Store.Reachable.numbered {s : Store} (h : s.Reachable) : s.Numbered := by
  refine (Store.Leads.induction (P := fun u => u.WellFormed ∧ u.Numbered) h
    ⟨wellFormed_empty, numbered_empty⟩ ?_).2
  rintro u now a ⟨hu, hnumbered⟩ -
  exact ⟨Access.wellFormed_after hu,
    Access.after_induction hnumbered fun _ _ hok => Access.numbered_of_ok hu hnumbered hok⟩

/-! ## Creations -/

/-- A creation complains of a taken id only if the next id of the job is one. -/
theorem Task.create_ne_identifierTaken {s : Store} {now : Millis} {caller : Caller} {new : NewTask}
    (hfree : ∀ (j : Job) (ts : List Task), s.document? new.job = .ok (some j) →
      s.documents Task = .ok ts →
      s.tasks.find? (taskId j.id ((ts.filter fun t => t.job == j.id).length + 1)) = none)
    (text : String) : create now caller new s ≠ .error (.identifierTaken text) := by
  intro h
  rw [create, Transaction.bind_eq_error] at h
  rcases h with hfind | ⟨found, s₁, hfind, h⟩
  case inl =>
    obtain ⟨_, hmessage⟩ := Transaction.exists_of_find?_eq_error hfind
    cases hmessage
  obtain ⟨hfound, rfl⟩ := Transaction.find?_eq_ok.1 hfind
  -- whoever does not find the job, or finds one that takes no tasks, is told something else
  cases found with
  | none => cases h
  | some j =>
    by_cases hsee : caller.canSee j.user = true
    case neg =>
      simp only [Option.filter, hsee] at h
      cases h
    case pos =>
      simp only [Option.filter, hsee, if_true] at h
      split at h
      case isTrue => cases h
      case isFalse =>
        split at h
        case isTrue => cases h
        case isFalse =>
          rcases Transaction.bind_eq_error.1 h with hsiblings | ⟨siblings, s₂, hsiblings, h₁⟩
          · obtain ⟨_, hmessage⟩ := Transaction.exists_of_matching_eq_error hsiblings
            cases hmessage
          obtain ⟨ts, hts, rfl, rfl⟩ := Transaction.matching_eq_ok.1 hsiblings
          -- the last step is to put the task where nothing is
          let t := initial now j ((ts.filter fun t => t.job == j.id).length + 1) new
          have hinsert : Transaction.insertNew t s₂ = .ok ((), s₂.put t) :=
            Transaction.insertNew_eq_ok.2 ⟨hfree j ts hfound hts, rfl⟩
          rcases Transaction.bind_eq_error.1 h₁ with hinsert' | ⟨_, _, _, h₂⟩
          · cases hinsert.symm.trans hinsert'
          · cases h₂

namespace Workbench

/-- The store of the example is reachable. -/
theorem reachable_task : (store.put task).Reachable := by
  have hafter : (Access.createTask .root newTask).after 0 store = store.put task :=
    Access.after_eq_of_ok (Transaction.map_eq_ok.2 ⟨_, createTask_eq_ok, rfl⟩)
  rw [← hafter]
  exact reachable.after 0 _

/-- There is one task. -/
theorem documents_task : (store.put task).documents Task = .ok [task] := by
  have hdecode : decode (encode task) = .ok task := sound_task
  show [encode task].mapM decode = _
  rw [List.mapM_cons, hdecode]
  rfl

/-- So its job has one. -/
theorem length_taskIds : ((store.put task).taskIds newTask.job).length = 1 := by
  rw [← reachable_task.wellFormed.length_siblings documents_task]
  rfl

/-- The second task of the job. -/
def second : Task := .initial 7 job 2 newTask

/-- A second one can be created. -/
theorem createSecond_eq_ok : Task.create 7 .root newTask (store.put task) =
    .ok (second.refresh, (store.put task).put second) := by
  have hjob : (store.put task).document? "j" = .ok (some job) :=
    (Store.document?_eq_of_table (Store.table_put_of_ne _ _ (by decide)) "j").trans
      (Store.has_put_self catalog job).document?
  have hfree := reachable_task.numbered.find?_next reachable_task.wellFormed newTask.job
  rw [length_taskIds] at hfree
  exact Task.create_eq_ok.2
    ⟨job, [task], hjob, rfl, rfl, by decide, documents_task, hfree, rfl, rfl⟩

end Workbench

/-! ## The result -/

/-- **Tasks are numbered densely.** In every store that operations lead to, and they lead to no
other ones, the ids of the tasks of a job are those with the numbers from one up to how many tasks
the job has. Every task has a job, and has the owner, the dataset and the objectives of the job. So
a creation never hits an id that is taken: whoever creates a task gets the next number, and no other
document changes. -/
theorem tasks_are_numbered_densely {s : Store} (hs : s.Reachable) :
    (∀ (op : Operation) (w : World), w.store = s → (op.perform w).2.store.Reachable) ∧
    (∀ job : String, (s.taskIds job).Perm
      ((List.range (s.taskIds job).length).map fun i => taskId job (i + 1))) ∧
    (∀ t : Task, s.Has t → ∃ j : Job, s.Has j ∧ t.Copies j) ∧
    ∀ (now : Millis) (caller : Caller) (new : NewTask),
      (∀ text, Task.create now caller new s ≠ .error (.identifierTaken text)) ∧
      ∀ (r : Task) (s' : Store), Task.create now caller new s = .ok (r, s') →
        let n := (s.taskIds new.job).length
        r.id = taskId new.job (n + 1) ∧ (n + 1 < 2 ^ 64 → r.sequence? = some (n + 1)) ∧
        s.tasks.find? r.id = none ∧
        (∀ c k, ¬(c = .tasks ∧ k = r.id) → (s'.table c).find? k = (s.table c).find? k) ∧
        s'.ordinalClaims = s.ordinalClaims := by
  have hwell := hs.wellFormed
  have hnumbered := hs.numbered
  refine ⟨?_, hnumbered.perm_taskIds hwell, fun t ht => ?_, fun now caller new => ⟨?_, ?_⟩⟩
  · rintro op w rfl
    exact op.reachable_perform hs
  · obtain ⟨j, _, hj, hcopies, -, -⟩ := hnumbered t ht
    exact ⟨j, hj, hcopies⟩
  · refine Task.create_ne_identifierTaken fun j ts _ hts => ?_
    rw [hwell.length_siblings hts]
    exact hnumbered.find?_next hwell j.id
  · intro r s' hcreate
    obtain ⟨j, ts, hj, -, -, -, hts, hnone, rfl, rfl⟩ := Task.create_eq_ok.1 hcreate
    have hid : j.id = new.job := hwell.key_eq_of_document? hj
    rw [hwell.length_siblings hts] at hnone ⊢
    rw [← hid]
    refine ⟨rfl, fun hn => Task.sequence?_eq rfl hn, hnone, fun c k hne => ?_, rfl⟩
    rw [Store.find?_put, if_neg fun hplace => hne ⟨hplace.1.symm, hplace.2.symm⟩]

/-- Behind the first task of a job the second one gets the number two, and the first one is as it
was. -/
theorem tasks_are_numbered_densely_behind_first :
    (Workbench.store.put Workbench.task).taskIds "j" = [taskId "j" 1] ∧
    Task.create 7 .root Workbench.newTask (Workbench.store.put Workbench.task) =
      .ok (Workbench.second.refresh, (Workbench.store.put Workbench.task).put Workbench.second) ∧
    Workbench.second.refresh.id = taskId "j" 2 ∧ Workbench.second.refresh.sequence? = some 2 ∧
    ((Workbench.store.put Workbench.task).put Workbench.second).Has Workbench.task := by
  obtain ⟨-, hids, -, hcreate⟩ := tasks_are_numbered_densely Workbench.reachable_task
  have hlist := hids Workbench.newTask.job
  rw [Workbench.length_taskIds] at hlist
  obtain ⟨hid, hsequence, -, hkept, -⟩ :=
    (hcreate 7 .root Workbench.newTask).2 _ _ Workbench.createSecond_eq_ok
  rw [Workbench.length_taskIds] at hid hsequence
  -- the two numbers are different, so the first task is another document
  have hne : Workbench.task.id ≠ Workbench.second.refresh.id := by
    intro heq
    have := taskId_number_inj (heq.trans hid)
    omega
  have hfirst := hkept .tasks Workbench.task.id fun h => hne h.2
  exact ⟨List.perm_singleton.1 hlist, Workbench.createSecond_eq_ok, hid, hsequence (by decide),
    hfirst.trans (Store.has_put_self _ Workbench.task)⟩

end Fleet
