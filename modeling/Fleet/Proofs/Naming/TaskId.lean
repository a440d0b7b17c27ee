import Fleet.Proofs.Lease.InOrder
import Fleet.Proofs.Naming.Positional
import Fleet.Proofs.Task.Numbering

/-!
# Task ids tell the job and the number

The id of a task is the id of its job, a slash and the number. Whatever the job is called, the last
slash is the one in front of the number, since numbers have none; so both can be read off the id.
Numbers of up to ten digits have ten places, so ids of one job are compared as their numbers are,
and a listing by id shows the tasks of each job in the order of their numbers
(`task_ids_tell_job_and_number_in_order`).
-/

set_option autoImplicit false

namespace Fleet

open Document (refresh)
open Text (padded)

/-! ## Ids -/

/-- A task's id tells its job and its number. -/
theorem taskId_inj_iff {job job' : String} {m n : Nat} :
    taskId job m = taskId job' n ↔ job = job' ∧ m = n := by
  constructor
  · intro h
    obtain rfl := taskId_inj h
    exact ⟨rfl, taskId_number_inj h⟩
  · rintro ⟨rfl, rfl⟩
    rfl

/-- Ids of one job are compared by their numbers, as long as these have ten digits. -/
theorem taskId_lt_iff {job : String} {m n : Nat} (hm : m < 10 ^ 10) (hn : n < 10 ^ 10) :
    taskId job m < taskId job n ↔ m < n := by
  calc taskId job m < taskId job n
      ↔ List.Lex (· < ·) (job.toList ++ '/' :: padded 10 m) (job.toList ++ '/' :: padded 10 n) := by
        rw [← toList_taskId, ← toList_taskId]
        exact String.lt_iff
    _ ↔ List.Lex (· < ·) (padded 10 m) (padded 10 n) := by
        rw [lex_append_iff rfl, List.cons_lex_cons_iff]
        simp [List.lex_irrefl]
    _ ↔ m % 10 ^ 10 < n % 10 ^ 10 := by
        rw [Text.padded_eq_places hm, Text.padded_eq_places hn]
        exact Text.symbols_digitChar.lex_places_iff
    _ ↔ m < n := by rw [Nat.mod_eq_of_lt hm, Nat.mod_eq_of_lt hn]

/-- Below the width of the number ids are ordered as their numbers. -/
theorem compare_taskId {job : String} {m n : Nat} (hm : m < 10 ^ 10) (hn : n < 10 ^ 10) :
    compare (taskId job m) (taskId job n) = compare m n := by
  have hlt {m n : Nat} (hm : m < 10 ^ 10) (hn : n < 10 ^ 10) (h : m < n) :
      compare (taskId job m) (taskId job n) = .lt :=
    compareOfLessAndEq_eq_lt.2 ((taskId_lt_iff hm hn).2 h)
  rcases Nat.lt_trichotomy m n with h | rfl | h
  · rw [hlt hm hn h, Nat.compare_eq_lt.2 h]
  · rw [Std.ReflOrd.compare_self, Std.ReflOrd.compare_self]
  · rw [Std.OrientedOrd.eq_swap, hlt hn hm h, Nat.compare_eq_gt.2 h]
    rfl

/-- A number of eleven digits comes before most of those with ten. -/
example : taskId "a/b" 10000000000 < taskId "a/b" 9999999999 := by decide

/-! ## Listings -/

/-- The tasks of each job are in the order of their numbers, as far as these have ten digits. -/
def InSequence (ts : List Task) : Prop :=
  ts.Pairwise fun t u => ∀ (job : String) (m n : Nat), t.id = taskId job m → u.id = taskId job n →
    m < 10 ^ 10 → n < 10 ^ 10 → m ≤ n

/-- A list that is sorted by id is in sequence. -/
theorem inSequence_of_sorted {ts : List Task}
    (h : ts.Pairwise fun t u => (compareDocs (none : Option TaskSort) .ascending t u).isLE = true) :
    InSequence ts := by
  refine h.imp fun {t u} hle job m n ht hu hm hn => ?_
  have hids : (compare t.id u.id).isLE = true := hle
  rw [ht, hu, compare_taskId hm hn] at hids
  exact Nat.isLE_compare.1 hids

/-- Every page of a listing by id has the tasks of each job in the order of their numbers. -/
def ListsInSequence (s : Store) : Prop :=
  ∃ ts : List Task, s.documents Task = .ok ts ∧
    ∀ (now : Millis) (caller : Caller) (filters : List TaskFilter) (q : ListQuery TaskSort),
      q.sort = none → q.direction = .ascending → (∃ start, q.position = .ok start) → ∃ page,
        (Task.list now caller filters q).commit s = (.ok page, s) ∧ InSequence page.items ∧
        (q.limit = 0 → q.cursor = none →
          page.items.Perm ((ts.filter (Task.isListed caller filters)).map (refresh now)))

/-- Listings by id list the tasks of a job in sequence. -/
theorem listsInSequence {s : Store} (hs : s.Readable .tasks) : ListsInSequence s := by
  obtain ⟨ts, hts⟩ := hs.exists_documents (D := Task)
  refine ⟨ts, hts, fun now caller filters q hsort hdirection hstart => ?_⟩
  obtain ⟨ts', hts', hlist⟩ :=
    exists_listed (S := TaskSort) (D := Task) hs (Task.isListed caller filters)
  obtain rfl := Except.ok.inj (hts.symm.trans hts')
  obtain ⟨page, hpage, hsorted, hall⟩ := hlist now q hstart
  rw [hsort, hdirection] at hsorted
  exact ⟨page, hpage, inSequence_of_sorted hsorted, hall⟩

/-- The listing of a job's tasks by id counts them. -/
theorem list_ids_of_job {s : Store} (hs : s.Reachable) (hread : s.Readable .tasks) {job : String}
    (hcount : (s.taskIds job).length < 10 ^ 10) (now : Millis) :
    ∃ page, (Task.list now .root [.job job] {}).commit s = (.ok page, s) ∧
      page.items.map Task.id =
        (List.range (s.taskIds job).length).map fun i => taskId job (i + 1) := by
  obtain ⟨ts, hts, hlist⟩ := exists_listed (S := TaskSort) (D := Task) hread
    (Task.isListed .root [.job job])
  obtain ⟨page, hpage, hsorted, hall⟩ := hlist now {} ⟨none, rfl⟩
  have htest : Task.isListed .root [.job job] = fun t : Task => t.job == job := by
    funext t
    rw [Task.isListed, Task.passes, List.all_cons, List.all_nil, Bool.and_true]
    rfl
  have hids : (page.items.map Task.id).Perm
      ((List.range (s.taskIds job).length).map fun i => taskId job (i + 1)) := by
    have hitems := (hall rfl rfl).map Task.id
    rw [htest, List.map_map] at hitems
    exact (hitems.trans (hs.wellFormed.perm_siblings hts)).trans
      (hs.numbered.perm_taskIds hs.wellFormed job)
  have hlisted : (page.items.map Task.id).Pairwise fun k k' => (compare k k').isLE = true :=
    List.pairwise_map.2 hsorted
  have hcounted : ((List.range (s.taskIds job).length).map fun i => taskId job (i + 1)).Pairwise
      fun k k' => (compare k k').isLE = true := by
    refine List.pairwise_map.2 (List.pairwise_lt_range.imp_of_mem fun {i i'} hi hi' hlt => ?_)
    have hi := List.mem_range.1 hi
    have hi' := List.mem_range.1 hi'
    rw [compare_taskId (by omega) (by omega)]
    exact Nat.isLE_compare.2 (Nat.succ_le_succ (Nat.le_of_lt hlt))
  -- two sorted lists of the same ids are one
  exact ⟨page, hpage, hids.eq_of_pairwise (fun k k' _ _ hle hge =>
    Std.LawfulEqOrd.eq_of_compare (Std.OrientedCmp.isLE_antisymm hle hge)) hlisted hcounted⟩

/-! ## The result -/

namespace Workbench

theorem documents_second : ((store.put task).put second).documents Task = .ok [task, second] := by
  have hfirst : Document.decode (Document.encode task) = .ok task := sound_task
  have hsecond : Document.decode (Document.encode second) = .ok second :=
    Task.sound_iff.2 (by decide)
  show [Document.encode task, Document.encode second].mapM Document.decode = _
  rw [List.mapM_cons, hfirst, List.mapM_cons, hsecond]
  rfl

theorem reachable_second : ((store.put task).put second).Reachable := by
  have hafter : (Access.createTask .root newTask).after 7 (store.put task) =
      (store.put task).put second :=
    Access.after_eq_of_ok (Transaction.map_eq_ok.2 ⟨_, createSecond_eq_ok, rfl⟩)
  rw [← hafter]
  exact reachable_task.after 7 _

theorem readable_second : ((store.put task).put second).Readable .tasks :=
  (clear_task.put_task (by decide)).readable .tasks

theorem length_taskIds_second : (((store.put task).put second).taskIds "j").length = 2 := by
  rw [← reachable_second.wellFormed.length_siblings documents_second]
  rfl

end Workbench

/-- **Task ids tell the job and the number, in order.** Whatever a job is called, the number of a
task is read off its id, and no other job or number has the same id. Ids of one job are in the order
of the numbers, as long as these have ten digits. So in a listing by id the tasks of each job come
by their numbers on every page; and in a store that operations lead to, where the tasks of a job
have the numbers from one on, their listing counts them. -/
theorem task_ids_tell_job_and_number_in_order :
    (∀ (t : Task) (job : String) (n : UInt64), t.id = taskId job n.toNat →
      t.sequence? = some n.toNat) ∧
    (∀ (job job' : String) (m n : Nat), taskId job m = taskId job' n ↔ job = job' ∧ m = n) ∧
    (∀ (job : String) (m n : Nat), m < 10 ^ 10 → n < 10 ^ 10 →
      (taskId job m < taskId job n ↔ m < n)) ∧
    (∀ s : Store, s.Readable .tasks → ListsInSequence s) ∧
    ∀ s : Store, s.Reachable → s.Readable .tasks → ∀ (job : String) (now : Millis),
      (s.taskIds job).length < 10 ^ 10 → ∃ page,
        (Task.list now .root [.job job] {}).commit s = (.ok page, s) ∧
        page.items.map Task.id =
          (List.range (s.taskIds job).length).map fun i => taskId job (i + 1) :=
  ⟨fun _ _ n hid => Task.sequence?_eq hid n.toNat_lt, fun _ _ _ _ => taskId_inj_iff,
    fun _ _ _ hm hn => taskId_lt_iff hm hn, fun _ hs => listsInSequence hs,
    fun _ hs hread _ now hcount => list_ids_of_job hs hread hcount now⟩

/-- A job with slashes in its id may have the greatest number, and two tasks are listed one after the
other. -/
theorem task_ids_tell_job_and_number_in_order_at_workbench :
    { Workbench.task with id := taskId "/a//b/" 18446744073709551615 }.sequence? =
        some 18446744073709551615 ∧
      ((Workbench.store.put Workbench.task).put Workbench.second).Reachable ∧
      ((Workbench.store.put Workbench.task).put Workbench.second).Readable .tasks ∧
      (((Workbench.store.put Workbench.task).put Workbench.second).taskIds "j").length = 2 ∧
      (∃ page, (Task.list 9 .root [.job "j"] {}).commit
          ((Workbench.store.put Workbench.task).put Workbench.second) =
            (.ok page, (Workbench.store.put Workbench.task).put Workbench.second) ∧
        page.items.map Task.id = [taskId "j" 1, taskId "j" 2]) ∧
      taskId "j" 9 < taskId "j" 10 := by
  have hcount := Workbench.length_taskIds_second
  obtain ⟨hsequence, -, hlt, -, hlist⟩ := task_ids_tell_job_and_number_in_order
  obtain ⟨page, hpage, hids⟩ := hlist _ Workbench.reachable_second Workbench.readable_second "j" 9
    (hcount ▸ by decide)
  rw [hcount] at hids
  exact ⟨hsequence _ "/a//b/" 18446744073709551615 rfl, Workbench.reachable_second,
    Workbench.readable_second, hcount, ⟨page, hpage, hids⟩,
    (hlt "j" 9 10 (by decide) (by decide)).2 (by decide)⟩

end Fleet
