import Fleet.Proofs.Access.Overwriting
import Fleet.Proofs.Json.Numeral

/-!
# Tasks belong to jobs

A task is created for a job that is there, with the job's owner and with a number of the job in its
id. None of this ever changes: jobs stay under their ids and with their owners (`Store.KeepsJobs`),
and so do tasks with their jobs. So in every reachable store each task belongs to a job
(`Reachable.tasksBelong`), and the id alone says to which one (`taskId_inj`).

Tasks that cannot be read belong to jobs as well; this is why the statement is about the stored texts.
-/

set_option autoImplicit false

namespace Fleet

open Document (encode decode)
open Transaction (map_eq_ok)

/-! ## Ids -/

/-- A number that is written with leading zeros has no slash. -/
theorem slash_not_mem_padded (width n : Nat) : '/' ∉ Text.padded width n := by
  intro h
  rcases List.mem_append.1 h with h | h
  · cases List.eq_of_mem_replicate h
  · have hdigit := Text.isDigit_of_mem_decimal h
    revert hdigit
    decide

/-- What is before the last slash can be read off. -/
theorem eq_of_append_slash {as bs ds es : List Char} (hd : '/' ∉ ds) (he : '/' ∉ es)
    (h : as ++ '/' :: ds = bs ++ '/' :: es) : as = bs := by
  rcases List.append_eq_append_iff.1 h with ⟨cs, rfl, hcs⟩ | ⟨cs, rfl, hcs⟩
  · cases cs with
    | nil => rw [List.append_nil]
    | cons c cs =>
      obtain ⟨-, rfl⟩ := List.cons.inj hcs
      simp at hd
  · cases cs with
    | nil => rw [List.append_nil]
    | cons c cs =>
      obtain ⟨-, rfl⟩ := List.cons.inj hcs
      simp at he

/-- The id of a task is the id of its job, a slash, and its number with leading zeros. -/
theorem toList_taskId (job : String) (n : Nat) :
    (taskId job n).toList = job.toList ++ '/' :: Text.padded 10 n := by
  simp [taskId]

/-- An id of a task tells the job. -/
theorem taskId_inj {j j' : String} {n n' : Nat} (h : taskId j n = taskId j' n') : j = j' := by
  have htoList := congrArg String.toList h
  rw [toList_taskId, toList_taskId] at htoList
  exact String.toList_inj.1
    (eq_of_append_slash (slash_not_mem_padded 10 n) (slash_not_mem_padded 10 n') htoList)

namespace Store

variable {s s' s'' : Store}

/-! ## Jobs -/

/-- Every job is still there, under its id and for its owner. -/
def KeepsJobs (s s' : Store) : Prop :=
  ∀ j : Job, s.Has j → ∃ j' : Job, s'.Has j' ∧ j'.id = j.id ∧ j'.user = j.user

/-- Where no job is written all jobs stay. -/
theorem KeepsJobs.of_table (h : s'.table .jobs = s.table .jobs) : s.KeepsJobs s' := by
  intro j hj
  have htable : s'.table (Document.collection Job) = s.table (Document.collection Job) := h
  exact ⟨j, by rw [Has, htable]; exact hj, rfl, rfl⟩

/-! ## Tasks -/

/-- The task is one of a stored job: it has the owner of the job and an id of a task of the job. -/
def Belongs (s : Store) (t : Task) : Prop :=
  ∃ (j : Job) (n : Nat), s.Has j ∧ j.id = t.job ∧ j.user = t.user ∧ t.id = taskId j.id n

/-- A task goes on belonging to its job where all jobs stay. -/
theorem Belongs.of_keepsJobs {t : Task} (ht : s.Belongs t) (h : s.KeepsJobs s') : s'.Belongs t := by
  obtain ⟨j, n, hj, hjob, huser, hid⟩ := ht
  obtain ⟨j', hj', hid', huser'⟩ := h j hj
  exact ⟨j', n, hj', hid'.trans hjob, huser'.trans huser, hid' ▸ hid⟩

/-- Only the id, the job and the owner of a task matter. -/
theorem Belongs.congr {t t' : Task} (ht : s.Belongs t) (hid : t'.id = t.id) (hjob : t'.job = t.job)
    (huser : t'.user = t.user) : s.Belongs t' := by
  obtain ⟨j, n, hj, hjob', huser', hid'⟩ := ht
  exact ⟨j, n, hj, hjob'.trans hjob.symm, huser'.trans huser.symm, hid.trans hid'⟩

/-- Every text of a task was written for a task that belongs to a job. -/
def TasksBelong (s : Store) : Prop :=
  ∀ k text, (s.table .tasks).find? k = some text →
    ∃ t : Task, encode t = text ∧ t.id = k ∧ s.Belongs t

/-- A task that belongs to a job may be written. -/
theorem TasksBelong.put (hs : s.TasksBelong) {t : Task} (ht : s.Belongs t) :
    (s.put t).TasksBelong := by
  have hjobs : s.KeepsJobs (s.put t) := .of_table (table_put_of_ne s t (by decide))
  intro k text hfind
  rw [find?_put] at hfind
  split at hfind
  case isTrue hplace =>
    obtain ⟨-, rfl⟩ := hplace
    cases hfind
    exact ⟨t, rfl, rfl, ht.of_keepsJobs hjobs⟩
  case isFalse =>
    obtain ⟨u, htext, hid, hu⟩ := hs k text hfind
    exact ⟨u, htext, hid, hu.of_keepsJobs hjobs⟩

/-- What is read of a text may have other qualities, but it is the same task of the same job. -/
theorem TasksBelong.of_document? (hs : s.TasksBelong) {k : String} {t : Task}
    (h : s.document? k = .ok (some t)) : s.Belongs t := by
  obtain ⟨text, hfind, hdecode⟩ := document?_eq_ok_some.1 h
  obtain ⟨t₀, rfl, -, ht₀⟩ := hs k text hfind
  obtain ⟨_, _, _, _, rfl⟩ := Task.of_decode_encode hdecode
  exact ht₀.congr rfl rfl rfl

/-- A task of a job has the owner of the job. -/
theorem TasksBelong.user_eq (hs : s.TasksBelong) {k : String} {t : Task}
    (h : s.document? k = .ok (some t)) {j : Job} (hj : s.Has j) (hjob : t.job = j.id) :
    t.user = j.user := by
  obtain ⟨j', _, hj', hjob', huser', -⟩ := hs.of_document? h
  obtain rfl : j' = j := hj'.eq_of_key_eq hj (hjob'.trans hjob)
  exact huser'.symm

/-- Under an id of a job nothing but a task of the job is found. -/
theorem TasksBelong.job_eq (hs : s.TasksBelong) {job : String} {n : Nat} {t : Task}
    (h : s.document? (taskId job n) = .ok (some t)) : t.job = job := by
  obtain ⟨text, hfind, hdecode⟩ := document?_eq_ok_some.1 h
  obtain ⟨t₀, rfl, hid, j, n', -, hjob, -, hid'⟩ := hs _ text hfind
  obtain ⟨_, _, _, _, rfl⟩ := Task.of_decode_encode hdecode
  exact hjob.symm.trans (taskId_inj (hid'.symm.trans hid))

end Store

/-! ## Accesses -/

namespace Access

open Transaction Store

variable {now : Millis} {a : Access} {s s' : Store}

/-- Jobs are never deleted, and their owners never change. -/
theorem keepsJobs_of_ok (hs : s.WellFormed) {r : Reply} (h : a.transaction now s = .ok (r, s')) :
    s.KeepsJobs s' := by
  intro j hj
  obtain ⟨j', hj', hid, htends⟩ := exists_job_of_ok hs h hj
  exact ⟨j', hj', hid, htends.user⟩

/-- An access writes no task without its job, and takes no job away. -/
theorem tasksBelong_of_ok (hs : s.WellFormed) (htasks : s.TasksBelong) {r : Reply}
    (h : a.transaction now s = .ok (r, s')) : s'.TasksBelong := by
  rcases tasks_of_ok hs h with ⟨j, n, new, hj, -, rfl⟩ | hover
  · exact htasks.put ⟨j, n, hj, rfl, rfl, rfl⟩
  · intro k text hfind
    have hjobs := keepsJobs_of_ok hs h
    rcases hover k with hsame | ⟨t, t', ht, hretains, hid, htext⟩
    · obtain ⟨t, htext, hid, hbelongs⟩ := htasks k text (hsame.symm.trans hfind)
      exact ⟨t, htext, hid, hbelongs.of_keepsJobs hjobs⟩
    · cases htext.symm.trans hfind
      have hkey : t'.id = t.id := hid.trans (hs.key_eq_of_document? ht).symm
      have hbelongs := (htasks.of_document? ht).congr hkey hretains.job hretains.user
      exact ⟨t', rfl, hid, hbelongs.of_keepsJobs hjobs⟩

end Access

/-- In every store that operations lead to each task belongs to a job. -/
theorem Store.Reachable.tasksBelong {s : Store} (h : s.Reachable) : s.TasksBelong := by
  refine (Store.Leads.induction (P := fun u => u.WellFormed ∧ u.TasksBelong) h
    ⟨wellFormed_empty, nofun⟩ ?_).2
  rintro u now a ⟨hu, htasks⟩ -
  exact ⟨Access.wellFormed_after hu,
    Access.after_induction htasks fun _ _ hok => Access.tasksBelong_of_ok hu htasks hok⟩

end Fleet
