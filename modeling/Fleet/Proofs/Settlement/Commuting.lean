import Fleet.Proofs.Settlement.Crash
import Fleet.Proofs.Settlement.Poll

/-!
# Settlements side by side

A transaction of a settlement changes the job that the settlement is about, or the tasks of this
job. Transactions of settlements for different jobs therefore commute (`JobSettlement.step_comm`),
and so do settlements that run to their ends (`JobSettlement.finish_comm`). So what several
settlements have yet to do, done one behind the other, leads to the same store whichever of them
does its next transaction first (`JobSettlement.finishAll_of_interleaved`); and when nothing is left
to do, that is the store which has been reached (`settlements_are_independent`). So a poll may run
its settlements side by side (`JobPoll.eq_pollJobs`).
-/

set_option autoImplicit false

namespace Fleet

open Document (encode)
open Store

namespace JobSettlement

variable {s : Store} {x y : JobSettlement} {now : Millis}

/-! ## Transactions of two settlements -/

/-- Transactions that settle different jobs rewrite different jobs. -/
theorem onJob_comm (h : x.job ≠ y.job) (φ ψ : Phase) (j : Job) :
    y.onJob now ψ (x.onJob now φ j) = x.onJob now φ (y.onJob now ψ j) := by
  by_cases hx : j.id = x.job
  · have hy : j.id ≠ y.job := hx ▸ h
    have hy' : (x.onJob now φ j).id ≠ y.job := (id_onJob x now φ j).symm ▸ hy
    rw [onJob_of_ne hy', onJob_of_ne hy]
  · have hx' : (y.onJob now ψ j).id ≠ x.job := (id_onJob y now ψ j).symm ▸ hx
    rw [onJob_of_ne hx', onJob_of_ne hx]

/-- Their cascades rewrite different tasks. -/
theorem onTask_comm (h : x.job ≠ y.job) (φ ψ : Phase) (t : Task) :
    y.onTask ψ (x.onTask φ t) = x.onTask φ (y.onTask ψ t) := by
  by_cases hx : t.job = x.job
  · have hy : t.job ≠ y.job := hx ▸ h
    have hy' : (x.onTask φ t).job ≠ y.job := (job_onTask x φ t).symm ▸ hy
    rw [onTask_of_ne hy', onTask_of_ne hy]
  · have hx' : (y.onTask ψ t).job ≠ x.job := (job_onTask y ψ t).symm ▸ hx
    rw [onTask_of_ne hx', onTask_of_ne hx]

/-- Of the next transactions of settlements for different jobs either may come first. -/
theorem step_comm (hs : s.Regular) (h : x.job ≠ y.job) (φ ψ : Phase) :
    (y.step now (x.step now s φ).2 ψ).2 = (x.step now (y.step now s ψ).2 φ).2 := by
  obtain ⟨-, hx⟩ := rewrites_step hs x now φ
  obtain ⟨-, hxy⟩ := rewrites_step hx.regular y now ψ
  obtain ⟨-, hy⟩ := rewrites_step hs y now ψ
  obtain ⟨-, hyx⟩ := rewrites_step hy.regular x now φ
  have hboth := (hx.trans hxy).congr (fun _ j _ => onJob_comm h φ ψ j) fun _ t _ =>
    onTask_comm h φ ψ t
  exact hboth.unique hs (hy.trans hyx)

/-! ## Settlements that run to their ends -/

/-- One transaction of a settlement commutes with any number of those of another job's. -/
theorem step_advance_comm (hs : s.Regular) (h : x.job ≠ y.job) (count : Nat) (φ ψ : Phase) :
    (y.step now (x.advance now count (φ, s)).2 ψ).2 =
      (x.advance now count (φ, (y.step now s ψ).2)).2 := by
  induction count generalizing s φ with
  | zero => rfl
  | succ count ih =>
    obtain ⟨-, hx⟩ := rewrites_step hs x now φ
    obtain ⟨-, hy⟩ := rewrites_step hs y now ψ
    rw [advance_succ hs, advance_succ hy.regular, ih hx.regular, step_comm hs h]

/-- Any number of transactions of one settlement commutes with any number of those of another job's.
-/
theorem advance_comm (hs : s.Regular) (h : x.job ≠ y.job) (m n : Nat) (φ ψ : Phase) :
    (y.advance now n (ψ, (x.advance now m (φ, s)).2)).2 =
      (x.advance now m (φ, (y.advance now n (ψ, s)).2)).2 := by
  induction n generalizing s ψ with
  | zero => rfl
  | succ n ih =>
    have hx := rewrites_advance hs x now m φ
    obtain ⟨-, hy⟩ := rewrites_step hs y now ψ
    rw [advance_succ hx.regular, advance_succ hs, step_advance_comm hs h, ih hy.regular]

/-- Another transaction at the end. -/
theorem advance_succ_eq_step (x : JobSettlement) (now : Millis) (count : Nat)
    (place : Phase × Store) :
    x.advance now (count + 1) place =
      x.step now (x.advance now count place).2 (x.advance now count place).1 := by
  induction count generalizing place with
  | zero => rfl
  | succ count ih => exact ih (x.step now place.2 place.1)

/-- Runs a settlement from where it stands to its end. -/
def finish (now : Millis) (s : Store) (w : JobSettlement × Phase) : Store :=
  (w.1.advance now 3 (w.2, s)).2

/-- Finishing a settlement keeps a store regular. -/
theorem regular_finish (hs : s.Regular) (now : Millis) (w : JobSettlement × Phase) :
    (finish now s w).Regular :=
  (rewrites_advance hs w.1 now 3 w.2).regular

/-- Two settlements of different jobs can be finished in either order. -/
theorem finish_comm {w v : JobSettlement × Phase} (hs : s.Regular) (h : w.1.job ≠ v.1.job) :
    finish now (finish now s w) v = finish now (finish now s v) w :=
  advance_comm hs h 3 3 w.2 v.2

/-- The next transaction of a settlement is the first one of what it has yet to do. -/
theorem finish_step (now : Millis) (s : Store) (x : JobSettlement) (φ : Phase) :
    finish now (x.step now s φ).2 (x, (x.step now s φ).1) = finish now s (x, φ) := by
  have hend : x.advance now 3 (φ, s) = (.finished, finish now s (x, φ)) :=
    Prod.ext (advance_finished now x φ s) rfl
  have hmore : x.advance now 4 (φ, s) = (.finished, finish now s (x, φ)) := by
    rw [advance_succ_eq_step, hend]
    rfl
  show (x.advance now 4 (φ, s)).2 = _
  rw [hmore]

/-! ## Many settlements -/

/-- Runs settlements to their ends, one behind the other. -/
def finishAll (now : Millis) (s : Store) (ws : List (JobSettlement × Phase)) : Store :=
  ws.foldl (finish now) s

/-- Settlements for different jobs may run in any order. -/
theorem finishAll_perm {ws order : List (JobSettlement × Phase)} (h : ws.Perm order)
    (hdistinct : (ws.map fun w => w.1.job).Nodup) (hs : s.Regular) :
    finishAll now s ws = finishAll now s order := by
  induction h generalizing s with
  | nil => rfl
  | cons w _ ih =>
    rw [List.map_cons, List.nodup_cons] at hdistinct
    exact ih hdistinct.2 (regular_finish hs now w)
  | swap w v rest =>
    -- the two that are swapped settle different jobs
    have hne : v.1.job ≠ w.1.job := by
      rw [List.map_cons, List.map_cons, List.nodup_cons] at hdistinct
      exact fun heq => hdistinct.1 (heq ▸ List.mem_cons_self)
    show (finishAll now (finish now (finish now s v) w) rest) = _
    rw [finish_comm hs hne]
    rfl
  | trans h _ ih ih' =>
    rw [ih hdistinct hs, ih' ((h.map _).nodup_iff.1 hdistinct) hs]

/-- Whichever settlement does its next transaction, what they have yet to do leads to the same
store. -/
theorem finishAll_step {pre post : List (JobSettlement × Phase)} {φ : Phase} (hs : s.Regular)
    (hdistinct : ((pre ++ (x, φ) :: post).map fun w => w.1.job).Nodup) :
    finishAll now (x.step now s φ).2 (pre ++ (x, (x.step now s φ).1) :: post) =
      finishAll now s (pre ++ (x, φ) :: post) := by
  obtain ⟨-, hstep⟩ := rewrites_step hs x now φ
  have hdistinct' : ((pre ++ (x, (x.step now s φ).1) :: post).map fun w => w.1.job).Nodup := by
    simpa using hdistinct
  -- the settlement may as well be the first to run to its end
  rw [finishAll_perm List.perm_middle hdistinct' hstep.regular,
    finishAll_perm List.perm_middle hdistinct hs]
  show finishAll now (finish now _ _) _ = finishAll now (finish now _ _) _
  rw [finish_step]

/-- **The invariant of an interleaving**: what is left to do, done one settlement after the other,
leads from every point of the run to the same store. -/
theorem finishAll_of_interleaved {s' : Store} {ws₀ ws : List (JobSettlement × Phase)}
    (hs : s.Regular) (hdistinct : (ws₀.map fun w => w.1.job).Nodup)
    (h : Interleaved step (Eq now) ws₀ s ws s') :
    s'.Regular ∧ finishAll now s' ws = finishAll now s ws₀ := by
  induction h with
  | start => exact ⟨hs, rfl⟩
  | @next pre post x φ s₁ later h hnow ih =>
    obtain rfl := hnow
    obtain ⟨hs₁, hsame⟩ := ih
    obtain ⟨-, hstep⟩ := rewrites_step hs₁ x now φ
    -- the settlements settle the jobs they started with, whatever phase they are in
    have hdistinct₁ : ((pre ++ (x, φ) :: post).map fun w => w.1.job).Nodup := by
      have hjobs := congrArg (List.map job) h.map_fst
      rw [List.map_map, List.map_map] at hjobs
      exact hjobs.symm ▸ hdistinct
    exact ⟨hstep.regular, (finishAll_step hs₁ hdistinct₁).trans hsame⟩

/-- Where all are finished there is nothing left to do. -/
theorem finishAll_of_finished (now : Millis) (s : Store) {ws : List (JobSettlement × Phase)}
    (h : ∀ w ∈ ws, w.2 = .finished) : finishAll now s ws = s := by
  induction ws with
  | nil => rfl
  | cons w ws ih =>
    obtain ⟨x, φ⟩ := w
    obtain rfl : φ = .finished := h _ List.mem_cons_self
    exact ih fun w hw => h w (List.mem_cons_of_mem _ hw)

/-- An interleaving that finishes all of them ends where doing one after the other ends. -/
theorem finishAll_eq_of_interleaved {s' : Store} {ws ws' : List (JobSettlement × Phase)}
    (hs : s.Regular) (hdistinct : (ws.map fun w => w.1.job).Nodup)
    (hrun : Interleaved step (Eq now) ws s ws' s') (hfinished : ∀ w ∈ ws', w.2 = .finished) :
    finishAll now s ws = s' := by
  obtain ⟨-, hsame⟩ := finishAll_of_interleaved hs hdistinct hrun
  rw [← hsame, finishAll_of_finished now s' hfinished]

end JobSettlement

/-- Settlements that one poll runs side by side end as they do one behind the other. -/
theorem JobPoll.eq_pollJobs {s s' : Store} (hs : s.Regular) {now : Millis} {process : String}
    (h : JobPoll (Eq now) process s s') : s' = (pollJobs now process s).2 := by
  obtain ⟨_, ws, rfl, hfinished, hrun⟩ := h
  obtain ⟨picks, hpicks, hleased⟩ := hs.exists_leased_jobs now process JobStatus.transitional
  have hdistinct : (((leaseTransitionalJobs now process JobStatus.transitional s).1.map
      fun x => (x, x.start)).map fun w => w.1.job).Nodup := by
    rw [hpicks, List.map_map, List.map_map]
    exact hleased.nodup
  have hleasedStore := (hleased.maps.rewrites_jobs hs).regular
  rw [← JobSettlement.finishAll_eq_of_interleaved hleasedStore hdistinct hrun hfinished,
    JobSettlement.finishAll, List.foldl_map, pollJobs]
  rfl

/-! ## The result -/

/-- **Settlements of different jobs are independent.** In a faithful store with every document at
home, let settlements for different jobs be under way, wherever each of them stands. Whatever the
order in which their transactions come at one reading of the clock, they end in the store in which
they end when they run to their ends one behind the other, whoever comes first. -/
theorem settlements_are_independent {s s' : Store} (hs : s.Faithful) (hhome : s.Homed)
    {now : Millis} {ws ws' : List (JobSettlement × JobSettlement.Phase)}
    (hdistinct : (ws.map fun w => w.1.job).Nodup)
    (hrun : Interleaved JobSettlement.step (Eq now) ws s ws' s')
    (hfinished : ∀ w ∈ ws', w.2 = .finished) :
    ∀ order : List (JobSettlement × JobSettlement.Phase), order.Perm ws →
      order.foldl (JobSettlement.finish now) s = s' := by
  intro order horder
  replace hs := hs.regular hhome
  rw [← JobSettlement.finishAll_eq_of_interleaved hs hdistinct hrun hfinished]
  exact (JobSettlement.finishAll_perm horder.symm hdistinct hs).symm

/-! ## Two settlements in turns -/

namespace SideBySide

/-- A job that terminates, next to the one that pauses. -/
def job : Job := { Workbench.job with id := "k", status := .terminating, process := some "q" }

def store : Store := BrokenOff.store.put job

/-- The store of the example is regular. -/
theorem regular : store.Regular := BrokenOff.regular.put (LawfulDocument.decode_encode job)

def pausing : JobSettlement := ⟨"p", "j", .pausing⟩

def terminating : JobSettlement := ⟨"q", "k", .terminating⟩

/-- Each of the two does one transaction. -/
def turn (φ ψ : JobSettlement.Phase) (s : Store) : Store :=
  (terminating.step 5 (pausing.step 5 s φ).2 ψ).2

/-- What three turns lead to. -/
def reached : Store :=
  turn .releasing .releasing
    (turn (.changing .paused) (.changing .terminated)
      (turn (.cascading .paused) (.cascading .terminated) store))

/-- A turn of the example: a transaction of one settlement and then one of the other. -/
theorem turns {ws₀ : List (JobSettlement × JobSettlement.Phase)} {s₀ s : Store} (hs : s.Regular)
    {φ ψ : JobSettlement.Phase}
    (h : Interleaved JobSettlement.step (Eq 5) ws₀ s₀ [(pausing, φ), (terminating, ψ)] s) :
    (turn φ ψ s).Regular ∧
      Interleaved JobSettlement.step (Eq 5) ws₀ s₀ [(pausing, φ.next), (terminating, ψ.next)]
        (turn φ ψ s) := by
  obtain ⟨hφ, hfirst⟩ := JobSettlement.rewrites_step hs pausing 5 φ
  obtain ⟨hψ, hsecond⟩ := JobSettlement.rewrites_step hfirst.regular terminating 5 ψ
  have h₁ : Interleaved JobSettlement.step (Eq 5) ws₀ s₀
      ([] ++ [(pausing, (pausing.step 5 s φ).1), (terminating, ψ)]) (pausing.step 5 s φ).2 :=
    .next h rfl
  rw [hφ] at h₁
  have h₂ : Interleaved JobSettlement.step (Eq 5) ws₀ s₀
      ([(pausing, φ.next)] ++ [(terminating, (terminating.step 5 (pausing.step 5 s φ).2 ψ).1)])
      (turn φ ψ s) := .next h₁ rfl
  rw [hψ] at h₂
  exact ⟨hsecond.regular, h₂⟩

/-- Three such turns finish both. -/
theorem run : Interleaved JobSettlement.step (Eq 5)
    [(pausing, .cascading .paused), (terminating, .cascading .terminated)] store
    [(pausing, .finished), (terminating, .finished)] reached := by
  obtain ⟨hs₁, h₁⟩ := turns regular .start
  obtain ⟨hs₂, h₂⟩ := turns hs₁ h₁
  exact (turns hs₂ h₂).2

end SideBySide

/-- The one that terminates may as well come first. -/
theorem settlements_are_independent_in_turns :
    SideBySide.store.Faithful ∧ SideBySide.store.Homed ∧
      ([SideBySide.pausing, SideBySide.terminating].map JobSettlement.job).Nodup ∧
      [(SideBySide.terminating, JobSettlement.Phase.cascading .terminated),
        (SideBySide.pausing, JobSettlement.Phase.cascading .paused)].foldl
          (JobSettlement.finish 5) SideBySide.store = SideBySide.reached :=
  ⟨SideBySide.regular.faithful, SideBySide.regular.homed, by decide,
    settlements_are_independent SideBySide.regular.faithful SideBySide.regular.homed (by decide)
      SideBySide.run (by simp) _ (List.Perm.swap _ _ [])⟩

/-! ## Two tasks that strayed -/

namespace Strays

/-- Two tasks with one id, which are tasks of two jobs and lie under other keys. -/
def apart : Dict String :=
  (Dict.empty.insert "a" (encode (task "j" "m" .scheduled))).insert "b"
    (encode (task "k" "m" .scheduled))

/-- The task of one of the jobs has moved, and was written where its id says. -/
def met (job : String) : Dict String := apart.insert "j/0000000001" (encode (task job "m" .pausing))

/-- A cascade that moves one task writes it where its id says. -/
theorem tasks_cascade_of_moved {s : Store} {ts : List Task} (hts : s.documents Task = .ok ts)
    {job : String} (hmoved : ((ts.filter fun t => t.job == job &&
      [TaskStatus.scheduled, .running].contains t.status).map fun t =>
        { t with status := .pausing }) =
        [task job "m" .pausing]) :
    ((JobStatus.pausing.cascade job).commit s).2.table .tasks =
      (s.table .tasks).insert "j/0000000001" (encode (task job "m" .pausing)) := by
  rw [Task.cascade_pausing hts, hmoved]
  exact tasks_put s job "m" .pausing

/-- In a store with two stray tasks of one id the cascade of either job moves its task to the id,
over what lies there. -/
theorem tasks_cascade_apart {s : Store} {job : String} (hjob : job = "j" ∨ job = "k")
    (h : s.table .tasks = apart) :
    ((JobStatus.pausing.cascade job).commit s).2.table .tasks = met job := by
  have hts : s.documents Task = .ok [task "j" "m" .scheduled, task "k" "m" .scheduled] :=
    Store.documents_of_sound (by simp [sound_task]) (congrArg Dict.values h)
  rcases hjob with rfl | rfl
  · rw [tasks_cascade_of_moved hts rfl, h, met]
  · rw [tasks_cascade_of_moved hts rfl, h, met]

/-- The job whose task moves last has the place for it. -/
theorem tasks_cascade_met {s : Store} {job job' : String}
    (hjobs : job = "j" ∧ job' = "k" ∨ job = "k" ∧ job' = "j") (h : s.table .tasks = met job') :
    ((JobStatus.pausing.cascade job).commit s).2.table .tasks = met job := by
  have hts : s.documents Task =
      .ok [task "j" "m" .scheduled, task "k" "m" .scheduled, task job' "m" .pausing] :=
    Store.documents_of_sound (by simp [sound_task]) (congrArg Dict.values h)
  rcases hjobs with ⟨rfl, rfl⟩ | ⟨rfl, rfl⟩
  · rw [tasks_cascade_of_moved hts rfl, h, met, Dict.insert_insert, met]
  · rw [tasks_cascade_of_moved hts rfl, h, met, Dict.insert_insert, met]

/-- Whose task has the place is seen in the store. -/
theorem met_ne : met "j" ≠ met "k" := by
  intro h
  have hfind (job : String) : (met job).find? "j/0000000001" =
      some (encode (task job "m" .pausing)) := by
    rw [met, Dict.find?_insert, if_pos rfl]
  have htext : encode (task "j" "m" .pausing) = encode (task "k" "m" .pausing) :=
    Option.some.inj ((hfind _).symm.trans ((congrArg (Dict.find? · _) h).trans (hfind _)))
  have hjob : "j" = "k" := congrArg Task.job (task_eq_of_encode htext)
  exact absurd hjob (by decide)

end Strays

/-- Two settlements that have not begun, one behind the other. -/
theorem JobSettlement.foldl_finish_pair (now : Millis) (s : Store) (x y : JobSettlement) :
    [(x, x.start), (y, y.start)].foldl (finish now) s = y.settle now (x.settle now s) := rfl

namespace SideBySide

/-- Two jobs that pause, with their tasks. -/
def strayed : Store :=
  (((Store.empty.insert .tasks "a" (encode (Strays.task "j" "m" .scheduled))).insert
    .tasks "b" (encode (Strays.task "k" "m" .scheduled))).put
    BrokenOff.job).put { job with status := .pausing }

/-- Every text of the strayed store is one that the program writes. -/
theorem strayed_faithful : strayed.Faithful := by
  have htask (job : String) : Collection.tasks.Restores (encode (Strays.task job "m" .scheduled)) :=
    ⟨_, Strays.sound_task job "m" .scheduled, rfl⟩
  have hjob (j : Job) : Collection.jobs.Restores (encode j) :=
    ⟨j, LawfulDocument.decode_encode j, rfl⟩
  exact (((faithful_empty.insert (htask "j") "a").insert (htask "k") "b").insert (hjob _) _).insert
    (hjob _) _

/-- Its tasks are the two stray ones. -/
theorem tasks_strayed : strayed.table .tasks = Strays.apart := rfl

end SideBySide

/-- That no document has strayed is needed. Of two tasks with one id that lie under other keys, the
one whose job settles last is left where the id says. -/
theorem order_shows_where_tasks_strayed :
    SideBySide.strayed.Faithful ∧
      let x : JobSettlement := ⟨"p", "j", .pausing⟩
      let y : JobSettlement := ⟨"q", "k", .pausing⟩
      ([x, y].map JobSettlement.job).Nodup ∧
        [(x, x.start), (y, y.start)].foldl (JobSettlement.finish 5) SideBySide.strayed ≠
          [(y, y.start), (x, x.start)].foldl (JobSettlement.finish 5) SideBySide.strayed := by
  refine ⟨SideBySide.strayed_faithful, by decide, fun heq => Strays.met_ne ?_⟩
  -- each of the two writes its own task under the id first, and keeps it there in its turn
  have hfirst : (JobSettlement.settle 5 ⟨"p", "j", .pausing⟩ SideBySide.strayed).table .tasks =
      Strays.met "j" :=
    (JobSettlement.tasks_settle rfl 5 _).trans
      (Strays.tasks_cascade_apart (.inl rfl) SideBySide.tasks_strayed)
  have hsecond : (JobSettlement.settle 5 ⟨"q", "k", .pausing⟩ SideBySide.strayed).table .tasks =
      Strays.met "k" :=
    (JobSettlement.tasks_settle rfl 5 _).trans
      (Strays.tasks_cascade_apart (.inr rfl) SideBySide.tasks_strayed)
  have hforth : (JobSettlement.settle 5 ⟨"q", "k", .pausing⟩
      (JobSettlement.settle 5 ⟨"p", "j", .pausing⟩ SideBySide.strayed)).table .tasks =
        Strays.met "k" :=
    (JobSettlement.tasks_settle rfl 5 _).trans (Strays.tasks_cascade_met (.inr ⟨rfl, rfl⟩) hfirst)
  have hback : (JobSettlement.settle 5 ⟨"p", "j", .pausing⟩
      (JobSettlement.settle 5 ⟨"q", "k", .pausing⟩ SideBySide.strayed)).table .tasks =
        Strays.met "j" :=
    (JobSettlement.tasks_settle rfl 5 _).trans (Strays.tasks_cascade_met (.inl ⟨rfl, rfl⟩) hsecond)
  rw [JobSettlement.foldl_finish_pair, JobSettlement.foldl_finish_pair] at heq
  rw [heq] at hforth
  exact hback.symm.trans hforth

end Fleet
