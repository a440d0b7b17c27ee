import Fleet.Daemon
import Mathlib.Logic.Function.Iterate
import Mathlib.Logic.Relation

/-!
# Where a daemon may get to

While a daemon runs its loops take turns as it happens, at times as they come, and several
settlements may be under way along with a pass of the reaper. `Daemon.Turn` says what the next
transaction may be, and `Daemon.Completes` what a daemon has come through that ended without an
error: it registered its processes one after the other, took any number of turns until nothing was
under way any more, and then its processes left.

A daemon that is run on a schedule, and told to stop after some time, does one of these things
(`Daemon.completes_of_run`).
-/

set_option autoImplicit false

namespace Fleet

open Relation (ReflTransGen)

/-! ## Registrations -/

/-- One transaction of a registration, at some time and with some id. -/
def Registration.Moves (a : Applicant) (x y : Registration × Store) : Prop :=
  ∃ now id, y = x.1.step now a id x.2

namespace Daemon

/-- What a daemon registers a process of a kind as. -/
def applicant (d : Daemon) (resource : String) (kind : ProcessKind) : Applicant :=
  { kind, host := d.host, resource, processId := d.processId }

/-- Processes of some kinds register one after the other. -/
inductive Registers (d : Daemon) (resource : String) :
    List ProcessKind → Store → List Process → Store → Prop
  | nil (s : Store) : Registers d resource [] s [] s
  | cons {kind : ProcessKind} {kinds : List ProcessKind} {p : Process} {ps : List Process}
      {s s' s'' : Store} :
      ReflTransGen (Registration.Moves (d.applicant resource kind)) (.choosing, s)
        (.accepted p, s') →
      Registers d resource kinds s' ps s'' → Registers d resource (kind :: kinds) s (p :: ps) s''

/-! ## Turns -/

/-- What a daemon may be in the middle of. -/
inductive Duty where
  | pass (cutoff : Millis) (r : Reaping)
  | job (j : JobSettlement) (phase : JobSettlement.Phase)
  | task (t : TaskSettlement) (phase : TaskSettlement.Phase)

/-- The next transaction of a duty. -/
def Duty.step (now : Millis) : Duty × Store → Duty × Store
  | (.pass cutoff r, s) => (.pass cutoff (r.step now cutoff s).1, (r.step now cutoff s).2)
  | (.job j phase, s) => (.job j (j.step now s phase).1, (j.step now s phase).2)
  | (.task t phase, s) => (.task t (t.step now s phase).1, (t.step now s phase).2)

/-- What a daemon that hosts some processes may do next, where it is in the middle of some duties. -/
inductive Turn (t : Config.Timing) (hosted : List Process) :
    List Duty × Store → List Duty × Store → Prop
  /-- A process shows that it is alive. -/
  | alive (now : Millis) {p : Process} (hp : p ∈ hosted) (duties : List Duty) (s : Store) :
      Turn t hosted (duties, s) (duties, ((keepAlive now p.id).on s).2)
  /-- The reaper begins a pass. -/
  | look (now : Millis) (duties : List Duty) (s : Store) : Turn t hosted (duties, s)
      (duties ++ [.pass (staleBefore now t.keepaliveTimeout) (.seeking [])], s)
  /-- The controller leases a job. -/
  | leaseJob (now : Millis) {controller : Process} (hcontroller : hosted.head? = some controller)
      {status : JobStatus} (hstatus : status ∈ JobStatus.transitional) (duties : List Duty)
      (s : Store) :
      Turn t hosted (duties, s)
        (duties ++ (leaseJobForSettlement now controller.id status s).1.toList.map fun j =>
          .job j j.start,
          (leaseJobForSettlement now controller.id status s).2)
  /-- The controller leases a task. -/
  | leaseTask (now : Millis) {controller : Process} (hcontroller : hosted.head? = some controller)
      {status : TaskStatus} (hstatus : status ∈ TaskStatus.transitional) (duties : List Duty)
      (s : Store) :
      Turn t hosted (duties, s)
        (duties ++ (leaseTaskForSettlement now controller.id status s).1.toList.map fun t =>
          .task t t.start,
          (leaseTaskForSettlement now controller.id status s).2)
  /-- One of the duties goes on. -/
  | work (now : Millis) (before : List Duty) (duty : Duty) (after : List Duty) (s : Store) :
      Turn t hosted (before ++ duty :: after, s)
        (before ++ (Duty.step now (duty, s)).1 :: after, (Duty.step now (duty, s)).2)
  /-- One of the duties is over, or whoever was at it died. -/
  | cease (before : List Duty) (duty : Duty) (after : List Duty) (s : Store) :
      Turn t hosted (before ++ duty :: after, s) (before ++ after, s)

/-- Any number of turns. -/
abbrev Turns (t : Config.Timing) (hosted : List Process) :
    List Duty × Store → List Duty × Store → Prop := ReflTransGen (Turn t hosted)

/-! ## Leaving -/

/-- Processes leave one after the other, each at some time. -/
inductive Leaves : List Process → Store → Store → Prop
  | nil (s : Store) : Leaves [] s s
  | cons (now : Millis) {p : Process} {ps : List Process} {s s' : Store} :
      Leaves ps ((deregister now p.id).on s).2 s' → Leaves (p :: ps) s s'

/-- What a daemon with a configuration may have made of a store when it ends without an error, and the
processes that it hosted. -/
def Completes (d : Daemon) (c : Config) (s : Store) (hosted : List Process) (u : Store) : Prop :=
  ∃ (t : Config.Timing) (s₁ s₂ : Store), c.timing = .ok t ∧
    d.Registers c.resource d.kinds s hosted s₁ ∧ Turns t hosted ([], s₁) ([], s₂) ∧
      Leaves hosted s₂ u

end Daemon

/-! ## Runs on a schedule -/

namespace Registration

variable {a : Applicant} {w w' : World} {r r' : Registration} {p : Process}

/-- A registration that goes on in a world makes a move, or fails for want of an id. -/
theorem advance_cases (h : r.advance a w = (r', w')) :
    Moves a (r, w.store) (r', w'.store) ∨ ∃ e, r' = .failed e := by
  unfold advance at h
  simp only at h
  split at h
  case h_1 ordinal =>
    unfold World.newId at h
    -- a draw that fails ends the registration
    cases hdraw : w.drawFailure with
    | some text =>
      simp only [hdraw] at h
      cases h
      exact .inr ⟨_, rfl⟩
    | none =>
      simp only [hdraw] at h
      cases h
      exact .inl ⟨_, _, rfl⟩
  case h_2 =>
    cases h
    exact .inl ⟨_, _, rfl⟩

/-- A registration that is accepted got there by moves. -/
theorem moves_of_finish {fuel : Nat} (h : finish a fuel w r = (.ok (some p), w')) :
    ReflTransGen (Moves a) (r, w.store) (.accepted p, w'.store) := by
  induction fuel generalizing w r with
  | zero =>
    -- only a registration that was accepted answers with a process
    cases r <;> cases h
    exact .refl
  | succ fuel ih =>
    have hgo : finish a fuel (r.advance a w).2 (r.advance a w).1 = (.ok (some p), w') →
        ReflTransGen (Moves a) (r, w.store) (.accepted p, w'.store) := by
      cases hadvance : r.advance a w with
      | mk r' w₁ =>
        intro hrest
        rcases advance_cases hadvance with hmoves | ⟨e, rfl⟩
        · exact .head hmoves (ih hrest)
        · rw [finish] at hrest
          cases hrest
    cases r with
    | accepted q => cases h; exact .refl
    | failed e => cases h
    | choosing | creating | checking | claiming => exact hgo h

end Registration

namespace Daemon

variable {t : Config.Timing} {hosted : List Process} {s : Store}

/-- The processes of a daemon register one after the other. -/
theorem registers_of_registerAll {d : Daemon} {resource : String} {kinds : List ProcessKind}
    {w w' : World} (h : d.registerAll resource kinds w = (.ok (some hosted), w')) :
    d.Registers resource kinds w.store hosted w'.store := by
  induction kinds generalizing w hosted with
  | nil =>
    cases h
    exact .nil _
  | cons kind kinds ih =>
    rw [registerAll] at h
    split at h
    case h_1 => cases h
    case h_2 => cases h
    -- the first is accepted, and the others register behind it
    case h_3 p w₁ hp =>
      split at h
      case h_1 found w₂ hps =>
        obtain ⟨hfound, rfl⟩ := Prod.ext_iff.1 h
        obtain ⟨ps, rfl, rfl⟩ := Option.map_eq_some_iff.1 (Except.ok.inj hfound)
        exact .cons (Registration.moves_of_finish hp) (ih hps)
      case h_2 => cases h

/-! ### Duties that are done at once -/

/-- A duty may be worked off step by step, in front of the others. -/
theorem turns_work_iterate (now : Millis) (count : Nat) (duty : Duty) (rest : List Duty)
    (s : Store) :
    Turns t hosted (duty :: rest, s)
      (((Duty.step now)^[count] (duty, s)).1 :: rest, ((Duty.step now)^[count] (duty, s)).2) := by
  induction count generalizing duty s with
  | zero => exact .refl
  | succ count ih =>
    rw [Function.iterate_succ_apply]
    exact .head (.work now [] duty rest s) (ih _ _)

/-- The steps of a settlement of a job are those of its duty. -/
theorem iterate_job (now : Millis) (j : JobSettlement) (count : Nat) (phase : JobSettlement.Phase)
    (s : Store) : (Duty.step now)^[count] (.job j phase, s) =
      (.job j (j.advance now count (phase, s)).1, (j.advance now count (phase, s)).2) := by
  induction count generalizing phase s with
  | zero => rfl
  | succ count ih =>
    rw [Function.iterate_succ_apply, Duty.step, ih]
    rfl

/-- So are those of a task. -/
theorem iterate_task (now : Millis) (x : TaskSettlement) (count : Nat)
    (phase : TaskSettlement.Phase) (s : Store) : (Duty.step now)^[count] (.task x phase, s) =
      (.task x (x.advance now count (phase, s)).1, (x.advance now count (phase, s)).2) := by
  induction count generalizing phase s with
  | zero => rfl
  | succ count ih =>
    rw [Function.iterate_succ_apply, Duty.step, ih]
    rfl

/-- A pass goes on to its end. -/
theorem turns_finish (now cutoff : Millis) (fuel : Nat) (r : Reaping) (rest : List Duty)
    (s : Store) :
    Turns t hosted (.pass cutoff r :: rest, s) (rest, (Reaping.finish now cutoff fuel s r).2) := by
  induction fuel generalizing r s with
  | zero => cases r <;> exact .single (.cease [] _ rest s)
  | succ fuel ih =>
    cases r with
    | finished result => exact .single (.cease [] _ rest s)
    | seeking reaped => exact .head (.work now [] _ rest s) (ih _ _)
    | releasing reaped p c others => exact .head (.work now [] _ rest s) (ih _ _)

/-- Settlements go on to their ends, one after the other. -/
theorem turns_settle_jobs (now : Millis) (js : List JobSettlement) (s : Store) :
    Turns t hosted (js.map fun j => .job j j.start, s)
      ([], js.foldl (fun s j => j.settle now s) s) := by
  induction js generalizing s with
  | nil => exact .refl
  | cons j js ih =>
    have hwork : Turns t hosted _ _ :=
      turns_work_iterate now 3 (.job j j.start) (js.map fun j => .job j j.start) s
    rw [iterate_job] at hwork
    exact (hwork.tail (.cease [] _ _ _)).trans (ih _)

/-- All leased tasks are settled in turn. -/
theorem turns_settle_tasks (now : Millis) (xs : List TaskSettlement) (s : Store) :
    Turns t hosted (xs.map fun x => .task x x.start, s)
      ([], xs.foldl (fun s x => x.settle now s) s) := by
  induction xs generalizing s with
  | nil => exact .refl
  | cons x xs ih =>
    have hwork : Turns t hosted _ _ :=
      turns_work_iterate now 2 (.task x x.start) (xs.map fun x => .task x x.start) s
    rw [iterate_task] at hwork
    exact (hwork.tail (.cease [] _ _ _)).trans (ih _)

section

variable {controller : Process}

/-- A poll leases a job for each transitional status, in turn. -/
theorem turns_lease_jobs (hcontroller : hosted.head? = some controller) (now : Millis)
    {statuses : List JobStatus} (hstatuses : statuses ⊆ JobStatus.transitional) (duties : List Duty)
    (s : Store) : Turns t hosted (duties, s)
      (duties ++ (leaseTransitionalJobs now controller.id statuses s).1.map fun j => .job j j.start,
        (leaseTransitionalJobs now controller.id statuses s).2) := by
  induction statuses generalizing duties s with
  | nil =>
    rw [leaseTransitionalJobs, List.map_nil, List.append_nil]
  | cons status statuses ih =>
    obtain ⟨hstatus, hrest⟩ := List.cons_subset.1 hstatuses
    refine .head (.leaseJob now hcontroller hstatus duties s) ?_
    have hturns :=
      ih hrest (duties ++ (leaseJobForSettlement now controller.id status s).1.toList.map
      fun j => .job j j.start) (leaseJobForSettlement now controller.id status s).2
    rw [List.append_assoc, ← List.map_append] at hturns
    exact hturns

/-- So does a poll for tasks. -/
theorem turns_lease_tasks (hcontroller : hosted.head? = some controller) (now : Millis)
    {statuses : List TaskStatus} (hstatuses : statuses ⊆ TaskStatus.transitional)
    (duties : List Duty) (s : Store) : Turns t hosted (duties, s)
      (duties ++ (leaseTransitionalTasks now controller.id statuses s).1.map fun x =>
        .task x x.start,
        (leaseTransitionalTasks now controller.id statuses s).2) := by
  induction statuses generalizing duties s with
  | nil =>
    rw [leaseTransitionalTasks, List.map_nil, List.append_nil]
  | cons status statuses ih =>
    obtain ⟨hstatus, hrest⟩ := List.cons_subset.1 hstatuses
    refine .head (.leaseTask now hcontroller hstatus duties s) ?_
    have hturns :=
      ih hrest (duties ++ (leaseTaskForSettlement now controller.id status s).1.toList.map
      fun x => .task x x.start) (leaseTaskForSettlement now controller.id status s).2
    rw [List.append_assoc, ← List.map_append] at hturns
    exact hturns

/-! ### Activities -/

/-- What a loop of the daemon does when its period is over is a number of turns. -/
theorem turns_of_activity (hcontroller : hosted.head? = some controller) {l : Loop}
    (hl : l ∈ loops t hosted) (w : World) :
    Turns t hosted ([], w.store) ([], (l.activity.run w).2.store) := by
  rw [loops, hcontroller, Option.map_some, Option.getD_some, List.mem_append] at hl
  rcases hl with hl | hl
  · -- a loop that gives a sign of life
    obtain ⟨p, hp, rfl⟩ := List.mem_map.1 hl
    exact .single (.alive w.now hp [] w.store)
  · simp only [List.mem_cons, List.not_mem_nil, or_false] at hl
    rcases hl with rfl | rfl | rfl
    · -- the reaper
      exact .head (.look w.now [] w.store)
        (turns_finish w.now (staleBefore w.now t.keepaliveTimeout) (Reaping.enough w.store)
          (.seeking []) []
          w.store)
    · -- what is leased becomes a variable, or it would be computed for each of the statuses
      have hlease := turns_lease_jobs (t := t) hcontroller w.now (List.Subset.refl _) [] w.store
      rw [Activity.run, pollJobs]
      generalize leaseTransitionalJobs w.now controller.id JobStatus.transitional w.store =
        leased at hlease ⊢
      exact hlease.trans (turns_settle_jobs w.now _ _)
    · have hlease := turns_lease_tasks (t := t) hcontroller w.now (List.Subset.refl _) [] w.store
      rw [Activity.run, pollTasks]
      generalize leaseTransitionalTasks w.now controller.id TaskStatus.transitional w.store =
        leased at hlease ⊢
      exact hlease.trans (turns_settle_tasks w.now _ _)

/-- **Whatever the daemon does between registering and leaving is a sequence of turns.** -/
theorem turns_of_schedule (hcontroller : hosted.head? = some controller) (millis : Nat)
    (w : World) :
    Turns t hosted ([], w.store)
      ([], (Activity.runAll (schedule millis (loops t hosted)) [] w).2.store) := by
  rw [Activity.runAll_eq_inTurn _ _ _ fun a ha => absurd ha List.not_mem_nil]
  have hof : ∀ a ∈ schedule millis (loops t hosted), ∃ l ∈ loops t hosted, a = l.activity := by
    intro a ha
    obtain ⟨turn, hturn, rfl⟩ := List.mem_map.1 ha
    obtain ⟨l, hl, hturn⟩ := List.mem_flatMap.1 (List.mem_mergeSort.1 hturn)
    obtain ⟨k, -, rfl⟩ := List.mem_map.1 hturn
    exact ⟨l, hl, rfl⟩
  generalize schedule millis (loops t hosted) = activities at hof
  induction activities generalizing w with
  | nil => exact .refl
  | cons a rest ih =>
    obtain ⟨⟨l, hl, rfl⟩, hrest⟩ := List.forall_mem_cons.1 hof
    have hturns := turns_of_activity hcontroller hl w
    rw [Activity.inTurn]
    split
    case h_1 w' hrun =>
      rw [hrun] at hturns
      exact hturns.trans (ih w' hrest)
    case h_2 w' hrun =>
      -- nothing is done behind an activity that comes to no end
      rw [hrun] at hturns
      exact hturns

end

/-- Leaving is deregistering each of them. -/
theorem leaves_leave (hosted : List Process) (w : World) :
    Leaves hosted w.store (leave hosted w).store := by
  induction hosted generalizing w with
  | nil => exact .nil _
  | cons p ps ih => exact .cons w.now (ih (w.run (deregister w.now p.id)).2)

/-- **Runs complete.** A daemon that was run until it was told to stop, and ended without an error,
came through registrations, turns and leaving. -/
theorem completes_of_run {d : Daemon} {c : Config} {millis : Nat} {w w' : World}
    (h : d.run c millis w = (.ok (some ()), w')) :
    ∃ hosted, d.Completes c w.store hosted w'.store := by
  unfold run at h
  split at h
  case h_1 => cases h
  case h_2 t ht =>
    split at h
    case h_1 => cases h
    case h_2 => cases h
    case h_3 hosted w₁ hhosted =>
      have hregisters := registers_of_registerAll hhosted
      -- the controller registers first
      obtain ⟨controller, hcontroller⟩ : ∃ controller, hosted.head? = some controller := by
        cases hregisters
        exact ⟨_, rfl⟩
      have hturns := turns_of_schedule (t := t) hcontroller millis w₁
      split at h
      case h_1 w₂ hrun =>
        cases h
        rw [hrun] at hturns
        exact ⟨hosted, t, _, _, ht, hregisters, hturns, leaves_leave hosted w₂⟩
      case h_2 => cases h

end Daemon

end Fleet
