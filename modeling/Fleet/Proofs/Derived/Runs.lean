import Fleet.Proofs.Access.Serving
import Fleet.Proofs.Derived.Tables
import Fleet.Proofs.Task.Life

/-!
# Derived fields are never a source of truth

What is stored in derived fields has no influence on anything: whatever is asked for in two worlds
that differ in such fields at most is answered the same, and the worlds behind it differ in such
fields at most again (`derived_fields_have_no_influence`). So it does no harm that some writes store
durations of an earlier time. That holds of all stores, also of those in which some texts cannot be
read.

All operations are transactions that are committed one after the other, and these are steady. What
is decided between two of them is decided on their answers, so both runs go the same way (`Tally`).
-/

set_option autoImplicit false

namespace Fleet

open Session

/-! ## Two runs -/

/-- Two runs have the same answer, and what is behind them is related. -/
structure Tally {α σ : Type} (R : σ → σ → Prop) (r r' : α × σ) : Prop where
  answer : r.1 = r'.1
  behind : R r.2 r'.2

namespace Tally

variable {α β σ : Type} {R : σ → σ → Prop} {r r' : α × σ}

/-- Two outcomes that tally have the same answer, and each its own state behind it. -/
theorem exists_eq (h : Tally R r r') : ∃ a x y, R x y ∧ r = (a, x) ∧ r' = (a, y) :=
  ⟨r.1, r.2, r'.2, h.behind, rfl, Prod.ext h.answer.symm rfl⟩

/-- What is made of the answers tallies if the answers do. -/
theorem map (h : Tally R r r') (f : α → β) : Tally R (f r.1, r.2) (f r'.1, r'.2) :=
  ⟨congrArg f h.answer, h.behind⟩

/-- If each step tallies, so do some of them one after the other. -/
theorem advance {step : σ → α → α × σ} {advance : Nat → α × σ → α × σ}
    (hzero : ∀ place, advance 0 place = place)
    (hsucc : ∀ count phase x, advance (count + 1) (phase, x) = advance count (step x phase))
    (hstep : ∀ phase x y, R x y → Tally R (step x phase) (step y phase)) (count : Nat)
    (h : Tally R r r') : Tally R (advance count r) (advance count r') := by
  induction count generalizing r r' with
  | zero =>
    rw [hzero, hzero]
    exact h
  | succ count ih =>
    obtain ⟨phase, x, y, hxy, rfl, rfl⟩ := h.exists_eq
    rw [hsucc, hsucc]
    exact ih (hstep phase x y hxy)

/-- If each look tallies, so do some of them one after the other. -/
theorem collect {look : β → σ → Option α × σ} (collect : List β → σ → List α × σ)
    (hnil : ∀ x, collect [] x = ([], x))
    (hcons : ∀ b bs x, collect (b :: bs) x =
      ((look b x).1.toList ++ (collect bs (look b x).2).1, (collect bs (look b x).2).2))
    (hlook : ∀ b x y, R x y → Tally R (look b x) (look b y)) (bs : List β) {x y : σ} (h : R x y) :
    Tally R (collect bs x) (collect bs y) := by
  induction bs generalizing x y with
  | nil =>
    rw [hnil, hnil]
    exact ⟨rfl, h⟩
  | cons b bs ih =>
    obtain ⟨found, x', y', h', hx, hy⟩ := (hlook b x y h).exists_eq
    rw [hcons, hcons, hx, hy]
    exact (ih h').map (found.toList ++ ·)

end Tally

variable {s t : Store}

/-- A transaction that fails leaves both stores as they were. -/
theorem Transaction.Steady.commit {α : Type} {tr : Transaction α} (htr : tr.Steady) (h : s.Akin t) :
    Tally Store.Akin (tr.commit s) (tr.commit t) := by
  have hends := htr h
  unfold Transaction.commit
  generalize tr s = r at hends ⊢
  generalize tr t = r' at hends ⊢
  cases hends with
  | error e => exact ⟨rfl, h⟩
  | ok hpq => exact ⟨congrArg Except.ok hpq.1, hpq.2⟩

/-! ## Sessions -/

namespace Session

variable {ε ε' α β : Type}

/-- On akin stores the session has the same outcome and leaves akin stores. -/
def Steady (p : Session ε α) : Prop :=
  ∀ ⦃s t : Store⦄, s.Akin t → Tally Store.Akin (p.on s) (p.on t)

/-- A session of one transaction. -/
theorem steady_transact {tr : Transaction α} (h : tr.Steady) : (transact tr).Steady :=
  fun _ _ hst => h.commit hst

theorem steady_pure (a : α) : (pure a : Session ε α).Steady := fun _ _ h => ⟨rfl, h⟩

theorem steady_throw (e : ε) : (throw e : Session ε α).Steady := fun _ _ h => ⟨rfl, h⟩

/-- The second session is the same in both runs, since the first one gives the same answer. -/
theorem Steady.bind {p : Session ε α} (hp : p.Steady) {f : α → Session ε β}
    (hf : ∀ a, (f a).Steady) :
    (p >>= f).Steady := by
  intro s t h
  have hon (s : Store) : (p >>= f).on s = ExceptT.bindCont f (p.on s).1 (p.on s).2 := rfl
  obtain ⟨outcome, s', t', h', hs, ht⟩ := (hp h).exists_eq
  rw [hon, hon, hs, ht]
  -- both runs go on, or both end here
  cases outcome with
  | error e => exact ⟨rfl, h'⟩
  | ok a => exact hf a h'

/-- An attempt tells of the failure in its answer. -/
theorem Steady.attempt {p : Session ε α} (hp : p.Steady) :
    (Session.attempt p : Session ε' (Except ε α)).Steady := fun _ _ h => (hp h).map Except.ok

/-- Errors are wrapped the same in both runs. -/
theorem Steady.inRegistry {p : Session StateError α} (hp : p.Steady) : p.inRegistry.Steady :=
  fun _ _ h => (hp h).map (Except.mapError RegistryError.state)

/-- A session for each element of a list. -/
theorem steady_foldlM {f : β → α → Session ε β} (hf : ∀ b a, (f b a).Steady) (as : List α) (b : β) :
    (as.foldlM f b).Steady := by
  induction as generalizing b with
  | nil => exact steady_pure b
  | cons a as ih =>
    rw [List.foldlM_cons]
    exact (hf b a).bind ih

end Session

/-! ## Composite work -/

section

variable (now : Millis)

/-- Which process is stale does not depend on any duration, so both runs terminate the same ones. -/
theorem steady_terminateAllStale (cutoff : Millis) : (terminateAllStale now cutoff).Steady := by
  have hupTo (fuel : Nat) : (terminateStaleUpTo now cutoff fuel).Steady := by
    induction fuel with
    | zero => exact steady_pure none
    | succ fuel ih =>
      rw [terminateStaleUpTo]
      refine (steady_transact (Process.steady_terminateStale now cutoff)).bind fun found => ?_
      cases found with
      | none => exact steady_pure (some [])
      | some p => exact ih.bind fun rest => steady_pure (rest.map (p :: ·))
  intro s t h
  have hlength : s.processes.entries.length = t.processes.entries.length :=
    (h.tables .processes).length_eq
  have hon (s : Store) : (terminateAllStale now cutoff).on s =
      (terminateStaleUpTo now cutoff (s.processes.entries.length + 1)).on s := rfl
  rw [hon, hon, hlength]
  exact hupTo _ h

/-- Giving back looks at holders and statuses only. -/
theorem steady_releaseAll (process : String) : (releaseAll process).Steady :=
  (steady_transact (Transaction.steady_releaseIn .datasets process)).bind fun _ =>
  (steady_transact (Transaction.steady_releaseIn .modules process)).bind fun _ =>
  (steady_transact (Transaction.steady_releaseIn .jobs process)).bind fun _ =>
  (steady_transact (Transaction.steady_releaseIn .tasks process)).bind fun _ => steady_pure _

/-- Whether the process is live does not depend on any duration. -/
theorem steady_keepAlive (id : String) : (keepAlive now id).Steady :=
  (steady_transact (Process.steady_keepalive now id)).inRegistry

/-- Giving back, and the end of the process behind it. -/
theorem steady_deregister (id : String) : (deregister now id).Steady :=
  ((steady_transact (Process.steady_setStatus now id .terminated)).bind fun _ =>
    steady_releaseAll id).inRegistry

namespace Job

/-- Which jobs a model is for depends on their statuses, datasets and models. -/
theorem steady_applicable (model : String) : (applicable now model).Steady := by
  refine (steady_transact (Transaction.steady_fetch now model)).bind fun m => ?_
  have hscans : Session.Steady (ε := StateError) do
      let datasets ← transact (Transaction.scan now (Dataset.fits m))
      let jobs ← transact (Transaction.scan now (wants model (datasets.map (·.id))))
      return jobs.map (·.id) :=
    (steady_transact (Transaction.steady_scan now fun _ => rfl)).bind fun _ =>
    (steady_transact (Transaction.steady_scan now fun _ => rfl)).bind fun _ => steady_pure _
  split
  case isTrue => exact (steady_throw _).bind fun _ => hscans
  case isFalse => exact hscans

/-- An append fails in both runs or in neither, with the same error on the report. -/
theorem steady_appendReporting (report : FanOut) (id : String) :
    (appendReporting report id).Steady := by
  refine (steady_transact (steady_appendModel id report.model)).attempt.bind fun outcome => ?_
  split
  · exact steady_pure _
  · exact steady_pure _
  · exact steady_pure _

/-- One append for each applicable job. -/
theorem steady_addModel (model : String) : (addModel now model).Steady :=
  (steady_applicable now model).bind fun ids => steady_foldlM steady_appendReporting ids _

/-- An append to each applicable job that is tried again. -/
theorem steady_fanOut (model : String) : (fanOut now model).Steady :=
  (steady_addModel now model).bind fun report =>
    steady_foldlM steady_appendReporting report.failed _

end Job

/-! ## Reaper passes -/

namespace Reaping

/-- A step of a pass of the reaper finds the same process, and goes on the same way. -/
theorem tally_step (cutoff : Millis) (r : Reaping) (h : s.Akin t) :
    Tally Store.Akin (r.step now cutoff s) (r.step now cutoff t) := by
  cases r with
  | seeking reaped =>
    obtain ⟨found, s', t', h', hs, ht⟩ :=
      ((Process.steady_terminateStale now cutoff).commit h).exists_eq
    rw [step, step, hs, ht]
    rcases found with _ | _ | p <;> exact ⟨rfl, h'⟩
  | releasing reaped p c others =>
    obtain ⟨released, s', t', h', hs, ht⟩ :=
      ((Transaction.steady_releaseIn c p.id).commit h).exists_eq
    rw [step, step, hs, ht]
    cases released with
    | error e => exact ⟨rfl, h'⟩
    | ok n => cases others <;> exact ⟨rfl, h'⟩
  | finished result => exact ⟨rfl, h⟩

/-- A pass that is allowed some steps is over in both runs or in neither. -/
theorem tally_finish (cutoff : Millis) (fuel : Nat) (r : Reaping) (h : s.Akin t) :
    Tally Store.Akin (finish now cutoff fuel s r) (finish now cutoff fuel t r) := by
  induction fuel generalizing s t r with
  | zero => cases r <;> exact ⟨rfl, h⟩
  | succ fuel ih =>
    obtain ⟨r', s', t', h', hs, ht⟩ := (tally_step now cutoff r h).exists_eq
    cases r with
    | finished result => exact ⟨rfl, h⟩
    | _ =>
      rw [finish, finish, hs, ht]
      · exact ih r' h'
      · nofun
      · nofun

end Reaping

/-- A pass that runs to its end terminates the same processes. -/
theorem steady_reapOnce (timeout : Duration) : (reapOnce now timeout).Steady := by
  intro s t h
  have henough : Reaping.enough s = Reaping.enough t := by
    have hlength : s.processes.entries.length = t.processes.entries.length :=
      (h.tables .processes).length_eq
    rw [Reaping.enough, Reaping.enough, hlength]
  have hfinish :=
    Reaping.tally_finish now (staleBefore now timeout) (Reaping.enough t) (.seeking []) h
  rw [reapOnce_on, reapOnce_on, henough]
  exact hfinish.map (Except.mapError RegistryError.state)

/-! ## Settlements -/

/-- Whether a transaction of a settlement goes through is decided by statuses and holders. -/
theorem JobSettlement.tally_step (j : JobSettlement) (phase : Phase) (h : s.Akin t) :
    Tally Store.Akin (j.step now s phase) (j.step now t phase) := by
  cases phase with
  | cascading target =>
    obtain ⟨moved, s', t', h', hs, ht⟩ := ((j.status.steady_cascade j.job).commit h).exists_eq
    rw [step, step, hs, ht]
    cases moved <;> exact ⟨rfl, h'⟩
  | changing target =>
    exact ⟨rfl, ((Job.steady_change now .root j.job { status := some target }).commit h).behind⟩
  | releasing => exact ⟨rfl, ((Transaction.steady_release j.job j.process).commit h).behind⟩
  | finished => exact ⟨rfl, h⟩

/-- A settlement that runs to its end. -/
theorem JobSettlement.akin_settle (j : JobSettlement) (h : s.Akin t) :
    (j.settle now s).Akin (j.settle now t) := by
  have hadvance : Tally Store.Akin (j.advance now 3 (j.start, s)) (j.advance now 3 (j.start, t)) :=
    .advance (fun _ => rfl) (fun _ _ _ => rfl) (fun phase _ _ h => j.tally_step now phase h) 3
      ⟨rfl, h⟩
  exact hadvance.behind

/-- A transaction of a settlement of a task. -/
theorem TaskSettlement.tally_step (j : TaskSettlement) (phase : Phase) (h : s.Akin t) :
    Tally Store.Akin (j.step now s phase) (j.step now t phase) := by
  cases phase with
  | changing target =>
    exact ⟨rfl, ((Task.steady_change now .root j.task { status := some target }).commit h).behind⟩
  | releasing => exact ⟨rfl, ((Transaction.steady_release j.task j.process).commit h).behind⟩
  | finished => exact ⟨rfl, h⟩

/-- A settlement of a task that runs to its end. -/
theorem TaskSettlement.akin_settle (j : TaskSettlement) (h : s.Akin t) :
    (j.settle now s).Akin (j.settle now t) := by
  have hadvance : Tally Store.Akin (j.advance now 2 (j.start, s)) (j.advance now 2 (j.start, t)) :=
    .advance (fun _ => rfl) (fun _ _ _ => rfl) (fun phase _ _ h => j.tally_step now phase h) 2
      ⟨rfl, h⟩
  exact hadvance.behind

/-- The job that is longest in existence is the same one in both runs. -/
theorem tally_leaseJobForSettlement (process : String) (status : JobStatus) (h : s.Akin t) :
    Tally Store.Akin (leaseJobForSettlement now process status s)
      (leaseJobForSettlement now process status t) := by
  obtain ⟨found, s', t', h', hs, ht⟩ := ((Job.steady_leaseFirst now [.status status]
    (some .creationTime) .ascending process).commit h).exists_eq
  rw [leaseJobForSettlement, leaseJobForSettlement, hs, ht]
  rcases found with _ | _ | j <;> exact ⟨rfl, h'⟩

/-- The task that is longest in existence is the same one in both runs. -/
theorem tally_leaseTaskForSettlement (process : String) (status : TaskStatus) (h : s.Akin t) :
    Tally Store.Akin (leaseTaskForSettlement now process status s)
      (leaseTaskForSettlement now process status t) := by
  obtain ⟨found, s', t', h', hs, ht⟩ := ((Task.steady_leaseFirst now [.status status]
    (some .creationTime) .ascending process).commit h).exists_eq
  rw [leaseTaskForSettlement, leaseTaskForSettlement, hs, ht]
  rcases found with _ | _ | j <;> exact ⟨rfl, h'⟩

/-- A poll leases and settles the same jobs. -/
theorem tally_pollJobs (process : String) (h : s.Akin t) :
    Tally Store.Akin (pollJobs now process s) (pollJobs now process t) := by
  have hlease (statuses : List JobStatus) : Tally Store.Akin
      (leaseTransitionalJobs now process statuses s)
        (leaseTransitionalJobs now process statuses t) :=
    .collect (leaseTransitionalJobs now process) (fun _ => rfl) (fun _ _ _ => rfl)
      (fun status _ _ h => tally_leaseJobForSettlement now process status h) statuses h
  obtain ⟨leased, s', t', h', hs, ht⟩ := (hlease JobStatus.transitional).exists_eq
  rw [pollJobs, pollJobs, hs, ht]
  exact ⟨rfl, List.foldl_rel h' fun j _ _ _ h => j.akin_settle now h⟩

/-- A poll leases and settles the same tasks. -/
theorem tally_pollTasks (process : String) (h : s.Akin t) :
    Tally Store.Akin (pollTasks now process s) (pollTasks now process t) := by
  have hlease (statuses : List TaskStatus) : Tally Store.Akin
      (leaseTransitionalTasks now process statuses s)
        (leaseTransitionalTasks now process statuses t) :=
    .collect (leaseTransitionalTasks now process) (fun _ => rfl) (fun _ _ _ => rfl)
      (fun status _ _ h => tally_leaseTaskForSettlement now process status h) statuses h
  obtain ⟨leased, s', t', h', hs, ht⟩ := (hlease TaskStatus.transitional).exists_eq
  rw [pollTasks, pollTasks, hs, ht]
  exact ⟨rfl, List.foldl_rel h' fun j _ _ _ h => j.akin_settle now h⟩

end

/-! ## Worlds -/

namespace World

variable {ε α : Type} {w v : World}

/-- Akin worlds show the same time. -/
theorem Akin.now_eq (h : w.Akin v) : w.now = v.now := by
  rw [World.now, World.now, h.clock]

/-- The stores of akin worlds may be replaced by akin ones. -/
theorem Akin.withStore (h : w.Akin v) (hst : s.Akin t) :
    World.Akin { w with store := s } { v with store := t } :=
      ⟨hst, h.clock, h.nextDraw, h.drawFailure⟩

/-- A session in akin worlds. -/
theorem Akin.run {p : Session ε α} (hp : p.Steady) (h : w.Akin v) :
    Tally Akin (w.run p) (v.run p) :=
  ⟨(hp h.store).answer, h.withStore (hp h.store).behind⟩

/-- A transaction in akin worlds. -/
theorem Akin.commit {tr : Transaction α} (htr : tr.Steady) (h : w.Akin v) :
    Tally Akin (w.commit tr) (v.commit tr) := h.run (steady_transact htr)

/-- In akin worlds the same id is drawn, or the draw fails in both. -/
theorem Akin.newId (h : w.Akin v) : Tally Akin w.newId v.newId := by
  rw [World.newId, World.newId, h.drawFailure, h.now_eq, h.nextDraw]
  split
  · exact ⟨rfl, h.store, h.clock, rfl, rfl⟩
  · exact ⟨rfl, h.store, h.clock, rfl, rfl⟩

/-- A session that needs an id gets the same one. -/
theorem Akin.runWithId {p : String → Session StateError α} (hp : ∀ id, (p id).Steady)
    (h : w.Akin v) :
    Tally Akin (w.runWithId p) (v.runWithId p) := by
  obtain ⟨drawn, w', v', h', hw, hv⟩ := h.newId.exists_eq
  rw [World.runWithId, World.runWithId, hw, hv]
  cases drawn with
  | error e => exact ⟨rfl, h'⟩
  | ok id => exact h'.run (hp id)

end World

variable {w v : World}

/-! ### Registrations -/

namespace Registration

/-- A registration goes on by the answer of its transaction. -/
theorem tally_after {α : Type} {r r' : Except StateError α × Store} (h : Tally Store.Akin r r')
    (next : α → Registration) : Tally Store.Akin (after next r) (after next r') := by
  obtain ⟨outcome, s, t, hst, rfl, rfl⟩ := h.exists_eq
  cases outcome <;> exact ⟨rfl, hst⟩

/-- A transaction of a registration, which only looks at processes. These have nothing derived. -/
theorem tally_step (now : Millis) (a : Applicant) (id : String) (r : Registration) (h : s.Akin t) :
    Tally Store.Akin (r.step now a id s) (r.step now a id t) := by
  cases r with
  | choosing => exact tally_after ((Process.steady_live now a.kind).commit h) _
  | creating ordinal => exact tally_after ((Process.steady_create now id _).commit h) _
  | checking p => exact tally_after ((Process.steady_live now p.kind).commit h) _
  | claiming p ordinal =>
    exact tally_after ((Process.steady_claimOrdinal now p.id ordinal).commit h) _
  | accepted p => exact ⟨rfl, h⟩
  | failed e => exact ⟨rfl, h⟩

/-- A step of a registration in a world. -/
theorem tally_advance (a : Applicant) (r : Registration) (h : w.Akin v) :
    Tally World.Akin (r.advance a w) (r.advance a v) := by
  have hgo (id : String) {w v : World} (h : w.Akin v) : Tally World.Akin
      ((r.step w.now a id w.store).1, { w with store := (r.step w.now a id w.store).2 })
      ((r.step v.now a id v.store).1, { v with store := (r.step v.now a id v.store).2 }) := by
    have hstep := tally_step w.now a id r h.store
    rw [← h.now_eq]
    exact ⟨hstep.answer, h.withStore hstep.behind⟩
  cases r with
  | creating ordinal =>
    obtain ⟨drawn, w', v', h', hw, hv⟩ := h.newId.exists_eq
    rw [advance, advance, hw, hv]
    cases drawn with
    | error e => exact ⟨rfl, h'⟩
    | ok id => exact hgo id h'
  | _ => exact hgo "" h

/-- A registration that is allowed some steps. -/
theorem tally_finish (a : Applicant) (fuel : Nat) (r : Registration) (h : w.Akin v) :
    Tally World.Akin (finish a fuel w r) (finish a fuel v r) := by
  induction fuel generalizing w v r with
  | zero => cases r <;> exact ⟨rfl, h⟩
  | succ fuel ih =>
    obtain ⟨r', w', v', h', hw, hv⟩ := (tally_advance a r h).exists_eq
    cases r with
    | accepted p => exact ⟨rfl, h⟩
    | failed e => exact ⟨rfl, h⟩
    | _ =>
      simp only [finish, hw, hv]
      exact ih r' h'

/-- How many steps a registration is allowed is the same in both runs. -/
theorem enough_eq (h : w.Akin v) : enough w = enough v := by
  have hlength : w.store.processes.entries.length = v.store.processes.entries.length :=
    (h.store.tables .processes).length_eq
  rw [enough, enough, hlength]

/-- Registration gives the same process its id, its ordinal and its claim. -/
theorem tally_register (a : Applicant) (h : w.Akin v) :
    Tally World.Akin (register a w) (register a v) := by
  rw [register, register, enough_eq h]
  exact tally_finish a _ _ h

/-- Settling the ordinal of a process that exists. -/
theorem tally_settle (p : Process) (h : w.Akin v) : Tally World.Akin (settle p w) (settle p v) := by
  rw [settle, settle, enough_eq h]
  exact tally_finish _ _ _ h

end Registration

/-! ### Background work -/

/-- What a background loop does in one period. -/
theorem Activity.tally_run (a : Activity) (h : w.Akin v) :
    Tally World.Akin (a.run w) (a.run v) := by
  have hnow := h.now_eq
  cases a with
  | keepAlive process =>
    rw [run, run, hnow]
    exact ⟨rfl, (h.run (steady_keepAlive v.now process)).behind⟩
  | reap timeout =>
    rw [run, run, hnow]
    exact (h.run (steady_reapOnce v.now timeout)).map isOver
  | pollJobs process =>
    rw [run, run, hnow]
    exact ⟨rfl, h.withStore (tally_pollJobs v.now process h.store).behind⟩
  | pollTasks process =>
    rw [run, run, hnow]
    exact ⟨rfl, h.withStore (tally_pollTasks v.now process h.store).behind⟩

/-- What background loops do in turn. -/
theorem Activity.tally_inTurn (as : List Activity) (h : w.Akin v) :
    Tally World.Akin (inTurn as w) (inTurn as v) := by
  induction as generalizing w v with
  | nil => exact ⟨rfl, h⟩
  | cons a as ih =>
    obtain ⟨ended, w', v', h', hw, hv⟩ := (a.tally_run h).exists_eq
    rw [inTurn, inTurn, hw, hv]
    -- either run ends with this activity, or neither
    cases ended with
    | true => exact ih h'
    | false => exact ⟨rfl, h'⟩

namespace Daemon

/-- The daemon registers the same processes, or stops at the same failure. -/
theorem tally_registerAll (d : Daemon) (resource : String) (kinds : List ProcessKind)
    (h : w.Akin v) :
    Tally World.Akin (d.registerAll resource kinds w) (d.registerAll resource kinds v) := by
  induction kinds generalizing w v with
  | nil => exact ⟨rfl, h⟩
  | cons kind rest ih =>
    obtain ⟨registered, w₁, v₁, h₁, hw₁, hv₁⟩ := (Registration.tally_register
      { kind, host := d.host, resource, processId := d.processId } h).exists_eq
    rw [registerAll, registerAll, hw₁, hv₁]
    rcases registered with e | _ | p
    · exact ⟨rfl, h₁⟩
    · exact ⟨rfl, h₁⟩
    · obtain ⟨others, w₂, v₂, h₂, hw₂, hv₂⟩ := (ih h₁).exists_eq
      simp only [hw₂, hv₂]
      cases others <;> exact ⟨rfl, h₂⟩

/-- On its way out the daemon deregisters the same processes. -/
theorem akin_leave (hosted : List Process) (h : w.Akin v) :
    (leave hosted w).Akin (leave hosted v) := by
  refine List.foldl_rel h fun p _ w v h => ?_
  rw [h.now_eq]
  exact (h.run (steady_deregister v.now p.id)).behind

/-- A run of the daemon, from registering to leaving. -/
theorem tally_run (d : Daemon) (c : Config) (millis : Nat) (h : w.Akin v) :
    Tally World.Akin (d.run c millis w) (d.run c millis v) := by
  rw [run, run]
  -- the configuration is read before anything is written
  cases c.timing with
  | error e => exact ⟨rfl, h⟩
  | ok timing =>
    obtain ⟨registered, w', v', h', hw, hv⟩ := (d.tally_registerAll c.resource d.kinds h).exists_eq
    simp only [hw, hv]
    rcases registered with e | _ | hosted
    · exact ⟨rfl, h'⟩
    · exact ⟨rfl, h'⟩
    · -- an idle activity need not be idle in the other run, but skipping it makes no difference
      have hidle (w : World) : ∀ a ∈ ([] : List Activity), a.run w = (true, w) :=
        fun a ha => absurd ha List.not_mem_nil
      obtain ⟨ended, w'', v'', h'', hw', hv'⟩ :=
        (Activity.tally_inTurn (schedule millis (loops timing hosted)) h').exists_eq
      simp only [Activity.runAll_eq_inTurn _ [] _ (hidle _), hw', hv']
      cases ended with
      | true => exact ⟨rfl, akin_leave hosted h''⟩
      | false => exact ⟨rfl, h''⟩

/-- A configuration that cannot be used keeps both daemons from starting. -/
theorem tally_start (d : Daemon) (config : Option String) (millis : Nat) (h : w.Akin v) :
    Tally World.Akin (d.start config millis w) (d.start config millis v) := by
  rw [start, start]
  cases config.elim (.ok {}) Config.parse with
  | error e => exact ⟨rfl, h⟩
  | ok c =>
    by_cases hpath : (c.store.bind (·.path)).isSome
    · obtain ⟨answer, w', v', h', hw, hv⟩ :=
        (d.tally_run c millis (h.withStore (.refl .empty))).exists_eq
      simp only [hpath, if_true, hw, hv]
      exact ⟨rfl, h'.withStore h.store⟩
    · simp only [hpath]
      exact d.tally_run c millis h

end Daemon

/-! ## Operations -/

namespace Answered

variable {α : Type}

/-- What an operation answers for the store. -/
theorem tally_ofState {r r' : Except StateError α × World} (h : Tally World.Akin r r')
    (reply : α → Reply) : Tally World.Akin (ofState reply r) (ofState reply r') :=
  h.map fun outcome => (outcome.mapError Failure.state).map reply

/-- What an operation answers for the registry. -/
theorem tally_ofRegistry {r r' : Except RegistryError α × World} (h : Tally World.Akin r r')
    (reply : α → Reply) : Tally World.Akin (ofRegistry reply r) (ofRegistry reply r') :=
  h.map fun outcome => (outcome.mapError Failure.registry).map reply

end Answered

open Answered Transaction in
/-- Whatever is asked for is answered the same in worlds that are akin, and leaves worlds that are
akin. -/
theorem World.Akin.perform (h : w.Akin v) (op : Operation) :
    Tally World.Akin (op.perform w) (op.perform v) := by
  -- the worlds show the same time, so every operation asks for the same in both
  obtain ⟨s, clock, nextDraw, drawFailure⟩ := w
  obtain ⟨t, clock', nextDraw', drawFailure'⟩ := v
  obtain rfl : clock = clock' := h.clock
  have hcommit {α : Type} {tr : Transaction α} {reply : α → Reply} (htr : tr.Steady) :=
    tally_ofState (h.commit htr) reply
  have hsession {α : Type} {p : Session StateError α} {reply : α → Reply} (hp : p.Steady) :=
    tally_ofState (h.run hp) reply
  have hregistry {α : Type} {p : Session RegistryError α} {reply : α → Reply} (hp : p.Steady) :=
    tally_ofRegistry (h.run hp) reply
  cases op with
  | putDataset d => exact hcommit (steady_put d)
  | getDataset id => exact hcommit (steady_fetch _ id)
  | putModule m => exact hcommit (steady_put m)
  | getModule id => exact hcommit (steady_fetch _ id)
  | listModules kind => exact hcommit (steady_scan _ fun _ => rfl)
  | putProcess p => exact hcommit (steady_put p)
  | getProcess id => exact hcommit (steady_fetch _ id)
  | createProcess new =>
    exact tally_ofState
      (h.runWithId fun id => steady_transact (Process.steady_create _ id new)) .process
  | listProcesses filters q => exact hcommit (Process.steady_listing _ filters q)
  | countProcesses filters => exact hcommit (Process.steady_countAll filters)
  | liveProcesses kind => exact hcommit (Process.steady_live _ kind)
  | claimOrdinal id ordinal => exact hcommit (Process.steady_claimOrdinal _ id ordinal)
  | recordKeepalive id => exact hcommit (Process.steady_keepalive _ id)
  | setProcessStatus id status => exact hcommit (Process.steady_setStatus _ id status)
  | terminateStale cutoff => exact hcommit (Process.steady_terminateStale _ cutoff)
  | terminateAllStale cutoff => exact hsession (steady_terminateAllStale _ cutoff)
  | createJob caller new =>
    exact tally_ofState
      (h.runWithId fun id => steady_transact (Job.steady_create _ id caller new)) .job
  | getJob caller id => exact hcommit (Job.steady_fetchVisible _ caller id)
  | listJobs caller filters q => exact hcommit (Job.steady_listing _ caller filters q)
  | countJobs caller filters => exact hcommit (Job.steady_countAll caller filters)
  | updateJob caller id u => exact hcommit (Job.steady_change _ caller id u)
  | leaseJob filters sort direction process =>
    exact hcommit (Job.steady_leaseFirst _ filters sort direction process)
  | releaseJob id process => exact hcommit (steady_release id process)
  | applicableJobs model => exact hsession (Job.steady_applicable _ model)
  | appendModel id model => exact hcommit (Job.steady_appendModel id model)
  | addModel model => exact hsession (Job.steady_addModel _ model)
  | fanOut model => exact hsession (Job.steady_fanOut _ model)
  | createTask caller new => exact hcommit (Task.steady_create _ caller new)
  | getTask caller id => exact hcommit (Task.steady_fetchVisible _ caller id)
  | listTasks caller filters q => exact hcommit (Task.steady_listing _ caller filters q)
  | countTasks caller filters => exact hcommit (Task.steady_countAll caller filters)
  | updateTask caller id u => exact hcommit (Task.steady_change _ caller id u)
  | leaseTask filters sort direction process =>
    exact hcommit (Task.steady_leaseFirst _ filters sort direction process)
  | releaseTask id process => exact hcommit (steady_release id process)
  | pauseTasks job => exact hcommit (Task.steady_cascade job _ _)
  | resumeTasks job => exact hcommit (Task.steady_cascade job _ _)
  | terminateTasks job => exact hcommit (Task.steady_cascade job _ _)
  | releaseHeld c process => exact hcommit (steady_releaseIn c process)
  | releaseAll process => exact hsession (steady_releaseAll process)
  | register a => exact tally_ofRegistry (Registration.tally_register a h) (ofEnding .process)
  | settleOrdinal p => exact tally_ofRegistry (Registration.tally_settle p h) (ofEnding .process)
  | keepAlive id => exact hregistry (steady_keepAlive _ id)
  | deregister id => exact hregistry (steady_deregister _ id)
  | reap timeout => exact hregistry (steady_reapOnce _ timeout)
  | pollJobs process =>
    have hpoll := tally_pollJobs (World.now ⟨s, clock, nextDraw, drawFailure⟩) process h.store
    exact ⟨congrArg (fun n => Except.ok (Reply.count n)) hpoll.answer, h.withStore hpoll.behind⟩
  | pollTasks process =>
    have hpoll := tally_pollTasks (World.now ⟨s, clock, nextDraw, drawFailure⟩) process h.store
    exact ⟨congrArg (fun n => Except.ok (Reply.count n)) hpoll.answer, h.withStore hpoll.behind⟩
  | settleJob j => exact ⟨rfl, h.withStore (j.akin_settle _ h.store)⟩
  | settleTask j => exact ⟨rfl, h.withStore (j.akin_settle _ h.store)⟩
  | repeatActivity a turns =>
    let reply (ended : Bool) : Except Failure Reply := .ok (if ended then .done else .unfinished)
    exact (Activity.tally_inTurn (List.replicate turns a) h).map reply
  | runDaemon d config millis =>
    obtain ⟨outcome, w', v', h', hw, hv⟩ := (d.tally_start config millis h).exists_eq
    rw [Operation.perform, Operation.perform, hw, hv]
    cases outcome <;> exact ⟨rfl, h'⟩

/-! ## The result -/

/-- **Derived fields are never a source of truth.** Take two worlds in which the stored durations of
jobs and tasks are whatever they are, and which are the same otherwise. Whatever is asked for one
after the other, each at its moment, with whatever the random source yields there, is answered the
same in both at every step, and the worlds behind it differ at most in stored durations of jobs and
tasks again. -/
theorem derived_fields_have_no_influence (ops : List (Moment × Operation)) {w v : World}
    (h : w.Akin v) :
    Operation.answers ops w = Operation.answers ops v ∧
      (Operation.behindAll ops w).Akin (Operation.behindAll ops v) := by
  induction ops generalizing w v with
  | nil => exact ⟨rfl, h⟩
  | cons o ops ih =>
    obtain ⟨m, op⟩ := o
    have hmoment : (m.world w.store).Akin (m.world v.store) := ⟨h.store, rfl, rfl, rfl⟩
    have hstep := hmoment.perform op
    obtain ⟨hanswers, hbehind⟩ := ih hstep.behind
    refine ⟨?_, hbehind⟩
    have hfirst : (op.perform (m.world w.store)).1 = (op.perform (m.world v.store)).1 :=
      hstep.answer
    rw [Operation.answers, Operation.answers, hfirst]
    exact congrArg _ hanswers

namespace Misdated

/-- The job of the system, with durations that it never had. -/
def job : Job := { Workbench.job with runningDuration := 7, pauseDuration := 9 }

/-- Its task, with durations that it never had. -/
def task : Task := { Workbench.task with stageDurations := ⟨1, 2, 3⟩, runningDuration := 6 }

def right : World := { store := Workbench.store.put Workbench.task, clock := 0 }

def wrong : World := { store := (Workbench.catalog.put job).put task, clock := 0 }

/-- The job and the task are looked at, paused and settled. -/
def ops : List (Moment × Operation) := [({ clock := 5 }, .getJob .root "j"),
  ({ clock := 6 }, .updateJob .root "j" { status := some .pausing }),
  ({ clock := 7 }, .pollJobs "p"), ({ clock := 8 }, .pollTasks "p"),
  ({ clock := 9 }, .listTasks .root [] {})]

/-- The worlds differ in nothing but the durations. -/
theorem akin : right.Akin wrong := by
  have hjobs : Workbench.store.Akin (Workbench.catalog.put job) :=
    (Store.Akin.refl Workbench.catalog).put (d := Workbench.job) rfl
  exact ⟨hjobs.put (d := Workbench.task) rfl, rfl, rfl, rfl⟩

/-- But they do differ. -/
theorem store_ne : right.store ≠ wrong.store := by
  intro h
  have hright : (right.store.table .jobs).find? "j" = some (Document.encode Workbench.job) := rfl
  have hwrong : (wrong.store.table .jobs).find? "j" = some (Document.encode job) := rfl
  rw [h, hwrong] at hright
  have hsame : job = Workbench.job := LawfulDocument.encode_inj (Option.some.inj hright)
  have hduration : (7 : Millis) = 0 := congrArg Job.runningDuration hsame
  exact absurd hduration (by decide)

end Misdated

/-- A job and a task with wrong durations look like those with right ones, before a pause and behind
it. -/
theorem derived_fields_have_no_influence_on_pause :
    Misdated.right.store ≠ Misdated.wrong.store ∧
      Operation.answers Misdated.ops Misdated.right =
        Operation.answers Misdated.ops Misdated.wrong ∧
      (Operation.behindAll Misdated.ops Misdated.right).Akin
        (Operation.behindAll Misdated.ops Misdated.wrong) :=
  ⟨Misdated.store_ne, derived_fields_have_no_influence Misdated.ops Misdated.akin⟩

end Fleet
