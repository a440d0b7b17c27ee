import Fleet.Proofs.Access.Chronicle
import Fleet.Proofs.Job.Life

/-!
# The times of jobs add up

A job keeps when it was created, since when it pauses, how long it paused before and when it ended;
its durations are differences of these stamps, cut off at zero. As long as the clock does not go
back nothing is ever cut off, and the durations are exact (`job_times_are_exact`).

The invariant relates the stamps to the time that the job has really spent paused (`Job.Accounted`).
It is kept while time passes, when a pause grows and nothing else changes, and by every change of
status, which at its own time moves the pause that is over from one stamp to another one.
-/

set_option autoImplicit false

namespace Fleet

namespace Job

variable {first now later : Millis} {total : Nat} {j j' : Job}

/-! ## What is cut off -/

/-- Nothing that is computed of the stamps as of a time is cut off, neither a difference at zero nor
a sum at the greatest time. -/
structure Unsaturated (now : Millis) (j : Job) : Prop where
  pause : ∀ p, j.status = .paused → j.pauseStartTime = some p → p.toNat ≤ now.toNat
  pauses : j.prevPauseDuration.toNat + (j.currentPause now).toNat < 2 ^ 64
  start : ∀ b, j.runningTime.start = some b → b.toNat ≤ (j.runningTime.stop.getD now).toNat
  running : ∀ b, j.runningTime.start = some b →
    b.toNat + (j.refresh now).pauseDuration.toNat ≤ (j.runningTime.stop.getD now).toNat

/-! ## The account of a job -/

/-- The stamps of a job that was created at `first` and has been paused for `total` until `now`. -/
structure Accounted (first now : Millis) (total : Nat) (j : Job) : Prop where
  start : j.runningTime.start = some first
  pause : ∀ p, j.pauseStartTime = some p → p.toNat ≤ now.toNat
  paused : j.prevPauseDuration.toNat + (j.currentPause now).toNat = total
  room : first.toNat + total ≤ (j.runningTime.stop.getD now).toNat
  stop : ∀ e, j.runningTime.stop = some e → e.toNat ≤ now.toNat

/-- A new job has an account without pauses. -/
theorem accounted_initial (now : Millis) (id : String) (caller : Caller) (new : NewJob)
    (configSpace : String) : (initial now id caller new configSpace).Accounted now now 0 :=
  ⟨rfl, nofun, rfl, le_rfl, nofun⟩

/-- Time passes: the pause of a paused job grows by it, and everything else is as it was. -/
theorem Accounted.pass (h : j.Accounted first now total) (hj : j.Coherent)
    (hnow : now.toNat ≤ later.toNat) :
    j.Accounted first later
      (total + if j.status = .paused then later.toNat - now.toNat else 0) := by
  have hpaused := h.paused
  have hroom := h.room
  by_cases hstatus : j.status = .paused
  · obtain ⟨p, hp⟩ := Option.isSome_iff_exists.1 (hj.pause.2 hstatus)
    have hbefore := h.pause p hp
    -- a job that is paused has not ended
    have hstop : j.runningTime.stop = none := by
      rw [← Option.not_isSome_iff_eq_none, hj.stop, hstatus]
      decide
    rw [currentPause_of_paused hstatus hp, Millis.toNat_minus] at hpaused
    rw [hstop, Option.getD_none] at hroom
    rw [if_pos hstatus]
    refine ⟨h.start, fun q hq => (h.pause q hq).trans hnow, ?_, ?_,
      fun e he => (h.stop e he).trans hnow⟩
    · rw [currentPause_of_paused hstatus hp, Millis.toNat_minus]
      omega
    · rw [hstop, Option.getD_none]
      omega
  · rw [currentPause_of_ne hstatus] at hpaused
    rw [if_neg hstatus, Nat.add_zero]
    refine ⟨h.start, fun q hq => (h.pause q hq).trans hnow, ?_, ?_,
      fun e he => (h.stop e he).trans hnow⟩
    · rw [currentPause_of_ne hstatus]
      exact hpaused
    · -- there is as much room as before where the job has ended, and more where it has not
      cases hstop : j.runningTime.stop with
      | none =>
        rw [hstop, Option.getD_none] at hroom
        exact hroom.trans hnow
      | some e =>
        rw [hstop, Option.getD_some] at hroom
        exact hroom

/-- The account depends on status and stamps. -/
theorem Accounted.of_sameStamps (h : j.Accounted first now total) (hsame : SameStamps j j') :
    j'.Accounted first now total := by
  have hcurrent : j'.currentPause now = j.currentPause now := by
    rw [currentPause, currentPause, hsame.status, hsame.pauseStartTime]
  refine ⟨?_, ?_, ?_, ?_, ?_⟩
  · rw [hsame.runningTime]
    exact h.start
  · rw [hsame.pauseStartTime]
    exact h.pause
  · rw [hsame.prevPauseDuration, hcurrent]
    exact h.paused
  · rw [hsame.runningTime]
    exact h.room
  · rw [hsame.runningTime]
    exact h.stop

/-- What has been paused so far is added up without a cut. -/
theorem Accounted.toNat_pauses (h : j.Accounted first now total) :
    (j.prevPauseDuration.plus (j.currentPause now)).toNat = total := by
  have hpaused := h.paused
  have hroom := h.room
  have hlt := (j.runningTime.stop.getD now).toNat_lt
  rw [Millis.toNat_plus]
  omega

/-- A change of status moves the pause so far to the pauses before, and a new one has just begun. -/
theorem Accounted.of_applyStatus {target : JobStatus} (h : j.Accounted first now total)
    (happly : j.applyStatus target now = .ok j') : j'.Accounted first now total := by
  rcases applyStatus_cases happly with ⟨-, rfl⟩ | ⟨-, -, henters⟩
  · exact h
  · have hpause : ∀ p, j'.pauseStartTime = some p → p.toNat ≤ now.toNat := by
      rw [henters.pauseStartTime]
      intro p hp
      by_cases htarget : target = .paused
      · rw [if_pos htarget] at hp
        cases hp
        exact le_rfl
      · rw [if_neg htarget] at hp
        split at hp
        · cases hp
        · exact h.pause p hp
    -- whatever pause there was is over, and one that begins now has no length
    have hcurrent : j'.currentPause now = 0 := by
      by_cases htarget : target = .paused
      · have hp := henters.pauseStartTime
        rw [if_pos htarget] at hp
        rw [currentPause_of_paused (henters.status.trans htarget) hp]
        exact UInt64.toNat_inj.1 ((Millis.toNat_minus now now).trans (Nat.sub_self _))
      · exact currentPause_of_ne (henters.status ▸ htarget)
    have hstop : j'.runningTime.stop.getD now = j.runningTime.stop.getD now := by
      rw [henters.stop]
      split <;> rfl
    refine ⟨?_, hpause, ?_, ?_, ?_⟩
    · rw [henters.start, h.start]
      exact ite_self _
    · rw [hcurrent, henters.prevPauseDuration]
      exact h.toNat_pauses
    · rw [hstop]
      exact h.room
    · intro e he
      rw [henters.stop] at he
      split at he
      · -- an end that is stamped now is no later than now
        cases he
        cases hend : j.runningTime.stop with
        | none => exact le_rfl
        | some e => exact h.stop e hend
      · exact h.stop e he

/-- **The step lemma**: whatever happens to a job in one transaction keeps its account. -/
theorem Accounted.of_becomes (h : j.Accounted first now total) (hbecomes : j.Becomes now j') :
    j'.Accounted first now total := by
  induction hbecomes with
  | refl => exact h
  | kept _ hsame ih => exact ih.of_sameStamps hsame
  | moved _ happly ih => exact ih.of_applyStatus happly

/-! ### What a reader is told -/

/-- The pauses of an account are those that are shown. -/
theorem Accounted.toNat_pauseDuration (h : j.Accounted first now total) :
    (j.refresh now).pauseDuration.toNat = total := h.toNat_pauses

/-- What is shown as running and paused adds up to the time since the job was created. -/
theorem Accounted.toNat_runningDuration (h : j.Accounted first now total) :
    first.toNat + (j.refresh now).runningDuration.toNat + (j.refresh now).pauseDuration.toNat =
      (j.runningTime.stop.getD now).toNat := by
  have hrunning : (j.refresh now).runningDuration =
      ((j.runningTime.stop.getD now).minus first).minus (j.refresh now).pauseDuration := by
    rw [refresh]
    simp only [h.start]
  have hroom := h.room
  rw [hrunning, Millis.toNat_minus, Millis.toNat_minus, h.toNat_pauseDuration]
  omega

/-- Nothing saturates in an account. -/
theorem Accounted.unsaturated (h : j.Accounted first now total) : j.Unsaturated now := by
  have hpaused := h.paused
  have hroom := h.room
  have hlt := (j.runningTime.stop.getD now).toNat_lt
  refine ⟨fun p _ hp => h.pause p hp, by omega, ?_, ?_⟩
  · intro b hb
    cases h.start.symm.trans hb
    omega
  · intro b hb
    cases h.start.symm.trans hb
    rw [h.toNat_pauseDuration]
    exact hroom

end Job

/-! ## Runs -/

namespace Store

/-- The job under the id is paused. -/
def pausedJob (id : String) (s : Store) : Bool := (s.shown? Job id).any (·.status = .paused)

/-- Whether a job is paused, as it is read. -/
theorem Has.pausedJob_eq {s : Store} {j : Job} (hj : s.Has j) :
    s.pausedJob j.id = decide (j.status = .paused) := by
  have hshown : s.shown? Job j.id = some j := shown?_of_document? hj.document?
  rw [Store.pausedJob, hshown]
  rfl

/-- Between two accesses the time passes for the job as it is stored. -/
theorem Has.accounted_pass {first m now : Millis} {s : Store} {past : Chronicle} {j : Job}
    (hj : s.Has j) (hcoherent : j.Coherent)
    (h : j.Accounted first m (Chronicle.spent (pausedJob j.id) m past))
    (hnow : m ≤ now) :
    j.Accounted first now (Chronicle.spent (pausedJob j.id) now ((m, s) :: past)) := by
  have hspent : Chronicle.spent (pausedJob j.id) now ((m, s) :: past) =
      Chronicle.spent (pausedJob j.id) m past +
        if j.status = .paused then now.toNat - m.toNat else 0 := by
    rw [Chronicle.spent, hj.pausedJob_eq, Nat.add_comm]
    simp only [decide_eq_true_eq]
  rw [hspent]
  exact h.pass hcoherent (UInt64.le_iff_toNat_le.1 hnow)

/-- The stamps of a job know how long it has been paused. -/
theorem Evolves.exists_accounted {allowed : Access → Prop} {first now : Millis} {s t : Store}
    {past : Chronicle} (h : s.Evolves allowed first past now t) (hs : s.WellFormed) {i : Job}
    (hi : s.Has i) (hcoherent : i.Coherent) (haccounted : i.Accounted first first 0) :
    ∃ j : Job, t.Has j ∧ j.id = i.id ∧ j.user = i.user ∧ j.Coherent ∧
      j.Accounted first now (Chronicle.spent (pausedJob i.id) now past) := by
  induction h with
  | start => exact ⟨i, hi, rfl, rfl, hcoherent, haccounted⟩
  | @step past m now t a hbefore hnow ha ih =>
    obtain ⟨j, hj, hid, huser, hcoherent, haccounted⟩ := ih
    obtain ⟨j', hj', hid', htends⟩ := Access.exists_job_after (hbefore.wellFormed hs) hj now a
    refine ⟨j', hj', hid'.trans hid, htends.user.trans huser,
      hcoherent.of_becomes htends.becomes, ?_⟩
    rw [← hid] at haccounted ⊢
    exact (hj.accounted_pass hcoherent haccounted hnow).of_becomes htends.becomes

end Store

/-! ## A job that pauses -/

/-- A run goes on with a job that takes a status. -/
theorem Store.Evolves.put_applied {first m now : Millis} {s t : Store} {past : Chronicle}
    (h : s.Evolves (fun _ => True) first past m t) {j j' : Job} (hj : t.Has j) {target : JobStatus}
    (happly : j.applyStatus target now = .ok j') (hnow : m ≤ now) :
    s.Evolves (fun _ => True) first ((m, t) :: past) now (t.put j') := by
  rw [← hj.after_applyStatus happly]
  exact .step h hnow trivial

namespace Workbench

/-- The job on its way into a pause and out of it. -/
def pausing : Job := { job with status := .pausing }.refresh 10

def paused : Job := { pausing with status := .paused, pauseStartTime := some 20 }.refresh 20

def resuming : Job :=
  { paused with status := .resuming, pauseStartTime := none, prevPauseDuration := 30 }.refresh 50

def resumed : Store := ((store.put pausing).put paused).put resuming

/-- The stores that it was in before. -/
def history : Chronicle :=
  [(20, (store.put pausing).put paused), (10, store.put pausing), (0, store)]

/-- The run of the example. -/
theorem evolves : store.Evolves (fun _ => True) 0 history 50 resumed := by
  have hpausing : job.applyStatus .pausing 10 = .ok pausing := rfl
  have hpaused : pausing.applyStatus .paused 20 = .ok paused := rfl
  have hresuming : paused.applyStatus .resuming 50 = .ok resuming := rfl
  have hstart : store.Evolves (fun _ => True) 0 [] 0 store := .start
  have h₁ := hstart.put_applied (Store.has_put_self _ _) hpausing (by decide)
  have h₂ := h₁.put_applied (Store.has_put_self _ _) hpaused (by decide)
  exact h₂.put_applied (Store.has_put_self _ _) hresuming (by decide)

/-- The job was paused for thirty milliseconds of it. -/
theorem spent_history :
    Chronicle.spent (Store.pausedJob "j") 100 ((50, resumed) :: history) = 30 := by
  have hstore : store.pausedJob "j" = false := (Store.has_put_self catalog job).pausedJob_eq
  have hpausing : (store.put pausing).pausedJob "j" = false :=
    (Store.has_put_self _ pausing).pausedJob_eq
  have hpaused : ((store.put pausing).put paused).pausedJob "j" = true :=
    (Store.has_put_self _ paused).pausedJob_eq
  have hresumed : resumed.pausedJob "j" = false := (Store.has_put_self _ resuming).pausedJob_eq
  rw [history, Chronicle.spent, Chronicle.spent, Chronicle.spent, Chronicle.spent, Chronicle.spent,
    hstore, hpausing, hpaused, hresumed]
  rfl

end Workbench

/-! ## The result -/

/-- **The times of a job are exact.** Whoever reads a job at whatever time behind accesses of a
clock that does not go back is told as the duration of its pauses the time that it has spent paused,
and this and the duration of its running are the time from its creation to its end, or to the time
of reading while it has none. Nothing is cut off on the way, neither in what is read then nor in
what a change at this time would compute. -/
theorem job_times_are_exact {t₀ : Millis} {id : String} {caller : Caller} {new : NewJob}
    {s₀ s₁ : Store} {r : Job} (hs₀ : s₀.WellFormed)
    (hcreate : Job.create t₀ id caller new s₀ = .ok (r, s₁))
    {past : Chronicle} {now : Millis} {s : Store}
    (hrun : s₁.Evolves (fun _ => True) t₀ past now s) :
    ∃ j : Job, s.Has j ∧ j.id = id ∧ j.user = caller.user ∧ ∀ t : Millis, now ≤ t →
      j.Unsaturated t ∧
      (∀ c : Caller, c.canSee j.user = true → Job.fetchVisible t c id s = .ok (j.refresh t, s)) ∧
      (∀ test js, Transaction.scan t test s = .ok (js, s) → ∀ i ∈ js, i.id = id → i = j.refresh t) ∧
      (j.refresh t).pauseDuration.toNat =
        Chronicle.spent (Store.pausedJob id) t ((now, s) :: past) ∧
      t₀.toNat + (j.refresh t).runningDuration.toNat + (j.refresh t).pauseDuration.toNat =
        (j.runningTime.stop.getD t).toNat := by
  obtain ⟨_, _, _, configSpace, -, -, -, -, -, -, rfl, -⟩ := Job.create_eq_ok.1 hcreate
  have hs₁ := hs₀.put (Job.initial t₀ id caller new configSpace)
  obtain ⟨j, hj, rfl, huser, hcoherent, haccounted⟩ :=
    hrun.exists_accounted hs₁ (Store.has_put_self _ _)
    (Job.coherent_initial t₀ id caller new configSpace)
    (Job.accounted_initial t₀ id caller new configSpace)
  refine ⟨j, hj, rfl, huser, fun t ht => ?_⟩
  -- the account is carried along the run, and on to the time of the look
  have hread := hj.accounted_pass hcoherent haccounted ht
  refine ⟨hread.unsaturated, fun c hc => ?_, fun test js hscan i hi hid => ?_,
    hread.toNat_pauseDuration, hread.toNat_runningDuration⟩
  · exact Job.fetchVisible_eq_ok.2 ⟨j, hj.document?, hc, rfl, rfl⟩
  · obtain ⟨ds, hds, rfl, -⟩ := Transaction.scan_eq_ok.1 hscan
    obtain ⟨k, hk, rfl⟩ := List.mem_map.1 hi
    have hhas : s.Has k := ((hrun.wellFormed hs₁).mem_documents hds).1 (List.mem_filter.1 hk).1
    exact congrArg (Job.refresh t) (hhas.eq_of_key_eq hj hid)

/-- Of a job that was paused from 20 to 50 it is known so at 100. -/
theorem job_times_are_exact_behind_pause : ∃ r : Job,
    Job.fetchVisible 100 .root "j" Workbench.resumed = .ok (r, Workbench.resumed) ∧
      r.pauseDuration.toNat = 30 ∧ r.runningDuration.toNat = 70 := by
  obtain ⟨j, hj, hid, -, hread⟩ := job_times_are_exact Workbench.catalog_reachable.wellFormed
    (Workbench.create_eq_ok "j") Workbench.evolves
  obtain ⟨-, hfetch, -, hpause, hrunning⟩ := hread 100 (by decide)
  have hpause : (j.refresh 100).pauseDuration.toNat = 30 := hpause.trans Workbench.spent_history
  obtain rfl : j = Workbench.resuming := hj.eq_of_key_eq (Store.has_put_self _ _) hid
  have hstop : (Workbench.resuming.runningTime.stop.getD 100).toNat = 100 := rfl
  rw [hpause, hstop] at hrunning
  have hzero : (0 : Millis).toNat = 0 := rfl
  exact ⟨_, hfetch .root rfl, hpause, by omega⟩

end Fleet
