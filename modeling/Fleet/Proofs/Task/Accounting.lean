import Fleet.Proofs.Access.Chronicle
import Fleet.Proofs.Task.Stages

/-!
# The times of stages add up

While the clock does not go back, the stages that a task enters lie one behind the other, so their
lengths add up to the time from the first to the last of their stamps (`stage_times_add_up`).

The invariant holds the stamps against what has really happened (`Task.Staged`): when the task left
its first stage, and when a stage was closed last. A stage is closed when the task moves on and when
it fails, so whatever else is done leaves all of this alone. One access may do both. What it does is
therefore followed change by change, and whether a stage was closed by all of them is told by the
number of closed stages, which never falls.
-/

set_option autoImplicit false

namespace Fleet

/-! ## Sums over the stages -/

namespace StageTimes

variable {st : StageTimes} {k : TaskStage}

/-- The sum of a measure of the three intervals. -/
def sum (st : StageTimes) (f : TimeInterval → Nat) : Nat :=
  f st.training + f st.predicting + f st.evaluating

/-- The sum changes by what changes of the one interval. -/
theorem sum_modify {i : TimeInterval} (h : st.interval? k = some i) (f : TimeInterval → Nat)
    (g : TimeInterval → TimeInterval) : (st.modify k g).sum f + f i = st.sum f + f (g i) := by
  cases k with
  | begin => cases h
  | finished => cases h
  | _ =>
    cases h
    simp only [sum, modify]
    omega

/-- The time between the stamps of closed stages. -/
def closedTime (st : StageTimes) : Nat := st.sum fun i => i.closedLength.toNat

/-- The number of closed stages. -/
def closings (st : StageTimes) : Nat := st.sum fun i => if i.stop.isSome then 1 else 0

/-- Stamps that are kept are counted again. -/
theorem Extends.closings_le {st' : StageTimes} (h : st.Extends st') :
    st.closings ≤ st'.closings := by
  have hone {i i' : TimeInterval} (hext : i.Extends i') :
      (if i.stop.isSome then 1 else 0) ≤ if i'.stop.isSome then 1 else 0 := by
    cases hstop : i.stop with
    | none => exact Nat.zero_le _
    | some e => rw [hext.stop e hstop]
  obtain ⟨_, htraining, h₁⟩ := h .training _ rfl
  obtain ⟨_, hpredicting, h₂⟩ := h .predicting _ rfl
  obtain ⟨_, hevaluating, h₃⟩ := h .evaluating _ rfl
  cases htraining
  cases hpredicting
  cases hevaluating
  exact Nat.add_le_add (Nat.add_le_add (hone h₁) (hone h₂)) (hone h₃)

/-- A stage that opens adds no time yet, and it is not closed. -/
theorem closedTime_opened (h : st.stop? k = none) (now : Millis) :
    (st.modify k (·.opened now)).closedTime = st.closedTime := by
  by_cases hk : k.IsTimed
  case neg => rw [modify_of_not_isTimed hk]
  case pos =>
    obtain ⟨⟨start, stop⟩, hi⟩ : ∃ i, st.interval? k = some i := by
      cases k <;> first | exact ⟨_, rfl⟩ | exact absurd hk (by decide)
    obtain rfl : stop = none := by simpa [stop?, hi] using h
    have hsum := sum_modify hi (fun i => i.closedLength.toNat) (·.opened now)
    have hbefore : (TimeInterval.mk start none).closedLength = 0 := by cases start <;> rfl
    have hafter : ((TimeInterval.mk start none).opened now).closedLength = 0 := rfl
    simp only [hbefore, hafter] at hsum
    exact Nat.add_right_cancel hsum

/-- Opening adds no stop. -/
theorem closings_opened (st : StageTimes) (k : TaskStage) (now : Millis) :
    (st.modify k (·.opened now)).closings = st.closings := by
  cases k <;> rfl

/-- A stage that closes adds its time, and is one more closed stage. -/
theorem sums_closed {b : Millis} (hstart : st.start? k = some b) (hstop : st.stop? k = none)
    (now : Millis) :
    (st.modify k (·.closed now)).closedTime = st.closedTime + (now.toNat - b.toNat) ∧
      (st.modify k (·.closed now)).closings = st.closings + 1 := by
  obtain ⟨⟨start, stop⟩, hi, rfl⟩ := Option.bind_eq_some_iff.1 hstart
  obtain rfl : stop = none := by simpa [stop?, hi] using hstop
  have htime := sum_modify hi (fun i => i.closedLength.toNat) (·.closed now)
  have hnumber := sum_modify hi (fun i => if i.stop.isSome then 1 else 0) (·.closed now)
  have hlength : ((TimeInterval.mk (some b) none).closed now).closedLength.toNat =
      now.toNat - b.toNat :=
    Millis.toNat_minus now b
  rw [hlength] at htime
  exact ⟨htime, hnumber⟩

end StageTimes

/-! ## Stages and what happened -/

namespace Task

variable {left closed : Option Millis} {now later : Millis} {t t' : Task}

/-- The stages are those of a task that left the first stage at one time and closed a stage last at
another one, as far as it did: the closed stages take up all the time between them, and the current
one is open since the later one. -/
structure Staged (left closed : Option Millis) (now : Millis) (t : Task) : Prop where
  wellStaged : t.WellStaged
  begin : t.stage = .begin → left = none ∧ closed = none ∧ t.stageTimes.closedTime = 0
  account : t.stage ≠ .begin → ∃ b, left = some b ∧
    b.toNat + t.stageTimes.closedTime = (closed.getD b).toNat ∧ (closed.getD b).toNat ≤ now.toNat ∧
    (t.status ≠ .error → ∀ x, t.stageTimes.start? t.stage = some x → x = closed.getD b)

/-- When a task left its first stage, if it has by now. -/
def leftBy (now : Millis) (left : Option Millis) (t : Task) : Option Millis :=
  left.or (if t.stage = .begin then none else some now)

/-- When a stage was closed last, if it was one by now that was not closed before. -/
def closedBy (now : Millis) (closed : Option Millis) (t t' : Task) : Option Millis :=
  if t'.stageTimes.closings = t.stageTimes.closings then closed else some now

/-- A new task has begun nothing and closed nothing. -/
theorem staged_initial (now : Millis) (j : Job) (n : Nat) (new : NewTask) :
    (initial now j n new).Staged none none now :=
  ⟨wellStaged_initial now j n new, fun _ => ⟨rfl, rfl, rfl⟩, fun h => absurd rfl h⟩

/-- The account holds as time passes. -/
theorem Staged.pass (h : t.Staged left closed now) (hnow : now.toNat ≤ later.toNat) :
    t.Staged left closed later := by
  refine ⟨h.wellStaged, h.begin, fun hstage => ?_⟩
  obtain ⟨b, hleft, htime, hlast, hopen⟩ := h.account hstage
  exact ⟨b, hleft, htime, hlast.trans hnow, hopen⟩

/-- A change that leaves the stage alone does not leave the first one. -/
theorem Staged.leftBy_eq (h : t.Staged left closed now) (hstage : t'.stage = t.stage) :
    t'.leftBy now left = left := by
  rw [leftBy, hstage]
  by_cases hbegin : t.stage = .begin
  · rw [if_pos hbegin, Option.or_none]
  · obtain ⟨b, rfl, -⟩ := h.account hbegin
    rfl

/-- Where no stop is added the last one is the same. -/
theorem closedBy_of_eq (h : t'.stageTimes.closings = t.stageTimes.closings) :
    closedBy now closed t t' = closed := if_pos h

/-- Where one is added the last one is now. -/
theorem closedBy_of_succ (h : t'.stageTimes.closings = t.stageTimes.closings + 1) :
    closedBy now closed t t' = some now := if_neg (h ▸ Nat.succ_ne_self _)

/-- The current stage has not begun later than now. -/
theorem Staged.begun (h : t.Staged left closed now) (hworking : t.status ≠ .error) (x : Millis)
    (hx : t.stageTimes.start? t.stage = some x) : x.toNat ≤ now.toNat := by
  by_cases hstage : t.stage = .begin
  · rw [hstage] at hx
    cases hx
  · obtain ⟨b, -, -, hlast, hopen⟩ := h.account hstage
    rw [hopen hworking x hx]
    exact hlast

/-- Closing the current stage adds all the time up to now. -/
theorem Staged.close (h : t.Staged left closed now) (hworking : t.status ≠ .error)
    (htimed : t.stage.IsTimed) : ∃ b, left = some b ∧
      b.toNat + (t.stageTimes.modify t.stage (·.closed now)).closedTime = now.toNat ∧
      (t.stageTimes.modify t.stage (·.closed now)).closings = t.stageTimes.closings + 1 := by
  obtain ⟨x, hx⟩ := Option.isSome_iff_exists.1 (h.wellStaged.current htimed).1
  obtain ⟨b, hleft, htime, hlast, hopen⟩ := h.account htimed.1
  obtain ⟨hadded, hnumber⟩ := StageTimes.sums_closed hx (h.wellStaged.stop?_current hworking) now
  rw [← hopen hworking x hx] at htime hlast
  exact ⟨b, hleft, by omega, hnumber⟩

/-! ### One change -/

/-- A stage that opens adds no time to that of the stage that closes, and it is open since now. -/
theorem WellStaged.move_sums {target : TaskStage} (h : t.WellStaged)
    (hlt : t.stage.rank < target.rank)
    (htimes : t'.stageTimes =
      (t.stageTimes.modify t.stage (·.closed now)).modify target (·.opened now)) :
    t'.stageTimes.closedTime = (t.stageTimes.modify t.stage (·.closed now)).closedTime ∧
      t'.stageTimes.closings = (t.stageTimes.modify t.stage (·.closed now)).closings ∧
      ∀ x, t'.stageTimes.start? target = some x → x = now := by
  obtain ⟨hstart, hstop⟩ := h.beyond target hlt
  have hahead : (t.stageTimes.modify t.stage (·.closed now)).stop? target = none := by
    rw [StageTimes.stop?_closed, if_neg fun he => absurd (congrArg TaskStage.rank he.1) hlt.ne']
    exact hstop
  refine ⟨?_, ?_, fun x hx => ?_⟩
  · rw [htimes, StageTimes.closedTime_opened hahead]
  · rw [htimes, StageTimes.closings_opened]
  · have htimed := StageTimes.isTimed_of_start? (Option.isSome_of_eq_some hx)
    rw [htimes, StageTimes.start?_opened, if_pos ⟨rfl, htimed⟩, StageTimes.start?_closed,
      hstart] at hx
    exact (Option.some.inj hx).symm

/-- Nothing is left or closed where the stage and its times stay as they are. -/
theorem Staged.congr (h : t.Staged left closed now) (hstage : t'.stage = t.stage)
    (htimes : t'.stageTimes = t.stageTimes) (hstatus : t'.status = .error ↔ t.status = .error) :
    t'.Staged (t'.leftBy now left) (closedBy now closed t t') now := by
  rw [h.leftBy_eq hstage, closedBy_of_eq (congrArg StageTimes.closings htimes)]
  refine ⟨h.wellStaged.congr hstage htimes hstatus, ?_, ?_⟩
  · rw [hstage, htimes]
    exact h.begin
  · rw [hstage, htimes]
    intro hbegin
    obtain ⟨b, hleft, htime, hlast, hopen⟩ := h.account hbegin
    exact ⟨b, hleft, htime, hlast, fun hworking => hopen fun he => hworking (hstatus.2 he)⟩

/-- A task that moves on leaves the first stage, or closes the one that it is in. -/
theorem Staged.of_applyStage {target : TaskStage} (h : t.Staged left closed now)
    (happly : t.applyStage target now = .ok t') :
    t'.Staged (t'.leftBy now left) (closedBy now closed t t') now := by
  rcases applyStage_cases happly with ⟨-, rfl⟩ | ⟨hlt, hworking, hstatus, hstage, htimes⟩
  · exact h.congr rfl rfl .rfl
  · have hwell := h.wellStaged.move hworking (h.begun hworking) hlt hstatus hstage htimes
    have htarget : t'.stage ≠ .begin := by
      rw [hstage]
      rintro rfl
      exact Nat.not_lt_zero _ hlt
    obtain ⟨htime, hnumber, hopened⟩ := h.wellStaged.move_sums hlt htimes
    rw [← hstage] at hopened
    refine ⟨hwell, fun hbegin => absurd hbegin htarget, fun _ => ?_⟩
    by_cases hbegin : t.stage = .begin
    · obtain ⟨rfl, rfl, hzero⟩ := h.begin hbegin
      -- the first stage is not timed, so none is closed
      rw [hbegin] at htime hnumber
      rw [leftBy, if_neg htarget, closedBy_of_eq hnumber]
      refine ⟨now, rfl, ?_, le_rfl, fun _ => hopened⟩
      rw [htime]
      exact congrArg (now.toNat + ·) hzero
    · have hpos : TaskStage.begin.rank < t.stage.rank :=
        Nat.pos_of_ne_zero fun hzero => hbegin (TaskStage.rank_inj.1 hzero)
      have htimed : t.stage.IsTimed := TaskStage.isTimed_of_lt_of_lt hpos hlt
      obtain ⟨b, rfl, hadded, hone⟩ := h.close hworking htimed
      rw [closedBy_of_succ (hnumber.trans hone)]
      refine ⟨b, rfl, ?_, le_rfl, fun _ => hopened⟩
      rw [htime]
      exact hadded

/-- Only an error closes a stage. -/
theorem Staged.of_applyStatus {target : TaskStatus} (h : t.Staged left closed now)
    (happly : t.applyStatus target now = .ok t') :
    t'.Staged (t'.leftBy now left) (closedBy now closed t t') now := by
  rcases applyStatus_cases happly with ⟨-, rfl⟩ | ⟨hne, hcan, hstatus, hstage, htimes⟩
  · exact h.congr rfl rfl .rfl
  · have hworking := TaskStatus.ne_error_of_canBecome hne hcan
    by_cases herror : target = .error
    case neg =>
      rw [if_neg herror] at htimes
      exact h.congr hstage htimes (iff_of_false (hstatus ▸ herror) hworking)
    case pos =>
      rw [if_pos herror, h.wellStaged.stageTimes_abortStage] at htimes
      have hfailed : t'.status = .error := hstatus.trans herror
      -- failing closes the stage that the task is in, and the account with it
      have hwell := h.wellStaged.fail hworking (h.begun hworking) hfailed hstage htimes
      rw [h.leftBy_eq hstage]
      by_cases htimed : t.stage.IsTimed
      · obtain ⟨b, rfl, hadded, hone⟩ := h.close hworking htimed
        rw [closedBy_of_succ ((congrArg StageTimes.closings htimes).trans hone)]
        refine ⟨hwell, fun hbegin => absurd (hstage.symm.trans hbegin) htimed.1, fun _ => ?_⟩
        refine ⟨b, rfl, ?_, le_rfl, fun hw => absurd hfailed hw⟩
        rw [htimes]
        exact hadded
      · -- there is no stage to close
        rw [StageTimes.modify_of_not_isTimed htimed] at htimes
        rw [closedBy_of_eq (congrArg StageTimes.closings htimes)]
        refine ⟨hwell, ?_, fun hbegin => ?_⟩
        · rw [hstage, htimes]
          exact h.begin
        · rw [hstage] at hbegin
          obtain ⟨b, hb, htime, hlast, -⟩ := h.account hbegin
          rw [← htimes] at htime
          exact ⟨b, hb, htime, hlast, fun hw => absurd hfailed hw⟩

/-! ### All that is done at one time -/

/-- What was left twice at one time was left then. -/
theorem leftBy_leftBy (h : t.Advances t') :
    t'.leftBy now (t.leftBy now left) = t'.leftBy now left := by
  have hstage : t'.stage = .begin → t.stage = .begin := by
    intro hbegin
    have hrank := h.rank
    rw [hbegin] at hrank
    exact TaskStage.rank_inj.1 (Nat.le_zero.1 hrank)
  rw [leftBy, leftBy, leftBy, Option.or_assoc]
  by_cases hbegin : t.stage = .begin
  · rw [if_pos hbegin, Option.none_or]
  · rw [if_neg hbegin, if_neg fun hb => hbegin (hstage hb), Option.some_or]

/-- If both changes close no stage then their number is the same, and otherwise it is not: it never
falls. -/
theorem closedBy_closedBy {u : Task} (htu : t.Advances u) (hut' : u.Advances t') :
    closedBy now (closedBy now closed t u) u t' = closedBy now closed t t' := by
  have hfirst := htu.stamps.closings_le
  have hsecond := hut'.stamps.closings_le
  unfold closedBy
  split
  case isTrue hsame => rw [hsame]
  case isFalse hmore => rw [if_neg (by omega)]

/-- Changes at the same time are like one change: what they left or closed, they left or closed
then. -/
theorem Staged.of_becomes (h : t.Staged left closed now) (hbecomes : t.Becomes now t') :
    t'.Staged (t'.leftBy now left) (closedBy now closed t t') now := by
  -- the stages that were left and closed are those before the step and those of the step
  have hnext {u u' : Task} (hbefore : t.Becomes now u) (hadvances : u.Advances u')
      (hu' : u'.Staged (u'.leftBy now (u.leftBy now left))
        (closedBy now (closedBy now closed t u) u u') now) :
      u'.Staged (u'.leftBy now left) (closedBy now closed t u') now := by
    rw [leftBy_leftBy hadvances, closedBy_closedBy (advances_of_becomes hbefore) hadvances] at hu'
    exact hu'
  induction hbecomes with
  | refl => exact h.congr rfl rfl .rfl
  | kept hbefore hsame ih =>
    refine hnext hbefore (advances_of_sameStages hsame) (ih.congr hsame.stage hsame.stageTimes ?_)
    rw [hsame.status]
  | staged hbefore happly ih =>
    exact hnext hbefore (advances_of_applyStage happly) (ih.of_applyStage happly)
  | moved hbefore happly ih =>
    exact hnext hbefore (advances_of_applyStatus happly) (ih.of_applyStatus happly)
  | cascaded hbefore hcascade hsource ih =>
    obtain ⟨-, hworking, htarget⟩ := TaskStatus.of_mem_cascades hcascade hsource
    exact hnext hbefore (advances_of_cascade hcascade hsource)
      (ih.congr rfl rfl (iff_of_false htarget hworking))

/-! ### What a reader is told -/

/-- The sum of the durations does not overflow where the time that they are of does not. -/
theorem toNat_runningDuration (h : t.stageTimes.closedTime < 2 ^ 64) :
    t.refresh.runningDuration.toNat = t.stageTimes.closedTime := by
  have hsum : t.refresh.runningDuration = t.stageTimes.training.closedLength +
      t.stageTimes.predicting.closedLength + t.stageTimes.evaluating.closedLength := rfl
  rw [StageTimes.closedTime, StageTimes.sum] at h ⊢
  rw [hsum, UInt64.toNat_add, UInt64.toNat_add]
  omega

/-- The closed time does not exceed what a clock can show. -/
theorem Staged.closedTime_lt (h : t.Staged left closed now) : t.stageTimes.closedTime < 2 ^ 64 := by
  by_cases hstage : t.stage = .begin
  · rw [(h.begin hstage).2.2]
    decide
  · obtain ⟨b, -, htime, -, -⟩ := h.account hstage
    have hlt := (closed.getD b).toNat_lt
    omega

/-- Between the time when the task left its first stage and the last closing everything is accounted
for. -/
theorem Staged.closedTime_eq (h : t.Staged left closed now) :
    (closed = none → t.stageTimes.closedTime = 0) ∧
      ∀ c, closed = some c → ∃ b, left = some b ∧ b.toNat + t.stageTimes.closedTime = c.toNat := by
  by_cases hstage : t.stage = .begin
  · obtain ⟨-, rfl, hzero⟩ := h.begin hstage
    exact ⟨fun _ => hzero, nofun⟩
  · obtain ⟨b, hleft, htime, -, -⟩ := h.account hstage
    refine ⟨?_, ?_⟩
    · rintro rfl
      rw [Option.getD_none] at htime
      omega
    · rintro c rfl
      exact ⟨b, hleft, htime⟩

end Task

/-! ## Runs -/

namespace Store

variable {s t : Store} {first now : Millis} {past : Chronicle} {v : Task}

/-- A run without infinite qualities keeps the store clear. -/
theorem Evolves.clear {allowed : Access → Prop} (h : s.Evolves allowed first past now t)
    (hallowed : ∀ a, allowed a → a.IsFinite) (hs : s.Clear) : t.Clear := by
  induction h with
  | start => exact hs
  | step _ _ ha ih => exact Access.clear_after ih (hallowed _ ha)

/-- The task under the id has left its first stage. -/
def taskBegun (id : String) (s : Store) : Bool := (s.shown? Task id).any (·.stage ≠ .begin)

/-- The number of stages that the task under the id has closed. -/
def taskClosings (id : String) (s : Store) : Nat :=
  ((s.shown? Task id).map (·.stageTimes.closings)).getD 0

/-- Whether a task has begun, as it is read. -/
theorem taskBegun_of_document? {id : String} (h : s.document? id = .ok (some v)) :
    s.taskBegun id = decide (v.stage ≠ .begin) := by
  rw [taskBegun, shown?_of_document? h]
  rfl

/-- How many stages it has closed, as it is read. -/
theorem taskClosings_of_document? {id : String} (h : s.document? id = .ok (some v)) :
    s.taskClosings id = v.stageTimes.closings := by
  rw [taskClosings, shown?_of_document? h]
  rfl

/-- A reader finds a stored task with its owner, its status and its stages. -/
theorem Clear.exists_read (hs : s.Clear) (hv : s.Has v) :
    ∃ v' : Task, s.document? v.id = .ok (some v') ∧ v'.user = v.user ∧ v.SameStages v' := by
  obtain ⟨v', hdecode⟩ := hs.tasks v.id _ hv
  have hread : s.document? v.id = .ok (some v') := document?_eq_ok_some.2 ⟨_, hv, hdecode⟩
  obtain ⟨_, _, _, _, rfl⟩ := Task.of_decode_encode hdecode
  exact ⟨_, hread, rfl, rfl, rfl, rfl⟩

/-- The stages of a task know what happened to it. -/
theorem Evolves.exists_staged
    (h : s.Evolves (fun a => a.IsFinite ∧ a.IsOrderly) first past now t) (hs : s.Clear)
    (hv : s.Has v) (hstage : v.stage = .begin) (hstaged : v.Staged none none first) :
    ∃ v' : Task, t.Has v' ∧ v'.id = v.id ∧ v'.user = v.user ∧
      v'.Staged (Chronicle.firstTime? (taskBegun v.id) ((now, t) :: past))
        (Chronicle.lastChange? (taskClosings v.id) ((now, t) :: past)) now := by
  induction h with
  | start =>
    obtain ⟨v', hread, -, hsame⟩ := hs.exists_read hv
    have hbegun : s.taskBegun v.id = false := by
      rw [taskBegun_of_document? hread, hsame.stage, hstage]
      rfl
    refine ⟨v, hv, rfl, rfl, ?_⟩
    rw [Chronicle.firstTime?, Chronicle.firstTime?, hbegun]
    exact hstaged
  | @step past m now t a hbefore hnow ha ih =>
    obtain ⟨u, hu, hid, huser, hstaged⟩ := ih
    -- the task is read before the access and behind it, with the stages that were written
    have hclear := hbefore.clear (fun _ h => h.1) hs
    have hclear' : (a.after now t).Clear := Access.clear_after hclear ha.1
    obtain ⟨u', hu', hid', huser', hbecomes⟩ :=
      Access.exists_task_after hclear.wellFormed ha.2 hu now
    obtain ⟨w, hread, -, hsame⟩ := hclear.exists_read hu
    obtain ⟨w', hread', -, hsame'⟩ := hclear'.exists_read hu'
    rw [hid] at hread
    rw [hid', hid] at hread'
    refine ⟨u', hu', hid'.trans hid, huser'.trans huser, ?_⟩
    have hleft : Chronicle.firstTime? (taskBegun v.id) ((now, a.after now t) :: (m, t) :: past) =
        u'.leftBy now (Chronicle.firstTime? (taskBegun v.id) ((m, t) :: past)) := by
      rw [Chronicle.firstTime?, taskBegun_of_document? hread', hsame'.stage, Task.leftBy]
      by_cases hbegin : u'.stage = .begin <;> simp [hbegin]
    have hclosed :
        Chronicle.lastChange? (taskClosings v.id) ((now, a.after now t) :: (m, t) :: past) =
        Task.closedBy now (Chronicle.lastChange? (taskClosings v.id) ((m, t) :: past)) u u' := by
      rw [Chronicle.lastChange?, taskClosings_of_document? hread, taskClosings_of_document? hread',
        hsame.stageTimes, hsame'.stageTimes, Task.closedBy]
    rw [hleft, hclosed]
    exact (hstaged.pass (UInt64.le_iff_toNat_le.1 hnow)).of_becomes hbecomes

end Store

/-! ## A task that breaks off -/

/-- A run goes on with a change of a task that can be read. -/
theorem Store.Evolves.put_changed {first m now : Millis} {s t : Store} {past : Chronicle}
    (h : s.Evolves (fun a => a.IsFinite ∧ a.IsOrderly) first past m t) {v v' : Task} (hv : t.Has v)
    (hsound : Document.Sound v) {u : TaskUpdate} (hu : u.IsFinite) (happly : v.apply now u = .ok v')
    (hnow : m ≤ now) :
    s.Evolves (fun a => a.IsFinite ∧ a.IsOrderly) first ((m, t) :: past) now (t.put v') := by
  have hread : t.document? v.id = .ok (some v) := document?_eq_ok_some.2 ⟨_, hv, hsound⟩
  have hchange : Task.change now .root v.id u t = .ok (v'.refresh, t.put v') :=
    Task.change_eq_ok.2 ⟨v, v', hread, rfl, happly, rfl, rfl⟩
  have hafter : (Access.updateTask .root v.id u).after now t = t.put v' :=
    Access.after_eq_of_ok (Transaction.map_eq_ok.2 ⟨_, hchange, rfl⟩)
  rw [← hafter]
  exact .step h hnow ⟨hu, trivial⟩

namespace Workbench

/-- The task at work, and broken off. -/
def training : Task :=
  { task with stage := .training, stageTimes := { training := ⟨some 10, none⟩ } }.refresh

def predicting : Task :=
  { training with
    stage := .predicting
    stageTimes := { training := ⟨some 10, some 20⟩, predicting := ⟨some 20, none⟩ } }.refresh

def brokenOff : Task :=
  { predicting with
    status := .error
    stageTimes := { training := ⟨some 10, some 20⟩, predicting := ⟨some 20, some 35⟩ } }.refresh

def breakdown : Store := (((store.put task).put training).put predicting).put brokenOff

/-- The stores that the task was in before. -/
def stages : Chronicle := [
  (20, ((store.put task).put training).put predicting), (10, (store.put task).put training),
  (0, store.put task)]

/-- The run of the example, up to the failure of the task. -/
theorem evolves_breakdown :
    (store.put task).Evolves (fun a => a.IsFinite ∧ a.IsOrderly) 0 stages 35 breakdown := by
  have htraining : task.apply 10 { stage := some .training } = .ok training := rfl
  have hpredicting : training.apply 20 { stage := some .predicting } = .ok predicting := rfl
  have hbrokenOff : predicting.apply 35 { status := some .error } = .ok brokenOff := rfl
  have hstart :
      (store.put task).Evolves (fun a => a.IsFinite ∧ a.IsOrderly) 0 [] 0 (store.put task) :=
    .start
  have h₁ :=
    hstart.put_changed (Store.has_put_self _ _) sound_task (by decide) htraining (by decide)
  have h₂ := h₁.put_changed (Store.has_put_self _ _) (Task.sound_of_qualities_eq sound_task rfl)
    (by decide) hpredicting (by decide)
  exact h₂.put_changed (Store.has_put_self _ _) (Task.sound_of_qualities_eq sound_task rfl)
    (by decide)
    hbrokenOff (by decide)

/-- A task with the qualities of the example is read back as it was put. -/
theorem read_put (s : Store) {v : Task} (h : v.qualities = task.qualities) :
    (s.put v).document? v.id = .ok (some v) :=
  Store.document?_eq_ok_some.2 ⟨_, Store.has_put_self s v, Task.sound_of_qualities_eq sound_task h⟩

/-- The last stage was closed by the failure. -/
theorem lastChange_stages :
    Chronicle.lastChange? (Store.taskClosings task.id) ((35, breakdown) :: stages) = some 35 := by
  have hpredicting : (((store.put task).put training).put predicting).taskClosings task.id = 1 :=
    Store.taskClosings_of_document? (read_put _ (v := predicting) rfl)
  have hbrokenOff : breakdown.taskClosings task.id = 2 :=
    Store.taskClosings_of_document? (read_put _ (v := brokenOff) rfl)
  rw [stages, Chronicle.lastChange?, hpredicting, hbrokenOff]
  rfl

/-- The task began with its first stage. -/
theorem firstTime_stages :
    Chronicle.firstTime? (Store.taskBegun task.id) ((35, breakdown) :: stages) = some 10 := by
  have htask : (store.put task).taskBegun task.id = false :=
    Store.taskBegun_of_document? (read_put _ (v := task) rfl)
  have htraining : ((store.put task).put training).taskBegun task.id = true :=
    Store.taskBegun_of_document? (read_put _ (v := training) rfl)
  rw [stages, Chronicle.firstTime?, Chronicle.firstTime?, Chronicle.firstTime?,
    Chronicle.firstTime?, Chronicle.firstTime?, htask, htraining]
  rfl

end Workbench

/-! ## The result -/

/-- **The times of stages add up.** Whatever is done about a task since it was created, while the
clock does not go back, whoever may see the task reads it with stages that are well formed, and with
a running duration that is the sum of their lengths, without overflow. This is the time from when
the task left its first stage to when it last closed a stage, and zero as long as it has closed
none. -/
theorem stage_times_add_up {t₀ : Millis} {caller : Caller} {new : NewTask} {s₀ s₁ : Store}
    {r : Task} (hs₀ : s₀.WellFormed) (hcreate : Task.create t₀ caller new s₀ = .ok (r, s₁))
    {past : Chronicle}
    {now : Millis} {s : Store}
    (hrun : s₁.Evolves (fun a => a.IsFinite ∧ a.IsOrderly) t₀ past now s) :
    ∃ v : Task, (∀ (t : Millis) (c : Caller), c.canSee r.user = true →
        Task.fetchVisible t c r.id s = .ok (v, s)) ∧
      v.WellStaged ∧ v.runningDuration.toNat = v.stageTimes.closedTime ∧
      (Chronicle.lastChange? (Store.taskClosings r.id) ((now, s) :: past) = none →
        v.runningDuration = 0) ∧
      ∀ c, Chronicle.lastChange? (Store.taskClosings r.id) ((now, s) :: past) = some c →
        ∃ b, Chronicle.firstTime? (Store.taskBegun r.id) ((now, s) :: past) = some b ∧
          b.toNat + v.runningDuration.toNat = c.toNat := by
  -- the tasks were counted, so all of them could be read
  obtain ⟨j, n, hclear₀, rfl, rfl⟩ : ∃ j n, s₀.Clear ∧ s₁ = s₀.put (Task.initial t₀ j n new) ∧
      r = (Task.initial t₀ j n new).refresh := by
    obtain ⟨j, ts, -, -, -, -, hts, -, rfl, rfl⟩ := Task.create_eq_ok.1 hcreate
    exact ⟨j, _, ⟨hs₀, fun k text hfind => Store.exists_decode_of_documents hts hfind⟩, rfl, rfl⟩
  have hclear₁ : (s₀.put (Task.initial t₀ j n new)).Clear :=
    hclear₀.put_task fun x hx => Task.isFinite_initial hx
  obtain ⟨u, hu, hid, huser, hstaged⟩ := hrun.exists_staged hclear₁ (Store.has_put_self _ _) rfl
    (Task.staged_initial t₀ j n new)
  obtain ⟨v, hread, hvuser, hsame⟩ := (hrun.clear (fun _ h => h.1) hclear₁).exists_read hu
  have hduration : v.refresh.runningDuration.toNat = u.stageTimes.closedTime := by
    rw [← hsame.stageTimes]
    refine Task.toNat_runningDuration ?_
    rw [hsame.stageTimes]
    exact hstaged.closedTime_lt
  obtain ⟨hnone, hsome⟩ := hstaged.closedTime_eq
  refine ⟨v.refresh, fun t c hc => ?_, ?_, ?_, fun hunclosed => ?_, fun c hclosed => ?_⟩
  · rw [hid] at hread
    refine Task.fetchVisible_eq_ok.2 ⟨v, hread, ?_, rfl, rfl⟩
    rw [hvuser, huser]
    exact hc
  · refine hstaged.wellStaged.congr hsame.stage hsame.stageTimes ?_
    rw [← hsame.status]
    rfl
  · exact hduration.trans (congrArg StageTimes.closedTime hsame.stageTimes).symm
  · exact UInt64.toNat_inj.1 (hduration.trans (hnone hunclosed))
  · rw [hduration]
    exact hsome c hclosed

/-- A task that began at 10 and broke off at 35 has run for 25. -/
theorem stage_times_add_up_until_breakdown : ∃ v : Task,
    Task.fetchVisible 35 .root Workbench.task.id Workbench.breakdown =
      .ok (v, Workbench.breakdown) ∧
      v.WellStaged ∧ v.runningDuration.toNat = 25 := by
  obtain ⟨v, hfetch, hwell, -, -, hclosed⟩ := stage_times_add_up Workbench.reachable.wellFormed
    Workbench.createTask_eq_ok Workbench.evolves_breakdown
  obtain ⟨b, hb, hduration⟩ := hclosed 35 Workbench.lastChange_stages
  obtain rfl : b = 10 := Option.some.inj (hb.symm.trans Workbench.firstTime_stages)
  have hten : (10 : Millis).toNat = 10 := rfl
  have hlast : (35 : Millis).toNat = 35 := rfl
  rw [hten, hlast] at hduration
  exact ⟨v, hfetch 35 .root rfl, hwell, by omega⟩

end Fleet
