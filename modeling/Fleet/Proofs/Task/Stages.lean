import Fleet.Proofs.Task.Life

/-!
# Stages lie one behind the other

A task that moves on closes the stage that it is in and opens another one at the same time, possibly
past a stage, and a task that fails closes the stage that it is in. So the stages that a task enters
lie one behind the other without a gap (`Task.WellStaged`). Both changes have in common that the
current stage closes and that nothing up to it gets another start (`Task.Closes`), and all that is
behind them follows from this.
-/

set_option autoImplicit false

namespace Fleet

/-! ## Stages in their order -/

namespace TaskStage

/-- A stage that takes its time. -/
def IsTimed (k : TaskStage) : Prop := k ≠ .begin ∧ k ≠ .finished

instance (k : TaskStage) : Decidable k.IsTimed :=
  inferInstanceAs (Decidable (k ≠ .begin ∧ k ≠ .finished))

variable {k l m : TaskStage}

/-- Between two stages there are only timed ones. -/
theorem isTimed_of_lt_of_lt (hkl : k.rank < l.rank) (hlm : l.rank < m.rank) : l.IsTimed := by
  refine ⟨?_, ?_⟩
  · rintro rfl
    exact Nat.not_lt_zero _ hkl
  · rintro rfl
    have hm : m.rank ≤ 4 := by cases m <;> decide
    exact absurd hlm (Nat.not_lt.2 hm)

end TaskStage

/-! ## Stamps of stages -/

namespace StageTimes

variable {st : StageTimes} {k l : TaskStage} {now : Millis}

/-- When a stage began, if it is a timed one that did. -/
def start? (st : StageTimes) (k : TaskStage) : Option Millis := (st.interval? k).bind (·.start)

/-- When a stage was closed, if it is a timed one that was. -/
def stop? (st : StageTimes) (k : TaskStage) : Option Millis := (st.interval? k).bind (·.stop)

/-- The first and the last stage have no interval, so they have no start, -/
theorem start?_of_not_isTimed (h : ¬ k.IsTimed) : st.start? k = none := by
  cases k <;> first | rfl | exact absurd (by decide) h

/-- and no stop. -/
theorem stop?_of_not_isTimed (h : ¬ k.IsTimed) : st.stop? k = none := by
  cases k <;> first | rfl | exact absurd (by decide) h

/-- A modification depends on what it does to the interval that is there. -/
theorem modify_congr {f g : TimeInterval → TimeInterval}
    (h : ∀ i, st.interval? k = some i → f i = g i) :
    st.modify k f = st.modify k g := by
  cases k <;> simp_all [modify, interval?]

/-- Nothing is modified at a stage without an interval. -/
theorem modify_of_not_isTimed (h : ¬ k.IsTimed) (f : TimeInterval → TimeInterval) :
    st.modify k f = st := by
  cases k <;> first | rfl | exact absurd (by decide) h

/-- A stage with a start is a timed one. -/
theorem isTimed_of_start? (h : (st.start? k).isSome = true) : k.IsTimed := by
  by_contra htimed
  rw [start?_of_not_isTimed htimed] at h
  cases h

/-- So is a stage with a stop. -/
theorem isTimed_of_stop? (h : (st.stop? k).isSome = true) : k.IsTimed := by
  by_contra htimed
  rw [stop?_of_not_isTimed htimed] at h
  cases h

/-- Closing leaves every start. -/
theorem start?_closed (st : StageTimes) (k l : TaskStage) (now : Millis) :
    (st.modify k (·.closed now)).start? l = st.start? l := by
  cases k <;> cases l <;> rfl

/-- Closing sets the stop of its stage, if there was none. -/
theorem stop?_closed (st : StageTimes) (k l : TaskStage) (now : Millis) :
    (st.modify k (·.closed now)).stop? l =
      if l = k ∧ k.IsTimed then some ((st.stop? l).getD now) else st.stop? l := by
  cases k <;> cases l <;> rfl

/-- Opening sets the start of its stage, if there was none. -/
theorem start?_opened (st : StageTimes) (k l : TaskStage) (now : Millis) :
    (st.modify k (·.opened now)).start? l =
      if l = k ∧ k.IsTimed then some ((st.start? l).getD now) else st.start? l := by
  cases k <;> cases l <;> rfl

/-- Opening leaves every stop. -/
theorem stop?_opened (st : StageTimes) (k l : TaskStage) (now : Millis) :
    (st.modify k (·.opened now)).stop? l = st.stop? l := by
  cases k <;> cases l <;> rfl

end StageTimes

/-! ## Well-formed stages -/

/-- The second stage is the next one behind the first one that was entered. -/
structure StageTimes.Next (st : StageTimes) (k l : TaskStage) : Prop where
  lt : k.rank < l.rank
  entered : (st.start? l).isSome = true
  between : ∀ m, k.rank < m.rank → m.rank < l.rank → st.start? m = none

namespace Task

variable {left closed : Option Millis} {now later : Millis} {t t' : Task}

/-- The stamps of the stages fit the stage and the status: what lies ahead has none, the current
stage has begun and only an error has closed it, a stage behind it was passed through or skipped,
and a closed stage ends where the next one starts that was entered. -/
structure WellStaged (t : Task) : Prop where
  beyond : ∀ k, t.stage.rank < k.rank → t.stageTimes.start? k = none ∧ t.stageTimes.stop? k = none
  current : t.stage.IsTimed → (t.stageTimes.start? t.stage).isSome = true ∧
    ((t.stageTimes.stop? t.stage).isSome = true ↔ t.status = .error)
  earlier : ∀ k, k.rank < t.stage.rank →
    ((t.stageTimes.start? k).isSome = true ↔ (t.stageTimes.stop? k).isSome = true)
  ordered : ∀ k b e, t.stageTimes.start? k = some b → t.stageTimes.stop? k = some e →
    b.toNat ≤ e.toNat
  linked : ∀ k l, t.stageTimes.Next k l → ∀ e, t.stageTimes.stop? k = some e →
    t.stageTimes.start? l = some e

/-- A new task is well staged: it has no stamps. -/
theorem wellStaged_initial (now : Millis) (j : Job) (n : Nat) (new : NewTask) :
    (initial now j n new).WellStaged := by
  have hstart (k : TaskStage) : (initial now j n new).stageTimes.start? k = none := by
    cases k <;> rfl
  have hstop (k : TaskStage) : (initial now j n new).stageTimes.stop? k = none := by cases k <;> rfl
  refine ⟨fun k _ => ⟨hstart k, hstop k⟩, fun htimed => absurd rfl htimed.1, fun k _ => ?_,
    fun k b e hb => ?_, fun k l hnext => ?_⟩
  · rw [hstart, hstop]
  · rw [hstart] at hb
    cases hb
  · have hentered := hnext.entered
    rw [hstart] at hentered
    cases hentered

/-- A timed stage that is at work is open. -/
theorem WellStaged.stop?_current (h : t.WellStaged) (hstatus : t.status ≠ .error) :
    t.stageTimes.stop? t.stage = none := by
  by_cases htimed : t.stage.IsTimed
  · rw [← Option.not_isSome_iff_eq_none, (h.current htimed).2]
    exact hstatus
  · exact StageTimes.stop?_of_not_isTimed htimed

/-- What was entered is not ahead. -/
theorem WellStaged.le_of_start? {k : TaskStage} (h : t.WellStaged)
    (hk : (t.stageTimes.start? k).isSome = true) : k.rank ≤ t.stage.rank := by
  by_contra hlt
  rw [(h.beyond k (Nat.lt_of_not_le hlt)).1] at hk
  cases hk

/-- No stage beyond the task's own has a stop. -/
theorem WellStaged.le_of_stop? {k : TaskStage} (h : t.WellStaged)
    (hk : (t.stageTimes.stop? k).isSome = true) : k.rank ≤ t.stage.rank := by
  by_contra hlt
  rw [(h.beyond k (Nat.lt_of_not_le hlt)).2] at hk
  cases hk

/-- Breaking off closes the interval of the stage. -/
theorem WellStaged.stageTimes_abortStage (h : t.WellStaged) :
    (t.abortStage now).stageTimes = t.stageTimes.modify t.stage (·.closed now) := by
  have hbegun (i : TimeInterval) (hi : t.stageTimes.interval? t.stage = some i) :
      i.start.isSome = true := by
    have htimed : t.stage.IsTimed := by
      by_contra htimed
      cases hstage : t.stage <;> simp_all [StageTimes.interval?, TaskStage.IsTimed]
    have hstart := (h.current htimed).1
    rwa [StageTimes.start?, hi] at hstart
  exact StageTimes.modify_congr (f := fun i => if i.start.isSome then i.closed now else i)
    (g := fun i => i.closed now) fun i hi => if_pos (hbegun i hi)

/-- Whatever leaves the stage and its times alone, and is neither the way into an error nor out of
one. -/
theorem WellStaged.congr (h : t.WellStaged) (hstage : t'.stage = t.stage)
    (htimes : t'.stageTimes = t.stageTimes) (hstatus : t'.status = .error ↔ t.status = .error) :
    t'.WellStaged := by
  refine ⟨?_, ?_, ?_, ?_, ?_⟩
  · rw [hstage, htimes]
    exact h.beyond
  · rw [hstage, htimes, hstatus]
    exact h.current
  · rw [hstage, htimes]
    exact h.earlier
  · rw [htimes]
    exact h.ordered
  · rw [htimes]
    exact h.linked

/-! ### The current stage closes -/

/-- The current stage of the first task, which is at work, is closed in the second one. No stage up
to it has another start, and no other stage another end. -/
structure Closes (now : Millis) (t t' : Task) : Prop where
  wellStaged : t.WellStaged
  working : t.status ≠ .error
  begun : ∀ b, t.stageTimes.start? t.stage = some b → b.toNat ≤ now.toNat
  start : ∀ k, k.rank ≤ t.stage.rank → t'.stageTimes.start? k = t.stageTimes.start? k
  stop : ∀ k, k ≠ t.stage → t'.stageTimes.stop? k = t.stageTimes.stop? k
  closed : t.stage.IsTimed → t'.stageTimes.stop? t.stage = some now

namespace Closes

variable {k l : TaskStage} {b e : Millis}

/-- A stage of another rank keeps its stop. -/
theorem stop_of_rank_ne (h : Closes now t t') (hk : k.rank ≠ t.stage.rank) :
    t'.stageTimes.stop? k = t.stageTimes.stop? k := h.stop k fun he => hk (he ▸ rfl)

/-- Up to the current stage a stage was passed through or skipped. -/
theorem earlier (h : Closes now t t') (hk : k.rank ≤ t.stage.rank) :
    (t'.stageTimes.start? k).isSome = true ↔ (t'.stageTimes.stop? k).isSome = true := by
  rw [h.start k hk]
  rcases hk.lt_or_eq with hlt | heq
  · rw [h.stop_of_rank_ne hlt.ne]
    exact h.wellStaged.earlier k hlt
  · obtain rfl := TaskStage.rank_inj.1 heq
    constructor
    · intro hstart
      rw [h.closed (StageTimes.isTimed_of_start? hstart)]
      rfl
    · exact fun hstop => (h.wellStaged.current (StageTimes.isTimed_of_stop? hstop)).1

/-- The stop that is set does not come before the start. -/
theorem ordered (h : Closes now t t') (hk : k.rank ≤ t.stage.rank)
    (hb : t'.stageTimes.start? k = some b) (he : t'.stageTimes.stop? k = some e) :
    b.toNat ≤ e.toNat := by
  rw [h.start k hk] at hb
  by_cases hcurrent : k = t.stage
  · subst hcurrent
    rw [h.closed (StageTimes.isTimed_of_start? (Option.isSome_of_eq_some hb))] at he
    cases he
    exact h.begun b hb
  · rw [h.stop k hcurrent] at he
    exact h.wellStaged.ordered k b e hb he

/-- Two stages up to the current one were there before, and so was what is between them. -/
theorem linked (h : Closes now t t') (hnext : t'.stageTimes.Next k l) (hl : l.rank ≤ t.stage.rank)
    (he : t'.stageTimes.stop? k = some e) : t'.stageTimes.start? l = some e := by
  have hentered := hnext.entered
  rw [h.start l hl] at hentered ⊢
  rw [h.stop_of_rank_ne (hnext.lt.trans_le hl).ne] at he
  refine h.wellStaged.linked k l ⟨hnext.lt, hentered, fun m hkm hml => ?_⟩ e he
  rw [← h.start m (hml.le.trans hl)]
  exact hnext.between m hkm hml

end Closes

/-- An error closes the current stage. -/
theorem WellStaged.fail (h : t.WellStaged) (hworking : t.status ≠ .error)
    (hbegun : ∀ b, t.stageTimes.start? t.stage = some b → b.toNat ≤ now.toNat)
    (hstatus : t'.status = .error) (hstage : t'.stage = t.stage)
    (htimes : t'.stageTimes = t.stageTimes.modify t.stage (·.closed now)) : t'.WellStaged := by
  have hstart (k : TaskStage) : t'.stageTimes.start? k = t.stageTimes.start? k := by
    rw [htimes, StageTimes.start?_closed]
  -- failing closes the stage that the task was in and opens none
  have hcloses : Closes now t t' := by
    refine ⟨h, hworking, hbegun, fun k _ => hstart k, fun k hk => ?_, fun htimed => ?_⟩
    · rw [htimes, StageTimes.stop?_closed, if_neg fun he => hk he.1]
    · rw [htimes, StageTimes.stop?_closed, if_pos ⟨rfl, htimed⟩, h.stop?_current hworking,
        Option.getD_none]
  have hle {k : TaskStage} (hk : (t'.stageTimes.start? k).isSome = true) : k.rank ≤ t.stage.rank :=
    h.le_of_start? (hstart k ▸ hk)
  refine ⟨fun k hk => ?_, fun htimed => ?_, fun k hk => ?_, fun k b e hb he => ?_,
    fun k l hnext e he => ?_⟩
  · rw [hstage] at hk
    rw [hstart, hcloses.stop_of_rank_ne hk.ne']
    exact h.beyond k hk
  · rw [hstage] at htimed ⊢
    rw [hstart, hcloses.closed htimed]
    exact ⟨(h.current htimed).1, fun _ => hstatus, fun _ => rfl⟩
  · rw [hstage] at hk
    exact hcloses.earlier hk.le
  · exact hcloses.ordered (hle (Option.isSome_of_eq_some hb)) hb he
  · exact hcloses.linked hnext (hle hnext.entered) he

/-- A task that moves on closes the current stage and opens another one at the same time. -/
theorem WellStaged.move {target : TaskStage} (h : t.WellStaged) (hworking : t.status ≠ .error)
    (hbegun : ∀ b, t.stageTimes.start? t.stage = some b → b.toNat ≤ now.toNat)
    (hlt : t.stage.rank < target.rank) (hstatus : t'.status = t.status) (hstage : t'.stage = target)
    (htimes : t'.stageTimes =
      (t.stageTimes.modify t.stage (·.closed now)).modify target (·.opened now)) :
    t'.WellStaged := by
  have hstart {k : TaskStage} (hk : k ≠ target) :
      t'.stageTimes.start? k = t.stageTimes.start? k := by
    rw [htimes, StageTimes.start?_opened, if_neg fun he => hk he.1, StageTimes.start?_closed]
  have hopened (htimed : target.IsTimed) : t'.stageTimes.start? target = some now := by
    rw [htimes, StageTimes.start?_opened, if_pos ⟨rfl, htimed⟩, StageTimes.start?_closed,
      (h.beyond target hlt).1, Option.getD_none]
  have hne {k : TaskStage} (hk : k.rank ≠ target.rank) : k ≠ target := fun he => hk (he ▸ rfl)
  -- up to the current stage all is as in a task whose stage closes
  have hcloses : Closes now t t' := by
    refine ⟨h, hworking, hbegun, fun k hk => hstart (hne (hk.trans_lt hlt).ne), fun k hk => ?_,
      fun htimed => ?_⟩
    · rw [htimes, StageTimes.stop?_opened, StageTimes.stop?_closed, if_neg fun he => hk he.1]
    · rw [htimes, StageTimes.stop?_opened, StageTimes.stop?_closed, if_pos ⟨rfl, htimed⟩,
        h.stop?_current hworking, Option.getD_none]
  have hahead : t'.stageTimes.stop? target = none :=
    (hcloses.stop_of_rank_ne hlt.ne').trans (h.beyond target hlt).2
  have hle {k : TaskStage} (hk : k ≠ target) (hentered : (t'.stageTimes.start? k).isSome = true) :
      k.rank ≤ t.stage.rank := h.le_of_start? (hstart hk ▸ hentered)
  refine ⟨fun k hk => ?_, fun htimed => ?_, fun k hk => ?_, fun k b e hb he => ?_,
    fun k l hnext e he => ?_⟩
  · rw [hstage] at hk
    rw [hstart (hne hk.ne'), hcloses.stop_of_rank_ne (hlt.trans hk).ne']
    exact h.beyond k (hlt.trans hk)
  · rw [hstage] at htimed ⊢
    rw [hopened htimed, hahead, hstatus]
    exact ⟨rfl, iff_of_false nofun hworking⟩
  · rw [hstage] at hk
    rcases Nat.lt_or_ge t.stage.rank k.rank with hskipped | hpassed
    · rw [hstart (hne hk.ne), hcloses.stop_of_rank_ne hskipped.ne', (h.beyond k hskipped).1,
        (h.beyond k hskipped).2]
    · exact hcloses.earlier hpassed
  · have hk : k ≠ target := by
      rintro rfl
      rw [hahead] at he
      cases he
    exact hcloses.ordered (hle hk (Option.isSome_of_eq_some hb)) hb he
  · by_cases hl : l = target
    case neg => exact hcloses.linked hnext (hle hl hnext.entered) he
    case pos =>
      subst hl
      rw [hopened (StageTimes.isTimed_of_start? hnext.entered), ← he]
      by_cases hk : k = t.stage
      · rw [hk] at he ⊢
        exact (hcloses.closed (StageTimes.isTimed_of_stop? (Option.isSome_of_eq_some he))).symm
      · -- the stage that was current lies between the two, and it was entered
        rw [hcloses.stop k hk] at he
        have hbefore : k.rank < t.stage.rank :=
          (h.le_of_stop? (Option.isSome_of_eq_some he)).lt_of_ne fun heq =>
            hk (TaskStage.rank_inj.1 heq)
        have hskipped := hnext.between t.stage hbefore hlt
        have hentered := (h.current (TaskStage.isTimed_of_lt_of_lt hbefore hlt)).1
        rw [hcloses.start t.stage le_rfl] at hskipped
        rw [hskipped] at hentered
        cases hentered

end Task

end Fleet
