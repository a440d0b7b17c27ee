import Fleet.Config
import Fleet.Proofs.Registry.Pass
import Fleet.Proofs.Store.Tidying

/-!
# Timeouts of the reaper

A pass takes the stale process that was silent for longest, so of two passes at the same time the
one with the earlier threshold does what the other one does until it finds nothing more
(`point_of_le`); the processes that it terminates are the first ones of the other pass. This asks
nothing of the store, not even that a document lies under its own key.

The threshold comes from the milliseconds of the timeout that remain of `2 ^ 64`, and so does what
is said of two timeouts here. Below `2 ^ 64` milliseconds a longer timeout leaves more of itself;
beyond, it may leave less.
-/

set_option autoImplicit false

namespace Fleet

open Store

/-! ## The first of more -/

/-- The first of some elements is the first of all, if the others come behind those. -/
theorem least?_of_filter {α : Type} {order : α → α → Ordering} [Std.TransCmp order]
    (test : α → Bool) {as : List α} {a : α} (h : least? order (as.filter test) = some a)
    (hbehind : ∀ b ∈ as, ∀ c ∈ as, test b = true → test c = false → order b c = .lt) :
    least? order as = some a := by
  induction as generalizing a with
  | nil => cases h
  | cons c as ih =>
    have hrest : ∀ b ∈ as, ∀ d ∈ as, test b = true → test d = false → order b d = .lt :=
      fun b hb d hd => hbehind b (List.mem_cons_of_mem c hb) d (List.mem_cons_of_mem c hd)
    rw [least?]
    by_cases hc : test c = true
    · rw [List.filter_cons_of_pos hc, least?] at h
      cases hfiltered : least? order (as.filter test) with
      | some b =>
        rw [hfiltered] at h
        rw [ih hfiltered hrest]
        exact h
      | none =>
        -- all others come behind `c`
        rw [hfiltered] at h
        obtain rfl := Option.some.inj h
        cases hall : least? order as with
        | none => rfl
        | some b =>
          have hb := least?_mem hall
          have hnot : test b = false := by
            by_contra htest
            have hmem : b ∈ as.filter test := List.mem_filter.2 ⟨hb, by simpa using htest⟩
            rw [least?_eq_none.1 hfiltered] at hmem
            cases hmem
          have hlt := hbehind c List.mem_cons_self b (List.mem_cons_of_mem c hb) hc hnot
          have hne : order b c ≠ .lt := fun hbc => Std.OrientedCmp.not_lt_of_lt hlt hbc
          simp only [if_neg hne]
    · have hc : test c = false := by simpa using hc
      rw [List.filter_cons_of_neg (by simp [hc])] at h
      obtain ⟨ha, htest⟩ := List.mem_filter.1 (least?_mem h)
      have hlt := hbehind a (List.mem_cons_of_mem c ha) c List.mem_cons_self htest hc
      rw [ih h hrest]
      simp only [if_pos hlt]

/-! ## Thresholds -/

/-- The cutoff, with the timeout cut off at sixty-four bits. -/
theorem toNat_staleBefore (now : Millis) (timeout : Duration) :
    (staleBefore now timeout).toNat = now.toNat - timeout.wholeMillis % 2 ^ 64 := by
  rw [staleBefore, Millis.toNat_minus, UInt64.toNat_ofNat']

/-- The timeout that leaves more in sixty-four bits has the earlier cutoff. -/
theorem staleBefore_le {t₁ t₂ : Duration}
    (h : t₁.wholeMillis % 2 ^ 64 ≤ t₂.wholeMillis % 2 ^ 64) (now : Millis) :
    staleBefore now t₂ ≤ staleBefore now t₁ := by
  rw [UInt64.le_iff_toNat_le, toNat_staleBefore, toNat_staleBefore]
  omega

section

variable {now cutoff cutoff' : Millis} {s s' : Store}

/-- What is terminated under the earlier threshold is terminated under the later one as well. -/
theorem Process.terminateStale_of_le (hle : cutoff' ≤ cutoff) {p : Process}
    (h : terminateStale now cutoff' s = .ok (some p, s')) :
    terminateStale now cutoff s = .ok (some p, s') := by
  obtain ⟨ps, hps, ⟨-, hnone, -⟩ | ⟨q, hleast, hp, rfl⟩⟩ := terminateStale_eq_ok.1 h
  · cases hnone
  refine terminateStale_eq_ok.2 ⟨ps, hps, .inr ⟨q, ?_, hp, rfl⟩⟩
  refine least?_of_filter (isStale cutoff') ?_ fun b hb c hc hb' hc' => ?_
  · -- what is stale for the earlier cutoff is stale for the later one
    have hfilter : (ps.filter (isStale cutoff)).filter (isStale cutoff') =
        ps.filter (isStale cutoff') := by
      rw [List.filter_filter]
      refine List.filter_congr fun x _ => ?_
      by_cases hx : x.isStale cutoff' = true
      · obtain ⟨hlive, hlt⟩ := isStale_iff.1 hx
        rw [hx, Bool.true_and, isStale_iff]
        exact ⟨hlive, UInt64.lt_of_lt_of_le hlt hle⟩
      · simp [hx]
    rw [hfilter]
    exact hleast
  · -- one of them was heard of before the earlier threshold, the other one was not
    obtain ⟨-, hlt⟩ := isStale_iff.1 hb'
    obtain ⟨hlive, -⟩ := isStale_iff.1 (List.mem_filter.1 hc).2
    have hge : ¬ c.lastKeepalive < cutoff' := fun hlt => by
      rw [isStale_iff.2 ⟨hlive, hlt⟩] at hc'
      cases hc'
    rw [orderByKeepalive_eq_lt]
    exact .inl (UInt64.lt_of_lt_of_le hlt (UInt64.not_lt.1 hge))

namespace Reaping

variable {r : Reaping}

/-- A step that goes on for the longer timeout is the same for the shorter one. -/
theorem step_of_le (hle : cutoff' ≤ cutoff) (hgoing : (r.step now cutoff' s).1.Going) :
    r.step now cutoff s = r.step now cutoff' s := by
  cases r with
  | finished result => rfl
  | releasing reaped p c others => rfl
  | seeking reaped =>
    rw [step, step] at *
    rcases Transaction.commit_cases (Process.terminateStale now cutoff') s with
      ⟨found, s', hok, hcommit⟩ | ⟨e, -, hcommit⟩
    · rw [hcommit] at hgoing
      cases found with
      | none => exact absurd rfl (hgoing _)
      | some p =>
        rw [hcommit, Transaction.commit_eq_ok.2 (Process.terminateStale_of_le hle hok)]
    · rw [hcommit] at hgoing
      exact absurd rfl (hgoing _)

/-- As long as the pass with the earlier threshold is not over the other one does the same. -/
theorem point_of_le (hle : cutoff' ≤ cutoff) {count : Nat}
    (hgoing : (point now cutoff' s count).1.Going) :
    point now cutoff s count = point now cutoff' s count := by
  induction count with
  | zero => rfl
  | succ count ih =>
    have hbefore := ih (going_of_going_succ hgoing)
    rw [point_succ] at hgoing
    rw [point_succ, point_succ, hbefore]
    exact step_of_le hle hgoing

/-! ## Answers -/

/-- A pass that is over has found what it finds, whatever the threshold. -/
theorem exists_finish_of_over (now cutoff cutoff' : Millis) (s : Store) (fuel : Nat)
    (hover : ¬ r.Going) (hr : ∀ e, r ≠ .finished (.error e)) :
    ∃ ps qs t u, finish now cutoff' fuel s r = (.ok (some ps), t) ∧
      finish now cutoff fuel s r = (.ok (some (ps ++ qs)), u) := by
  cases r with
  | finished result =>
    rw [finish_finished, finish_finished]
    cases result with
    | ok ps => exact ⟨ps, [], s, s, rfl, by rw [List.append_nil]; rfl⟩
    | error e => exact absurd rfl (hr e)
  | seeking ps => exact absurd (by rintro _ ⟨⟩) hover
  | releasing ps p c others => exact absurd (by rintro _ ⟨⟩) hover

/-- A pass that finds nothing more is over, and one with a later threshold may go on. -/
theorem exists_finish_of_last (now : Millis) {fuel : Nat} (hs : ∀ c, s.Readable c)
    (hhome : s.Homes Process) (hapart : r.Apart) (hr : ∀ e, r ≠ .finished (.error e))
    (hgoing : r.Going) (hlast : ¬ (r.step now cutoff' s).1.Going)
    (hfuel : r.need cutoff s ≤ fuel + 1) :
    ∃ ps qs t u, finish now cutoff' (fuel + 1) s r = (.ok (some ps), t) ∧
      finish now cutoff (fuel + 1) s r = (.ok (some (ps ++ qs)), u) := by
  cases r with
  | finished result => exact absurd rfl (hgoing result)
  | releasing ps p c others =>
    -- giving back is never the end of a pass
    obtain ⟨n, s', hrelease⟩ := (hs c).exists_releaseIn p.id
    rw [step, Transaction.commit_eq_ok.2 hrelease] at hlast
    cases others <;> exact absurd (by rintro _ ⟨⟩) hlast
  | seeking ps =>
    obtain ⟨qs, u, hlong⟩ := exists_finish_eq_ok now cutoff hs hhome hapart hr hfuel
    obtain ⟨found, s', hterminate⟩ := (hs .processes).exists_terminateStale now cutoff'
    have hcommit := Transaction.commit_eq_ok.2 hterminate
    rw [step, hcommit] at hlast
    cases found with
    | some p => exact absurd (by rintro _ ⟨⟩) hlast
    | none =>
      have hshort : finish now cutoff' (fuel + 1) s (.seeking ps) = (.ok (some ps), s') := by
        rw [finish_succ hgoing, step, hcommit, finish_finished]
        rfl
      exact ⟨ps, qs, s', u, hshort, hlong⟩

/-- Where both passes come to an end the one with the earlier threshold terminates the first ones of
what the other one does. -/
theorem finish_of_le (now : Millis) (hle : cutoff' ≤ cutoff) {fuel : Nat} (hs : ∀ c, s.Readable c)
    (hhome : s.Homes Process) (hapart : r.Apart) (hr : ∀ e, r ≠ .finished (.error e))
    (hfuel : r.need cutoff s ≤ fuel) (hfuel' : r.need cutoff' s ≤ fuel) :
    ∃ ps qs t u, finish now cutoff' fuel s r = (.ok (some ps), t) ∧
      finish now cutoff fuel s r = (.ok (some (ps ++ qs)), u) := by
  induction fuel generalizing r s with
  | zero =>
    have hover : ¬ r.Going := fun hgoing => Nat.not_lt_of_le hfuel hgoing.need_pos
    exact exists_finish_of_over now cutoff cutoff' s 0 hover hr
  | succ fuel ih =>
    by_cases hgoing : r.Going
    · by_cases hlast : (r.step now cutoff' s).1.Going
      · -- both passes take the same step, and both need less behind it
        have hok := step_ne_error now cutoff' hs hr
        have hread := (step_tidied now cutoff' s r).readable hs
        have hsame := step_of_le hle hlast
        obtain ⟨hhome', hapart', hnear'⟩ := step_near hhome hapart hgoing now cutoff'
        obtain ⟨-, -, hnear⟩ := step_near hhome hapart hgoing now cutoff
        rw [hsame] at hnear
        rw [finish_succ hgoing, finish_succ hgoing, hsame]
        exact ih hread hhome' hapart' hok (by omega) (by omega)
      · exact exists_finish_of_last now hs hhome hapart hr hgoing hlast hfuel
    · exact exists_finish_of_over now cutoff cutoff' s (fuel + 1) hgoing hr

end Reaping

end

/-! ## A process between two thresholds -/

/-- A process that gave its last sign of life at a time. -/
def Process.heardOf (time : Millis) : Process := { Wreck.process with lastKeepalive := time }

namespace Reaping

theorem reapOnce_of_lapsed {s : Store} (hs : s.WellFormed) (hread : ∀ c, s.Readable c)
    {now : Millis} {timeout : Duration} {ps : List Process}
    (h : Lapsed (staleBefore now timeout) s ps) :
    ∃ t, (reapOnce now timeout).on s = (.ok (some ps), t) := by
  obtain ⟨t, hrun, -⟩ : ∃ t, (next now (staleBefore now timeout))^[5 * ps.length + 1]
      (.seeking [], s) = (.finished (.ok ps), t) ∧ _ := iterate_seeking hs hread h
  exact ⟨t, reapOnce_of_iterate hrun (le_enough_of_lapsed h)⟩

/-- Alone in a store, the process is terminated if its last sign of life is older than the
threshold. -/
theorem lapsed_heardOf (time cutoff : Millis) :
    Lapsed cutoff (Store.empty.put (Process.heardOf time))
    (if time < cutoff then [(Process.heardOf time).terminated] else []) := by
  have hstale : (Process.heardOf time).isStale cutoff = true ↔ time < cutoff := by
    rw [Process.isStale_iff]
    exact ⟨fun h => h.2, fun h => ⟨rfl, h⟩⟩
  have honly (q : Process) : (Store.empty.put (Process.heardOf time)).Has q ↔
      q = Process.heardOf time := by
    rw [has_put_iff]
    refine ⟨fun h => h.resolve_right fun hq => ?_, .inl⟩
    cases hq.2
  constructor
  · split
    · exact List.pairwise_singleton _ _
    · exact .nil
  · intro p
    simp only [honly, exists_eq_left, hstale]
    split
    case isTrue hlt => simp [hlt]
    case isFalse hlt => simp [hlt]

/-- Where a timeout leaves less of `2 ^ 64` milliseconds than another one, there are a time and a
store with a process that only a pass with this timeout terminates. -/
theorem exists_reaped_by_less {t₁ t₂ : Duration}
    (h : t₂.wholeMillis % 2 ^ 64 < t₁.wholeMillis % 2 ^ 64) :
    ∃ (s : Store) (now : Millis) (p : Process) (u v : Store), s.Regular ∧
      (reapOnce now t₂).on s = (.ok (some [p]), u) ∧
        (reapOnce now t₁).on s = (.ok (some []), v) := by
  let now : Millis := UInt64.ofNat (2 ^ 64 - 1)
  have hnow : now.toNat = 2 ^ 64 - 1 := rfl
  let p := Process.heardOf (staleBefore now t₁)
  have hregular : (Store.empty.put p).Regular := regular_empty.put_process p
  have hlt : staleBefore now t₁ < staleBefore now t₂ := by
    rw [UInt64.lt_iff_toNat_lt, toNat_staleBefore, toNat_staleBefore, hnow]
    omega
  have hlapsed := lapsed_heardOf (staleBefore now t₁) (staleBefore now t₂)
  have hlapsed' := lapsed_heardOf (staleBefore now t₁) (staleBefore now t₁)
  rw [if_pos hlt] at hlapsed
  rw [if_neg (UInt64.lt_irrefl _)] at hlapsed'
  obtain ⟨u, hu⟩ := reapOnce_of_lapsed hregular.wellFormed hregular.readable hlapsed
  obtain ⟨v, hv⟩ := reapOnce_of_lapsed hregular.wellFormed hregular.readable hlapsed'
  exact ⟨_, now, _, u, v, hregular, hu, hv⟩

end Reaping

/-! ## The result -/

open Reaping

/-- **Which timeouts reap less than others.** Let a first timeout leave no more of `2 ^ 64`
milliseconds than a second one. Then at any time and on any store a pass with the first one does
what a pass with the second one does, transaction by transaction, until the latter finds nothing
more; where all documents can be read and all processes lie under their own ids both end well, and
the processes that the second one terminates are the first ones that the first one does. So it is
for a longer timeout of less than `2 ^ 64` milliseconds. Beyond, where the longer timeout leaves
less, there are a time and such a store in which it terminates a process that the shorter one leaves
alone; a configuration may name two such timeouts. -/
theorem timeouts_reap_by_what_they_leave (t₁ t₂ : Duration) :
    (t₁.wholeMillis % 2 ^ 64 ≤ t₂.wholeMillis % 2 ^ 64 → ∀ (s : Store) (now : Millis),
      (∀ count, (point now (staleBefore now t₂) s count).1.Going →
        point now (staleBefore now t₁) s count = point now (staleBefore now t₂) s count) ∧
      ((∀ c, s.Readable c) → s.Homes Process → ∃ ps qs u v,
        (reapOnce now t₂).on s = (.ok (some ps), u) ∧
        (reapOnce now t₁).on s = (.ok (some (ps ++ qs)), v))) ∧
    (t₁.nanos ≤ t₂.nanos → t₂.wholeMillis < 2 ^ 64 →
      t₁.wholeMillis % 2 ^ 64 ≤ t₂.wholeMillis % 2 ^ 64) ∧
    (t₂.wholeMillis % 2 ^ 64 < t₁.wholeMillis % 2 ^ 64 →
      ∃ (s : Store) (now : Millis) (p : Process) (u v : Store),
        (∀ c, s.Readable c) ∧ s.Homes Process ∧
        (reapOnce now t₂).on s = (.ok (some [p]), u) ∧
        (reapOnce now t₁).on s = (.ok (some []), v)) ∧
    ∃ c₁ c₂ d₁ d₂, Config.keepaliveTimeout c₁ = .ok d₁ ∧ Config.keepaliveTimeout c₂ = .ok d₂ ∧
      d₁.nanos ≤ d₂.nanos ∧ d₂.wholeMillis % 2 ^ 64 < d₁.wholeMillis % 2 ^ 64 := by
  refine ⟨fun hle s now =>
    ⟨fun count => point_of_le (staleBefore_le hle now), fun hread hhome => ?_⟩,
    fun hle hlt => ?_, fun hlt => ?_, ?_⟩
  · obtain ⟨ps, qs, u, v, hshort, hlong⟩ := finish_of_le now (staleBefore_le hle now) hread hhome
      (r := .seeking []) trivial nofun (need_le_enough []) (need_le_enough [])
    refine ⟨ps, qs, u, v, ?_, ?_⟩
    · rw [reapOnce_on, hshort]
      rfl
    · rw [reapOnce_on, hlong]
      rfl
  · have hmillis : t₁.wholeMillis ≤ t₂.wholeMillis := Nat.div_le_div_right hle
    rw [Nat.mod_eq_of_lt hlt, Nat.mod_eq_of_lt (Nat.lt_of_le_of_lt hmillis hlt)]
    exact hmillis
  · obtain ⟨s, now, p, u, v, hs, hu, hv⟩ := exists_reaped_by_less hlt
    exact ⟨s, now, p, u, v, hs.readable, hs.processes.keyed.homes, hu, hv⟩
  · -- the default of twenty-five seconds, and `2 ^ 64` milliseconds with 384 more
    refine ⟨{}, { process := some { keepaliveTimeout := some "18446744073709552s" } }, _, _,
      rfl, rfl, ?_, ?_⟩ <;> decide

namespace Wreck

/-- Half a second, after which the process of the wreck is still given up. -/
def briefTimeout : Duration := ⟨5 * 10 ^ 8, by decide⟩

/-- Twenty-five seconds. -/
def longTimeout : Duration := ⟨25 * 10 ^ 9, by decide⟩

/-- Some more than `2 ^ 64` milliseconds. -/
def endlessTimeout : Duration := ⟨18446744073709552 * 10 ^ 9, by decide⟩

end Wreck

/-- A pass with half a second begins with what a pass with twenty-five seconds does, and a timeout of
centuries gives up a process that twenty-five seconds leave alone. -/
theorem timeouts_reap_by_what_they_leave_at_wreck :
    Wreck.briefTimeout.nanos ≤ Wreck.longTimeout.nanos ∧ Wreck.longTimeout.wholeMillis < 2 ^ 64 ∧
      (∀ c, Wreck.store.Readable c) ∧ Wreck.store.Homes Process ∧
      (point 1000 (staleBefore 1000 Wreck.longTimeout) Wreck.store 0).1.Going ∧
      point 1000 (staleBefore 1000 Wreck.briefTimeout) Wreck.store 0 =
        point 1000 (staleBefore 1000 Wreck.longTimeout) Wreck.store 0 ∧
      (∃ ps qs u v, (reapOnce 1000 Wreck.longTimeout).on Wreck.store = (.ok (some ps), u) ∧
        (reapOnce 1000 Wreck.briefTimeout).on Wreck.store = (.ok (some (ps ++ qs)), v)) ∧
      Wreck.longTimeout.nanos ≤ Wreck.endlessTimeout.nanos ∧
      Wreck.endlessTimeout.wholeMillis % 2 ^ 64 < Wreck.longTimeout.wholeMillis % 2 ^ 64 ∧
      ∃ (s : Store) (now : Millis) (p : Process) (u v : Store),
        (∀ c, s.Readable c) ∧ s.Homes Process ∧
        (reapOnce now Wreck.endlessTimeout).on s = (.ok (some [p]), u) ∧
        (reapOnce now Wreck.longTimeout).on s = (.ok (some []), v) := by
  obtain ⟨hleaves, horder, -, -⟩ :=
    timeouts_reap_by_what_they_leave Wreck.briefTimeout Wreck.longTimeout
  obtain ⟨-, -, hless, -⟩ := timeouts_reap_by_what_they_leave Wreck.longTimeout Wreck.endlessTimeout
  have hle : Wreck.briefTimeout.nanos ≤ Wreck.longTimeout.nanos := by decide
  have hmillis : Wreck.longTimeout.wholeMillis < 2 ^ 64 := by decide
  have hwraps :
      Wreck.endlessTimeout.wholeMillis % 2 ^ 64 < Wreck.longTimeout.wholeMillis % 2 ^ 64 := by
    decide
  have hhome : Wreck.store.Homes Process := Wreck.wellFormed.keyed.homes
  have hgoing : (point 1000 (staleBefore 1000 Wreck.longTimeout) Wreck.store 0).1.Going := nofun
  obtain ⟨hpoints, hanswers⟩ := hleaves (horder hle hmillis) Wreck.store 1000
  exact ⟨hle, hmillis, Wreck.readable, hhome, hgoing, hpoints 0 hgoing,
    hanswers Wreck.readable hhome, by decide, hwraps, hless hwraps⟩

end Fleet
