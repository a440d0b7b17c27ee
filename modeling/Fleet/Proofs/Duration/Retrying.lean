import Fleet.Error
import Fleet.Retry

/-!
# Retrying up to the first final outcome

An outcome is final if it is a success or a failure for which waiting does not help. A retry loop
calls its work up to the first final outcome, which is its result, and in front of each further call
it waits for its first delay doubled once for every call before, or for the longest duration where
that is more (`retries_stop_at_first_final_outcome`).

That the delays have this closed form rests on `Duration.doubled_saturating`: to stop at the longest
duration in every doubling is to double without end and to stop once.
-/

set_option autoImplicit false

namespace Fleet

/-! ## Doubling -/

namespace Duration

theorem saturating_nanos (d : Duration) : saturating d.nanos = d := dif_pos d.inRange

/-- Doubling and saturating may be exchanged. -/
theorem doubled_saturating (n : Nat) : (saturating n).doubled = saturating (2 * n) := by
  apply Duration.ext
  rw [nanos_doubled, nanos_saturating, nanos_saturating]
  omega

/-- Doubling by seconds and nanoseconds: what is too much for the latter is carried over. -/
theorem doubled_by_parts (d : Duration) :
    if 2 * d.seconds + 2 * d.subsecond / 10 ^ 9 < 2 ^ 64 then
      d.doubled.seconds = 2 * d.seconds + 2 * d.subsecond / 10 ^ 9 ∧
        d.doubled.subsecond = 2 * d.subsecond % 10 ^ 9
    else d.doubled = greatest := by
  have hd := d.inRange
  have hgreatest : greatest.nanos = 2 ^ 64 * 10 ^ 9 - 1 := rfl
  have hnanos := d.nanos_doubled
  rw [seconds, subsecond, seconds, subsecond]
  split
  · omega
  · exact Duration.ext (by omega)

end Duration

/-! ## The first final outcome -/

variable {ε α : Type}

/-- The outcome of each call. -/
def outcomeAt (outcomes : List (Except ε α)) (last : Except ε α) (i : Nat) : Except ε α :=
  outcomes.getD i last

/-- The first outcome that is not worth retrying is that of the call with the number `k`. -/
structure FirstFinal (isTransient : ε → Bool) (outcome : Nat → Except ε α) (k : Nat) : Prop where
  transient_before : ∀ i < k, ∃ e, outcome i = .error e ∧ isTransient e = true
  final_at : ∀ e, outcome k = .error e → isTransient e = false

/-- The work was called up to the outcome with the number `k`, and between two calls the loop waited
for a delay that doubles each time. -/
structure Retried.StopsAt (r : Retried ε α) (initial : Duration) (outcome : Nat → Except ε α)
    (k : Nat) :
    Prop where
  result_eq : r.result = outcome k
  calls_eq : r.calls = k + 1
  events_eq : ∃ delay : Nat → Duration,
    (∀ i, (delay i).nanos = min (initial.nanos * 2 ^ i) Duration.greatest.nanos) ∧
      r.events = (List.range k).flatMap (fun i => [.call, .sleep (delay i)]) ++ [.call]

/-- The events up to the call with the number `k`, where the first delay has so many nanoseconds, or
is the longest one. -/
def eventsUpTo (nanos k : Nat) : List RetryEvent :=
  (List.range k).flatMap (fun i => [.call, .sleep (.saturating (nanos * 2 ^ i))]) ++ [.call]

/-- One call more comes behind one sleep more. -/
theorem eventsUpTo_succ (nanos k : Nat) :
    eventsUpTo nanos (k + 1) =
      .call :: .sleep (.saturating nanos) :: eventsUpTo (2 * nanos) k := by
  have hshift (i : Nat) : nanos * 2 ^ (i + 1) = 2 * nanos * 2 ^ i := by
    rw [Nat.pow_succ', ← Nat.mul_assoc, Nat.mul_comm nanos 2]
  simp [eventsUpTo, List.range_succ_eq_map, List.flatMap_map, hshift]

/-- There is one call more than there are sleeps. -/
theorem count_eventsUpTo (nanos k : Nat) : (eventsUpTo nanos k).count .call = k + 1 := by
  induction k generalizing nanos with
  | zero => rfl
  | succ k ih => simp [eventsUpTo_succ, ih]

/-- The loop makes its calls and waits as told up to the first final outcome, and gives this
outcome. -/
theorem retryAnswers_eq {isTransient : ε → Bool} {last : Except ε α}
    {answers : List (Answer (Except ε α))} (nanos : Nat) {k : Nat}
    (h : FirstFinal isTransient (outcomeAt (answers.map Answer.await) last) k) :
    retryAnswers isTransient ⟨.saturating nanos⟩ last answers =
      ⟨outcomeAt (answers.map Answer.await) last k, eventsUpTo nanos k⟩ := by
  induction answers generalizing nanos k with
  | nil =>
    cases k with
    | zero => rfl
    | succ k =>
      -- all outcomes are the last one, which is worth retrying or is not
      obtain ⟨e, he, htransient⟩ := h.transient_before 0 k.succ_pos
      rw [h.final_at e he] at htransient
      cases htransient
  | cons answer answers ih =>
    cases k with
    | zero =>
      have hfinal : ∀ e, answer.await = .error e → isTransient e = false := h.final_at
      have hresult : outcomeAt ((answer :: answers).map Answer.await) last 0 = answer.await := rfl
      rw [hresult, retryAnswers]
      cases hanswer : answer.await with
      | ok a => rfl
      | error e => simp [hfinal e hanswer, eventsUpTo]
    | succ k =>
      obtain ⟨e, he, htransient⟩ := h.transient_before 0 k.succ_pos
      have hanswer : answer.await = .error e := he
      have hrest : FirstFinal isTransient (outcomeAt (answers.map Answer.await) last) k :=
        ⟨fun i hi => h.transient_before (i + 1) (Nat.succ_lt_succ hi), h.final_at⟩
      rw [retryAnswers, hanswer]
      simp only [if_pos htransient, Backoff.next, Duration.doubled_saturating, ih (2 * nanos) hrest,
        eventsUpTo_succ]
      rfl

/-- **A retry loop stops at the first final outcome.** Where the first outcome that is not worth
retrying is that of the call with the number `k`, counted from zero, the loop makes exactly `k + 1`
calls, has this outcome as its result, and behind the call with the number `i` waits for its first
delay times `2 ^ i`, or for the longest duration where that is more. So it is where the outcomes are
some time in coming, and so it is where they are there at once. -/
theorem retries_stop_at_first_final_outcome {isTransient : ε → Bool} (initial : Duration)
    {outcomes : List (Except ε α)} {last : Except ε α} {k : Nat}
    (h : FirstFinal isTransient (outcomeAt outcomes last) k) :
    (∀ answers : List (Answer (Except ε α)), answers.map Answer.await = outcomes →
      (retryAnswers isTransient ⟨initial⟩ last answers).StopsAt initial
        (outcomeAt outcomes last) k) ∧
    (retry isTransient ⟨initial⟩ last outcomes).StopsAt initial (outcomeAt outcomes last) k := by
  have hanswers (answers : List (Answer (Except ε α)))
      (hawait : answers.map Answer.await = outcomes) :
      (retryAnswers isTransient ⟨initial⟩ last answers).StopsAt initial
        (outcomeAt outcomes last) k := by
    subst hawait
    have heq := retryAnswers_eq initial.nanos h
    rw [Duration.saturating_nanos] at heq
    rw [heq]
    exact ⟨rfl, count_eventsUpTo _ _, _, fun i => Duration.nanos_saturating _, rfl⟩
  refine ⟨hanswers, hanswers (outcomes.map .ready) ?_⟩
  rw [List.map_map]
  exact List.map_id outcomes

namespace Outage

/-- A first delay of which the fourth multiple is beyond the longest duration. -/
def initial : Duration := ⟨2 ^ 62 * 10 ^ 9 + 7 * 10 ^ 8, by decide⟩

/-- A store that cannot be written to for a while, and then refuses what is asked of it. -/
def outcomes : List (Except StateError Unit) :=
  [.error (.write "disk full"), .error (.write "disk full"), .error (.read "timeout"),
    .error (.badInput "no such job")]

end Outage

/-- The fourth outcome is final; the delay before it is the longest one. -/
theorem retries_stop_at_first_final_outcome_of_outage :
    FirstFinal StateError.isTransient (outcomeAt Outage.outcomes (.ok ())) 3 ∧
      (retry StateError.isTransient ⟨Outage.initial⟩ (.ok ()) Outage.outcomes).StopsAt
        Outage.initial
        (outcomeAt Outage.outcomes (.ok ())) 3 := by
  have h : FirstFinal StateError.isTransient (outcomeAt Outage.outcomes (.ok ())) 3 :=
    { transient_before := fun i hi => by
        obtain rfl | rfl | rfl : i = 0 ∨ i = 1 ∨ i = 2 := by omega
        all_goals exact ⟨_, rfl, rfl⟩
      final_at := fun e he => by
        cases he
        rfl }
  exact ⟨h, (retries_stop_at_first_final_outcome Outage.initial h).2⟩

end Fleet
