import Fleet.Duration

/-!
# Retrying with growing delays

Work that must not be left half done is tried again for as long as waiting may help: after every
transient failure, with a delay that doubles each time and stays at the longest duration once it is
there. The first outcome that is not worth retrying, a success or any other failure, ends the loop
and is its result.

`retryAnswers` retries work whose outcome may be some time in coming, `retry` work that has its
outcome at once; the latter is the former on outcomes that are there already.
-/

set_option autoImplicit false

namespace Fleet

/-! ## Delays -/

/-- The delay to wait next. -/
structure Backoff where
  current : Duration
deriving DecidableEq, Repr

namespace Backoff

/-- The delay to wait now, and what to wait later. -/
def next (b : Backoff) : Duration × Backoff := (b.current, ⟨b.current.doubled⟩)

/-- The first `count` delays. -/
def delays (b : Backoff) : (count : Nat) → List Duration
  | 0 => []
  | count + 1 => b.next.1 :: b.next.2.delays count

end Backoff

/-! ## Outcomes -/

/-- An answer that is there, or that has to be asked for again. -/
inductive Answer (α : Type) where
  | ready (a : α)
  | pending (later : Answer α)

/-- The answer in the end. -/
def Answer.await {α : Type} : Answer α → α
  | .ready a => a
  | .pending later => later.await

/-- What a retry loop does beside looking at outcomes. -/
inductive RetryEvent where
  /-- It calls the work. -/
  | call
  /-- It lets time pass. -/
  | sleep (delay : Duration)
deriving DecidableEq, Repr

/-- What a retry loop did: its result, and its calls and delays one after the other. -/
structure Retried (ε α : Type) where
  result : Except ε α
  events : List RetryEvent

namespace Retried

variable {ε α : Type}

/-- How often the work was called. -/
def calls (r : Retried ε α) : Nat := r.events.count .call

/-- The milliseconds from a time to each call, on a clock that only delays move. -/
def timesFrom : (elapsed : Nat) → List RetryEvent → List Nat
  | _, [] => []
  | elapsed, .call :: events => elapsed :: timesFrom elapsed events
  | elapsed, .sleep delay :: events => timesFrom (elapsed + delay.timerMillis) events

/-- The milliseconds from the first call to each call. -/
def callTimes (r : Retried ε α) : List Nat := timesFrom 0 r.events

end Retried

variable {ε α : Type}

/-! ## The loops -/

/-- Retries work whose calls answer with `answers` one after the other, and with `last` from then
on, which is not worth retrying. -/
def retryAnswers (isTransient : ε → Bool) (backoff : Backoff) (last : Except ε α) :
    List (Answer (Except ε α)) → Retried ε α
  | [] => ⟨last, [.call]⟩
  | answer :: answers =>
    match answer.await with
    | .ok a => ⟨.ok a, [.call]⟩
    | .error e =>
      if isTransient e then
        let (delay, backoff) := backoff.next
        let rest := retryAnswers isTransient backoff last answers
        ⟨rest.result, .call :: .sleep delay :: rest.events⟩
      else ⟨.error e, [.call]⟩

/-- Retries work that has its outcomes at once. -/
def retry (isTransient : ε → Bool) (backoff : Backoff) (last : Except ε α)
    (outcomes : List (Except ε α)) : Retried ε α :=
  retryAnswers isTransient backoff last (outcomes.map .ready)

end Fleet
