import Fleet.Registry.Reaper
import Fleet.Settlement.Job
import Fleet.Settlement.Task
import Fleet.World

/-!
# Background work

Some work is done over and over: signs of life, looks of the reaper and of the two maintainers. A
loop does one such activity every time its period is over; what fails is left to the next time.

A pass of the reaper may come to no end, and nothing else is done then in a run. In a run in which
only background work happens and the clock stands still, an activity that changed nothing will
change nothing until another one does (`runAll_eq_inTurn`), so a run skips it until then.
-/

set_option autoImplicit false

namespace Fleet

/-- What a background loop does when its period is over. -/
inductive Activity where
  | keepAlive (process : String)
  | reap (timeout : Duration)
  | pollJobs (process : String)
  | pollTasks (process : String)
deriving DecidableEq, Repr

namespace Activity

/-- Something came to an end, with an answer or an error. -/
def isOver {ε α : Type} : Except ε (Option α) → Bool
  | .ok none => false
  | _ => true

/-- Does the activity once, and tells whether it is over, with the world behind it or so far. -/
def run (w : World) : Activity → Bool × World
  | .keepAlive process => (true, (w.run (Fleet.keepAlive w.now process)).2)
  | .reap timeout =>
    let (result, w) := w.run (reapOnce w.now timeout)
    (isOver result, w)
  | .pollJobs process => (true, { w with store := (Fleet.pollJobs w.now process w.store).2 })
  | .pollTasks process => (true, { w with store := (Fleet.pollTasks w.now process w.store).2 })

/-- Does activities one after the other, up to the first that comes to no end. -/
def inTurn : List Activity → World → Bool × World
  | [], w => (true, w)
  | a :: rest, w =>
    match a.run w with
    | (true, w) => inTurn rest w
    | (false, w) => (false, w)

/-- Does activities one after the other, except those in `idle`, which would change nothing. -/
def runAll : List Activity → (idle : List Activity) → World → Bool × World
  | [], _, w => (true, w)
  | a :: rest, idle, w =>
    if a ∈ idle then runAll rest idle w
    else
      match a.run w with
      -- behind a change nothing is idle any more
      | (true, w') => if w' = w then runAll rest (a :: idle) w else runAll rest [] w'
      | (false, w') => (false, w')

/-- Skipping what is idle makes no difference. -/
theorem runAll_eq_inTurn (as : List Activity) (idle : List Activity) (w : World)
    (h : ∀ a ∈ idle, a.run w = (true, w)) : runAll as idle w = inTurn as w := by
  induction as generalizing idle w with
  | nil => rfl
  | cons a rest ih =>
    by_cases ha : a ∈ idle
    · rw [runAll, if_pos ha, inTurn, h a ha]
      exact ih idle w h
    · rw [runAll, if_neg ha, inTurn]
      rcases hrun : a.run w with ⟨ended, w'⟩
      cases ended with
      | false => rfl
      | true =>
        by_cases hw : w' = w
        · subst hw
          simp only [if_true]
          refine ih (a :: idle) w' fun b hb => ?_
          rcases List.mem_cons.1 hb with rfl | hb
          · exact hrun
          · exact h b hb
        · simp only [if_neg hw]
          exact ih [] w' fun b hb => absurd hb List.not_mem_nil

end Activity

/-! ## Loops -/

/-- An activity with the time between two of its turns. -/
structure Loop where
  period : Duration
  activity : Activity

/-- The turns of a loop within some milliseconds, each with its time. -/
def Loop.turns (millis : Nat) (l : Loop) : List (Nat × Activity) :=
  -- a timer waits for a millisecond at least
  let period := max 1 l.period.timerMillis
  (List.range (millis / period)).map fun k => ((k + 1) * period, l.activity)

/-- The turns of several loops within some milliseconds in the order of their times. -/
def schedule (millis : Nat) (loops : List Loop) : List Activity :=
  ((loops.flatMap (Loop.turns millis)).mergeSort fun a b => a.1 ≤ b.1).map (·.2)

end Fleet
